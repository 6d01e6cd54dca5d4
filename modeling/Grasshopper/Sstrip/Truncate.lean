import Grasshopper.Sstrip.Run

/-! # `truncatezeros` cuts off the trailing zeros

The blocks it reads are parts of the file, so going back through them finds the last byte of the
file's first `*newsize` ones that is not zero.
-/

namespace Grasshopper.Sstrip

open Bytes

/-- The size of the first `n` bytes of a file without their trailing zeros. -/
def trimmedSize (file : List UInt8) : ℕ → ℕ
  | 0 => 0
  | n + 1 => if file[n]? = some 0 then trimmedSize file n else n + 1

theorem trimmedSize_le (file : List UInt8) (n : ℕ) : trimmedSize file n ≤ n := by
  induction n with
  | zero => exact le_rfl
  | succ n ih =>
    unfold trimmedSize
    split_ifs
    · omega
    · exact le_rfl

theorem zero_of_trimmedSize_le {file : List UInt8} {n q : ℕ} (h : trimmedSize file n ≤ q)
    (hq : q < n) : file[q]? = some 0 := by
  induction n with
  | zero => omega
  | succ n ih =>
    unfold trimmedSize at h
    split_ifs at h with hn
    · rcases Nat.lt_succ_iff_lt_or_eq.mp hq with hq | rfl
      · exact ih h hq
      · exact hn
    · omega

/-- Skipping zeros at the end of a block leaves the trimmed size as it is, and finds it unless it
stops at the start of the block. -/
theorem skipZeros_trimmed {file contents : List UInt8} {base n : ℕ}
    (h : ∀ i < n, contents[i]? = file[base + i]?) :
    trimmedSize file (base + n) = trimmedSize file (skipZeros contents n (base + n)).2 ∧
      ((skipZeros contents n (base + n)).1 ≠ 0 →
        trimmedSize file (skipZeros contents n (base + n)).2 =
          (skipZeros contents n (base + n)).2) := by
  induction n with
  | zero => simp [skipZeros]
  | succ n ih =>
    have hn := h n (Nat.lt_succ_self n)
    unfold skipZeros
    rw [hn, ← Nat.add_assoc, Nat.add_sub_cancel]
    split_ifs with h0
    · have hstep : trimmedSize file (base + n + 1) = trimmedSize file (base + n) := by
        rw [trimmedSize, if_pos h0]
      rw [hstep]
      exact ih fun i hi => h i (by omega)
    · have hstop : trimmedSize file (base + n + 1) = base + n + 1 := by
        rw [trimmedSize, if_neg h0]
      exact ⟨rfl, fun _ => hstop⟩

theorem truncatezerosLoop_ok {fuel size r : ℕ} {fd fd' : Fd}
    (h : truncatezerosLoop fuel size fd = .ok r fd') :
    size ≤ fd.contents.length ∧ r = trimmedSize fd.contents size ∧ fd'.contents = fd.contents := by
  induction fuel generalizing size fd with
  | zero => cases h
  | succ fuel ih =>
    unfold truncatezerosLoop at h
    obtain ⟨sought, fd₁, hseek, h⟩ := bind_ok.mp h
    obtain ⟨hsought, h⟩ := check_ok.mp h
    obtain ⟨-, rfl⟩ := lseek_ok hseek (by simpa using hsought)
    obtain ⟨contents, fd₂, hread, h⟩ := bind_ok.mp h
    obtain ⟨hcontents, rfl⟩ := read_ok.mp hread
    obtain ⟨hlen, h⟩ := check_ok.mp h
    dsimp only at hcontents h
    have hfull : contents.length = min 1024 size := not_not.mp hlen
    have hbase : size - min 1024 size + min 1024 size = size := by omega
    have hblock : ∀ i < min 1024 size, contents[i]? = fd.contents[size - min 1024 size + i]? := by
      intro i hi
      rw [hcontents, getElem?_slice, if_pos hi]
    have hfits : size ≤ fd.contents.length := by
      rw [hcontents] at hfull
      simp only [slice, List.length_take, List.length_drop] at hfull
      omega
    obtain ⟨htrim, hstop⟩ := skipZeros_trimmed hblock
    rw [hbase] at htrim hstop
    split_ifs at h with hagain
    · obtain ⟨-, hr, hfile⟩ := ih h
      exact ⟨hfits, hr.trans htrim.symm, hfile⟩
    · obtain ⟨rfl, rfl⟩ := pure_ok.mp h
      refine ⟨hfits, ?_, rfl⟩
      rcases not_and_or.mp hagain with h0 | hn
      · rw [htrim, not_not.mp h0]
        rfl
      · rw [htrim, hstop hn]

theorem truncatezeros_ok {newsize r : ℕ} {fd fd' : Fd}
    (h : truncatezeros newsize fd = .ok r fd') :
    newsize ≤ fd.contents.length ∧ r = trimmedSize fd.contents newsize ∧
      fd'.contents = fd.contents := by
  unfold truncatezeros at h
  obtain ⟨size, fd₁, hloop, h⟩ := bind_ok.mp h
  obtain ⟨-, h⟩ := check_ok.mp h
  obtain ⟨rfl, rfl⟩ := pure_ok.mp h
  exact truncatezerosLoop_ok hloop

/-! ## Every call returns -/

/-- Where skipping the zeros of a block leaves `size`, by where it leaves `n`. -/
theorem skipZeros_size (contents : List UInt8) (base n : ℕ) :
    base ≤ (skipZeros contents n (base + n)).2 ∧
      (skipZeros contents n (base + n)).2 ≤ base + (skipZeros contents n (base + n)).1 + 1 := by
  induction n with
  | zero => simp [skipZeros]
  | succ n ih =>
    unfold skipZeros
    rw [← Nat.add_assoc, Nat.add_sub_cancel]
    split_ifs with h0
    · exact ih
    · constructor
      · omega
      · exact le_rfl

/-- A round of the loop that lies within the file. -/
theorem truncatezerosLoop_succ (fuel : ℕ) {size : ℕ} {fd : Fd} (hfits : size ≤ fd.contents.length)
    (hoff : fd.contents.length < 2 ^ 63) :
    truncatezerosLoop (fuel + 1) size fd =
      let block := slice fd.contents (size - min 1024 size) (min 1024 size)
      let (n, size') := skipZeros block (min 1024 size) size
      if size' ≠ 0 ∧ n = 0 then truncatezerosLoop fuel size' ⟨fd.contents, size⟩
      else .ok size' ⟨fd.contents, size⟩ := by
  have hlen : (slice fd.contents (size - min 1024 size) (min 1024 size)).length = min 1024 size :=
    length_slice (by omega)
  have hend : size - min 1024 size + min 1024 size = size := by omega
  have hlseek : lseek (size - min 1024 size) fd = .ok true ⟨fd.contents, size - min 1024 size⟩ :=
    if_pos (by omega)
  have hread : read (min 1024 size) ⟨fd.contents, size - min 1024 size⟩ =
      .ok (slice fd.contents (size - min 1024 size) (min 1024 size)) ⟨fd.contents, size⟩ := by
    simp only [read, hlen, hend]
  rw [truncatezerosLoop]
  dsimp only
  rw [bind_of_ok hlseek, if_neg (by decide), bind_of_ok hread, if_neg (not_not.mpr hlen)]
  split
  · rfl
  · rfl

/-- Going back block by block ends, since the first four bytes are not all zero: a round that stops
at the start of its block leaves a smaller size. -/
theorem truncatezerosLoop_total {fuel size : ℕ} {fd : Fd} (hfuel : size < fuel)
    (hfits : size ≤ fd.contents.length) (hoff : fd.contents.length < 2 ^ 63)
    (hsize : 4 ≤ trimmedSize fd.contents size) :
    ∃ pos, truncatezerosLoop fuel size fd = .ok (trimmedSize fd.contents size) ⟨fd.contents, pos⟩ := by
  induction fuel generalizing size fd with
  | zero => omega
  | succ fuel ih =>
    have hle := trimmedSize_le fd.contents size
    have hbase : size - min 1024 size + min 1024 size = size := by omega
    have hblock : ∀ i < min 1024 size,
        (slice fd.contents (size - min 1024 size) (min 1024 size))[i]? =
          fd.contents[size - min 1024 size + i]? := by
      intro i hi
      rw [getElem?_slice, if_pos hi]
    obtain ⟨htrim, hstop⟩ := skipZeros_trimmed hblock
    obtain ⟨-, hnext⟩ := skipZeros_size
      (slice fd.contents (size - min 1024 size) (min 1024 size))
      (size - min 1024 size) (min 1024 size)
    rw [hbase] at htrim hstop hnext
    rw [truncatezerosLoop_succ fuel hfits hoff]
    dsimp only
    split_ifs with hagain
    · rw [htrim] at hsize ⊢
      apply ih
      · omega
      · exact (show _ ≤ size by omega).trans hfits
      · exact hoff
      · exact hsize
    · refine ⟨size, ?_⟩
      have hn : (skipZeros (slice fd.contents (size - min 1024 size) (min 1024 size))
          (min 1024 size) size).1 ≠ 0 := by
        intro hn
        apply hagain
        refine ⟨?_, hn⟩
        intro h0
        rw [htrim, h0, trimmedSize] at hsize
        omega
      rw [htrim, hstop hn]

/-- A read that comes up short ends the loop in its first round. -/
theorem truncatezerosLoop_short (fuel : ℕ) {size : ℕ} {fd : Fd} (hshort : fd.contents.length < size) :
    ∃ msgs fd', truncatezerosLoop (fuel + 1) size fd = .error (.failed msgs) fd' := by
  have hlen : (slice fd.contents (size - min 1024 size) (min 1024 size)).length ≠ min 1024 size := by
    simp only [slice, List.length_take, List.length_drop]
    omega
  rw [truncatezerosLoop]
  dsimp only
  by_cases hoff : size - min 1024 size < 2 ^ 63
  · have hlseek : lseek (size - min 1024 size) fd = .ok true ⟨fd.contents, size - min 1024 size⟩ :=
      if_pos hoff
    have hread : read (min 1024 size) ⟨fd.contents, size - min 1024 size⟩ =
        .ok (slice fd.contents (size - min 1024 size) (min 1024 size)) _ := rfl
    rw [bind_of_ok hlseek, if_neg (by decide), bind_of_ok hread, if_pos hlen]
    exact ⟨_, _, bind_of_error rfl⟩
  · have hlseek : lseek (size - min 1024 size) fd = .ok false fd := if_neg hoff
    rw [bind_of_ok hlseek, if_pos (by decide)]
    exact ⟨_, _, bind_of_error rfl⟩

/-! ## What a caller sees -/

/-- A file with the signature that `readelfheaderident` asks for; its offsets are `off_t` values. -/
structure ElfFile where
  bytes : List UInt8
  offsets : bytes.length < 2 ^ 63
  signature : bytes.take 4 = [0x7f, 0x45, 0x4c, 0x46]

/-- The value of a call of `truncatezeros`, and `*newsize` after it: it is assigned before `TRUE` is
returned, and only there. -/
def truncatezerosResult (newsize : ℕ) (fd : Fd) : Option (Bool × ℕ) :=
  match truncatezeros newsize fd with
  | .ok size _ => some (true, size)
  | .error (.failed _) _ => some (false, newsize)
  | .error .diverges _ => none

/-- The trimmed size is the least one that only zeros follow. -/
theorem isLeast_trimmedSize (file : List UInt8) (newsize : ℕ) :
    IsLeast {n | ∀ q, n ≤ q → q < newsize → file[q]? = some 0} (trimmedSize file newsize) := by
  constructor
  · intro q hq hlt
    exact zero_of_trimmedSize_le hq hlt
  · intro n hn
    by_contra hlt
    induction newsize with
    | zero => exact hlt n.zero_le
    | succ newsize ih =>
      rw [trimmedSize] at hlt
      split_ifs at hlt with hlast
      · exact ih (fun q hq hlt => hn q hq (by omega)) hlt
      · exact hlast (hn newsize (by omega) newsize.lt_succ_self)

namespace ElfFile
variable (file : ElfFile)

theorem four_le_trimmedSize {newsize : ℕ} (h : 4 ≤ newsize) :
    4 ≤ trimmedSize file.bytes newsize := by
  by_contra hlt
  have hzero : file.bytes[3]? = some 0 :=
    zero_of_trimmedSize_le (n := newsize) (by omega) (by omega)
  have hfour : (file.bytes.take 4)[3]? = file.bytes[3]? := List.getElem?_take_of_lt (by decide)
  rw [file.signature, hzero] at hfour
  cases hfour

/-- `truncatezeros` returns on every file with an ELF signature. -/
theorem truncatezeros_result (pos : ℕ) {newsize : ℕ} (h : 4 ≤ newsize) :
    (newsize ≤ file.bytes.length → ∃ n,
      truncatezerosResult newsize ⟨file.bytes, pos⟩ = some (true, n) ∧
        IsLeast {n | ∀ q, n ≤ q → q < newsize → file.bytes[q]? = some 0} n) ∧
    (file.bytes.length < newsize →
      truncatezerosResult newsize ⟨file.bytes, pos⟩ = some (false, newsize)) := by
  have hfour := file.four_le_trimmedSize h
  constructor
  · intro hfits
    have hne : trimmedSize file.bytes newsize ≠ 0 := by omega
    obtain ⟨pos', hloop⟩ : ∃ pos', truncatezerosLoop (newsize + 1) newsize ⟨file.bytes, pos⟩ =
        .ok (trimmedSize file.bytes newsize) ⟨file.bytes, pos'⟩ :=
      truncatezerosLoop_total newsize.lt_succ_self hfits file.offsets hfour
    refine ⟨trimmedSize file.bytes newsize, ?_, isLeast_trimmedSize _ _⟩
    unfold truncatezerosResult truncatezeros
    rw [bind_of_ok hloop, if_neg hne]
    rfl
  · intro hshort
    obtain ⟨msgs, fd', hloop⟩ : ∃ msgs fd',
        truncatezerosLoop (newsize + 1) newsize ⟨file.bytes, pos⟩ = .error (.failed msgs) fd' :=
      truncatezerosLoop_short newsize hshort
    unfold truncatezerosResult truncatezeros
    rw [bind_of_error hloop]

/-- A signature and two zeros. -/
def padded : ElfFile where
  bytes := [0x7f, 0x45, 0x4c, 0x46, 0, 0]
  offsets := by decide
  signature := rfl

theorem padded_truncatezeros_result :
    truncatezerosResult 6 ⟨padded.bytes, 0⟩ = some (true, 4) ∧
      truncatezerosResult 7 ⟨padded.bytes, 0⟩ = some (false, 7) := by
  obtain ⟨n, hresult, hleast⟩ := (padded.truncatezeros_result 0 (by decide : 4 ≤ 6)).1 (by decide)
  have hn : n = 4 := hleast.unique (isLeast_trimmedSize padded.bytes 6)
  exact ⟨hn ▸ hresult, (padded.truncatezeros_result 0 (by decide : 4 ≤ 7)).2 (by decide)⟩

end ElfFile

end Grasshopper.Sstrip
