import Grasshopper.Sstrip.Pipeline

/-! # What a successful run of the pipeline has done

Every function that returns has read certain parts of the file, and only `commitchanges` changes it.
-/

namespace Grasshopper.Sstrip

open Bytes

section Calls
variable {α β : Type} {fd fd' : Fd}

theorem bind_ok {x : Strip α} {f : α → Strip β} {b : β} :
    (x >>= f) fd = .ok b fd' ↔ ∃ a fd₁, x fd = .ok a fd₁ ∧ f a fd₁ = .ok b fd' := by
  change EStateM.bind x f fd = _ ↔ _
  unfold EStateM.bind
  cases x fd with
  | ok a fd₁ => simp
  | error e fd₁ => simp

theorem bind_of_ok {x : Strip α} {f : α → Strip β} {a : α} {fd₁ : Fd} (h : x fd = .ok a fd₁) :
    (x >>= f) fd = f a fd₁ := by
  change EStateM.bind x f fd = _
  rw [EStateM.bind, h]

theorem bind_of_error {x : Strip α} {f : α → Strip β} {e : Failure} {fd₁ : Fd}
    (h : x fd = .error e fd₁) : (x >>= f) fd = .error e fd₁ := by
  change EStateM.bind x f fd = _
  rw [EStateM.bind, h]

theorem pure_ok {a b : α} : (pure a : Strip α) fd = .ok b fd' ↔ b = a ∧ fd' = fd := by
  change EStateM.Result.ok a fd = _ ↔ _
  simp [eq_comm]

theorem err_ok {msg : String} {b : α} : ¬(err msg : Strip α) fd = .ok b fd' := by
  intro h
  cases h

theorem warning_ok {msg : String} {b : α} : ¬(warning msg : Strip α) fd = .ok b fd' := by
  intro h
  cases h

/-- What follows a check runs only if the check does not fail. -/
theorem check_ok {p : Prop} [Decidable p] {msg : String} {k : α → Strip β} {x : Strip β} {b : β} :
    (if p then err msg >>= k else x) fd = .ok b fd' ↔ ¬p ∧ x fd = .ok b fd' := by
  split_ifs with hp
  · simp only [hp, not_true_eq_false, false_and, iff_false, bind_ok, not_exists, not_and]
    exact fun a fd₁ h => absurd h err_ok
  · simp [hp]

theorem check_warning_ok {p : Prop} [Decidable p] {msg : String} {k : α → Strip β}
    {x : Strip β} {b : β} :
    (if p then warning msg >>= k else x) fd = .ok b fd' ↔ ¬p ∧ x fd = .ok b fd' := by
  split_ifs with hp
  · simp only [hp, not_true_eq_false, false_and, iff_false, bind_ok, not_exists, not_and]
    exact fun a fd₁ h => absurd h warning_ok
  · simp [hp]

theorem read_ok {n : ℕ} {bytes : List UInt8} :
    read n fd = .ok bytes fd' ↔
      bytes = slice fd.contents fd.pos n ∧ fd' = { fd with pos := fd.pos + bytes.length } := by
  unfold read
  constructor
  · intro h
    cases h
    exact ⟨rfl, rfl⟩
  · rintro ⟨rfl, rfl⟩
    rfl

theorem lseek_ok {off : ℕ} {b : Bool} (h : lseek off fd = .ok b fd') (hb : b = true) :
    off < 2 ^ 63 ∧ fd' = { fd with pos := off } := by
  unfold lseek at h
  split_ifs at h with hoff
  · cases h
    exact ⟨hoff, rfl⟩
  · cases h
    cases hb

/-- Writing inside the file only changes bytes. -/
theorem write_ok {bytes : List UInt8} {u : Unit} (h : write bytes fd = .ok u fd')
    (hin : fd.pos + bytes.length ≤ fd.contents.length) :
    fd' = ⟨overwrite fd.contents fd.pos bytes, fd.pos + bytes.length⟩ := by
  unfold write at h
  cases h
  rw [Nat.sub_eq_zero_of_le hin, List.replicate_zero, List.append_nil]

theorem ftruncate_ok {n : ℕ} {b : Bool} (h : ftruncate n fd = .ok b fd') (hb : b = true)
    (hin : n ≤ fd.contents.length) : fd' = { fd with contents := fd.contents.take n } := by
  unfold ftruncate at h
  split_ifs at h
  · cases h
    rw [Nat.sub_eq_zero_of_le hin, List.replicate_zero, List.append_nil]
  · cases h
    cases hb

end Calls

/-! ## The headers -/

section Headers
variable {host : Order} {file : List UInt8} {fd' : Fd}

theorem readelfheaderident_ok {ident : List UInt8} {rev : Bool}
    (h : readelfheaderident host ⟨file, 0⟩ = .ok (ident, rev) fd') :
    ident = slice file 0 16 ∧ ident.length = 16 ∧ ident.take 4 = [0x7f, 0x45, 0x4c, 0x46] ∧
      fileOrder host rev = orderOf file ∧ fd' = ⟨file, 16⟩ := by
  unfold readelfheaderident at h
  obtain ⟨bytes, fd₁, hread, h⟩ := bind_ok.mp h
  obtain ⟨hbytes, rfl⟩ := read_ok.mp hread
  simp only [check_ok] at h
  obtain ⟨hlen, hmagic, h⟩ := h
  have hlen := not_not.mp hlen
  have hdata : bytes[5]? = file[5]? := by
    rw [hbytes, getElem?_slice]
    simp
  unfold orderOf
  rw [← hdata]
  split_ifs at h with h1 h2
  · obtain ⟨hp, rfl⟩ := pure_ok.mp h
    obtain ⟨rfl, rfl⟩ := Prod.mk.inj hp
    refine ⟨hbytes, hlen, not_not.mp hmagic, ?_, by rw [hlen]⟩
    rw [h1]
    cases host <;> rfl
  · obtain ⟨hp, rfl⟩ := pure_ok.mp h
    obtain ⟨rfl, rfl⟩ := Prod.mk.inj hp
    refine ⟨hbytes, hlen, not_not.mp hmagic, ?_, by rw [hlen]⟩
    rw [if_pos h2]
    cases host <;> rfl
  · exact absurd h err_ok

variable {c : ElfClass} {rev : Bool}

theorem readelfheader_ok {ident : List UInt8} {ehdr : Ehdr c}
    (h : readelfheader host c rev ident ⟨file, 16⟩ = .ok ehdr fd')
    (hident : ident = slice file 0 16) (hlen : ident.length = 16) :
    ehdr.bytes = slice file 0 c.ehdrSize ∧ c.ehdrSize ≤ file.length ∧
      fd' = ⟨file, c.ehdrSize⟩ := by
  have hsize : 16 ≤ c.ehdrSize := by cases c <;> decide
  unfold readelfheader at h
  obtain ⟨rest, fd₁, hread, h⟩ := bind_ok.mp h
  obtain ⟨hrest, rfl⟩ := read_ok.mp hread
  cases hr : Record.ofBytes? c.ehdrSize (ident ++ rest) with
  | none => simp only [hr, err_ok] at h
  | some r =>
    simp only [hr, check_ok] at h
    obtain ⟨-, -, -, h⟩ := h
    obtain ⟨rfl, rfl⟩ := pure_ok.mp h
    have hbytes := Record.ofBytes?_eq_some.mp hr
    have happ : ident ++ rest = slice file 0 c.ehdrSize := by
      rw [hident, hrest]
      simp only [slice, List.drop_zero]
      rw [← List.take_add, Nat.add_sub_cancel' hsize]
    have hrlen : rest.length = c.ehdrSize - 16 := by
      have h1 := ehdr.length_eq
      rw [hbytes, List.length_append, hlen] at h1
      omega
    have hall : (slice file 0 c.ehdrSize).length = c.ehdrSize := by
      rw [← happ, List.length_append, hlen, hrlen]
      omega
    refine ⟨hbytes.trans happ, ?_, ?_⟩
    · simp only [slice, List.drop_zero, List.length_take] at hall
      omega
    · simp only [hrlen, Nat.add_sub_cancel' hsize]

theorem readphdrtable_ok {ehdr : Ehdr c} {phdrs : List (Phdr c)} {pos : ℕ}
    (h : readphdrtable host c rev ehdr ⟨file, pos⟩ = .ok phdrs fd') :
    phdrs.length = eget host rev c.ePhnum ehdr ∧
      (∀ i phdr, phdrs[i]? = some phdr →
        phdr.bytes = slice file (pos + i * c.phdrSize) c.phdrSize) ∧
      fd'.contents = file := by
  unfold readphdrtable at h
  obtain ⟨-, h⟩ := check_ok.mp h
  obtain ⟨bytes, fd₁, hread, h⟩ := bind_ok.mp h
  obtain ⟨hbytes, rfl⟩ := read_ok.mp hread
  cases hrs : Record.parse c.phdrSize (eget host rev c.ePhnum ehdr) bytes with
  | none => simp only [hrs, err_ok] at h
  | some rs =>
    simp only [hrs] at h
    obtain ⟨rfl, rfl⟩ := pure_ok.mp h
    have hlen := (Record.parse_eq_some hrs).1
    refine ⟨hlen, fun i phdr hi => ?_, rfl⟩
    have hin : i < eget host rev c.ePhnum ehdr := hlen ▸ (List.getElem?_eq_some_iff.mp hi).1
    have hle : i * c.phdrSize + c.phdrSize ≤ eget host rev c.ePhnum ehdr * c.phdrSize := by
      rw [← Nat.succ_mul]
      exact Nat.mul_le_mul_right _ hin
    rw [Record.slice_of_parse hrs hi, hbytes, slice_slice _ hle]

end Headers

end Grasshopper.Sstrip
