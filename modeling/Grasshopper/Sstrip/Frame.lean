import Grasshopper.Sstrip.Stripped

/-! # The bytes that `sstrip` changes

The program header table is written to `e_phoff`, but was read from where the ELF header ends. The
rest of the file stays as it is, and so does the table if the two places agree.
-/

namespace Grasshopper.Sstrip

open Bytes

/-- The field of a record that starts at `base` has the byte at `q`. -/
def hasAt {n : ℕ} (f : Field n) (base q : ℕ) : Prop := base + f.off ≤ q ∧ q < base + f.off + f.size

instance {n : ℕ} (f : Field n) (base q : ℕ) : Decidable (hasAt f base q) :=
  inferInstanceAs (Decidable (_ ∧ _))

/-- The bytes of the fields that `sstrip` changes: the references to the section header table, and
the places and sizes of the segments. -/
def Announced (file : List UInt8) (q : ℕ) : Prop :=
  (∃ f ∈ (classOf file).sectionFields, f.Has q) ∨
    ∃ i < phnum file, hasAt (classOf file).pOffset (phdrStart file i) q ∨
      hasAt (classOf file).pFilesz (phdrStart file i) q

instance (file : List UInt8) (q : ℕ) : Decidable (Announced file q) :=
  inferInstanceAs (Decidable (_ ∨ _))

/-- The new file is the old one up to its length, apart from the announced fields. -/
def TouchesOnly (file file' : List UInt8) : Prop :=
  file'.length ≤ file.length ∧ ∀ q < file'.length, ¬Announced file q → file'[q]? = file[q]?

section Entries
variable {host : Order} {c : ElfClass} {rev : Bool}

/-- `modifyheaders` changes only the two fields of a program header. -/
theorem getElem?_modifyPhdrs (newsize : ℕ) (phdrs : List (Phdr c)) (i : ℕ) {r : ℕ}
    (ho : ¬c.pOffset.Has r) (hf : ¬c.pFilesz.Has r) :
    (modifyPhdrs host c rev newsize phdrs)[i]?.bind (·.bytes[r]?) =
      phdrs[i]?.bind (·.bytes[r]?) := by
  have hkept (v w : ℕ) (phdr : Phdr c) : (eset host rev c.pFilesz v
      (eset host rev c.pOffset w phdr)).bytes[r]? = phdr.bytes[r]? := by
    rw [eset_eq, eset_eq, Field.getElem?_store _ _ _ _ hf, Field.getElem?_store _ _ _ _ ho]
  have hkept' (v : ℕ) (phdr : Phdr c) :
      (eset host rev c.pFilesz v phdr).bytes[r]? = phdr.bytes[r]? := by
    rw [eset_eq, Field.getElem?_store _ _ _ _ hf]
  induction phdrs generalizing newsize i with
  | nil => rfl
  | cons phdr phdrs ih =>
    unfold modifyPhdrs
    cases i with
    | zero => split_ifs <;> simp [hkept, hkept']
    | succ i => split_ifs <;> simpa using ih _ i

end Entries

section Stripped
variable {host : Order} {rev : Bool} {file file' : List UInt8} {ehdr : Ehdr (classOf file)}
  {phdrs : List (Phdr (classOf file))}

theorem phdrSize_pos (c : ElfClass) : 0 < c.phdrSize := by cases c <;> decide

theorem phdrStart_eq (file : List UInt8) (i : ℕ) :
    phdrStart file i = phdrStart file 0 + i * (classOf file).phdrSize := by
  simp [phdrStart]

theorem Stripped.table_lt (h : Stripped host rev file file' ehdr phdrs) :
    phdrStart file (phnum file) < 2 ^ 64 := by
  have hoff := h.phoff_lt
  have hnum := eget_ehdr h.order h.header ElfClass.ePhnum
  have htable := Sstrip.table_lt host rev ehdr
  rw [hnum] at htable
  rw [phdrStart]
  unfold phnum
  omega

theorem Stripped.table_le (h : Stripped host rev file file' ehdr phdrs) :
    phdrStart file (phnum file) ≤ file.length := by
  have htable := (table_le_getmemorysize host rev ehdr phdrs).trans h.size
  rw [eget_ehdr h.order h.header ElfClass.ePhoff,
    eget_ehdr h.order h.header ElfClass.ePhnum] at htable
  exact (ulong_of_lt h.table_lt).symm.le.trans htable

theorem Stripped.length_modifyEhdr (h : Stripped host rev file file' ehdr phdrs) (newsize : ℕ) :
    (overwrite file 0 (modifyEhdr host (classOf file) rev newsize ehdr).bytes).length =
      file.length := by
  have hlen := (modifyEhdr host (classOf file) rev newsize ehdr).length_eq
  have hehdr := h.fits
  exact length_overwrite (by omega)

theorem Stripped.length (h : Stripped host rev file file' ehdr phdrs) :
    file'.length = max (trimmedSize file (getmemorysize host (classOf file) rev ehdr phdrs))
      (phdrStart file (phnum file)) := by
  have htable := h.table_le
  have htrim := (trimmedSize_le file _).trans h.size
  rw [phdrStart_eq file (phnum file)] at htable
  rw [h.result, List.length_take, length_overwrite, h.length_modifyEhdr,
    phdrStart_eq file (phnum file)]
  · omega
  · rw [Record.length_flatten, length_modifyPhdrs, h.count, h.length_modifyEhdr]
    exact htable

/-- The bytes of the new table are those of its entries. -/
theorem Stripped.getElem?_table (h : Stripped host rev file file' ehdr phdrs) {i r : ℕ}
    (hi : i < phnum file) (hr : r < (classOf file).phdrSize) :
    file'[phdrStart file i + r]? = (modifyPhdrs host (classOf file) rev
      (trimmedSize file (getmemorysize host (classOf file) rev ehdr phdrs)) phdrs)[i]?.bind
        (·.bytes[r]?) := by
  have htable := h.table_le
  have hmul : (i + 1) * (classOf file).phdrSize ≤ phnum file * (classOf file).phdrSize :=
    Nat.mul_le_mul_right _ hi
  rw [Nat.succ_mul] at hmul
  have hflat (newsize : ℕ) : (Record.flatten (modifyPhdrs host (classOf file) rev newsize
      phdrs)).length = phnum file * (classOf file).phdrSize := by
    rw [Record.length_flatten, length_modifyPhdrs, h.count]
  rw [phdrStart_eq file (phnum file)] at htable
  rw [h.result, List.getElem?_take_of_lt (by
    rw [phdrStart_eq file i, phdrStart_eq file (phnum file)]; omega),
    getElem?_overwrite (by rw [hflat, h.length_modifyEhdr]; exact htable), hflat, phdrStart_eq file i,
    if_pos (by omega), ← Record.getElem?_flatten _ _ hr]
  congr 1
  omega

/-- Outside the table only the references to the section header table change. -/
theorem Stripped.getElem?_outside (h : Stripped host rev file file' ehdr phdrs) {q : ℕ}
    (hq : q < file'.length)
    (hout : ¬(phdrStart file 0 ≤ q ∧ q < phdrStart file (phnum file)))
    (hsec : ∀ f ∈ (classOf file).sectionFields, ¬f.Has q) : file'[q]? = file[q]? := by
  have htable := h.table_le
  have hehdr := h.fits
  have hlen := (modifyEhdr host (classOf file) rev
    (trimmedSize file (getmemorysize host (classOf file) rev ehdr phdrs)) ehdr).length_eq
  have hflat (newsize : ℕ) : (Record.flatten (modifyPhdrs host (classOf file) rev newsize
      phdrs)).length = phnum file * (classOf file).phdrSize := by
    rw [Record.length_flatten, length_modifyPhdrs, h.count]
  rw [h.length] at hq
  rw [phdrStart_eq file (phnum file)] at htable hout
  rw [h.result, List.getElem?_take_of_lt hq,
    getElem?_overwrite (by rw [hflat, h.length_modifyEhdr]; exact htable), hflat, if_neg hout,
    getElem?_overwrite (by omega)]
  split_ifs with hhead
  · rw [Nat.sub_zero, getElem?_modifyEhdr _ _ hsec, h.header, getElem?_slice, if_pos (by omega),
      Nat.zero_add]
  · rfl

/-- The entry and the byte of it that stand at a place in the table. -/
theorem exists_table_position {q : ℕ} (hstart : phdrStart file 0 ≤ q)
    (hend : q < phdrStart file (phnum file)) :
    ∃ i r, i < phnum file ∧ r < (classOf file).phdrSize ∧ q = phdrStart file i + r := by
  have hpos := phdrSize_pos (classOf file)
  have hdiv := Nat.div_add_mod' (q - phdrStart file 0) (classOf file).phdrSize
  have hr := Nat.mod_lt (q - phdrStart file 0) hpos
  refine ⟨(q - phdrStart file 0) / (classOf file).phdrSize,
    (q - phdrStart file 0) % (classOf file).phdrSize, ?_, hr, ?_⟩
  · rw [phdrStart_eq file (phnum file)] at hend
    exact (Nat.div_lt_iff_lt_mul hpos).mpr (by omega)
  · rw [phdrStart_eq file]
    omega

/-- A byte of the new file: the table comes from behind the ELF header, and nothing else moves. -/
theorem Stripped.getElem? (h : Stripped host rev file file' ehdr phdrs) {q : ℕ}
    (hq : q < file'.length) (hann : ¬Announced file q) :
    file'[q]? = if phdrStart file 0 ≤ q ∧ q < phdrStart file (phnum file) then
      file[(classOf file).ehdrSize + (q - phdrStart file 0)]? else file[q]? := by
  split_ifs with hin
  · obtain ⟨i, r, hi, hr, rfl⟩ := exists_table_position hin.1 hin.2
    have hpart {f : Field (classOf file).phdrSize}
        (hf : ¬hasAt f (phdrStart file i) (phdrStart file i + r)) : ¬f.Has r := by
      unfold hasAt at hf
      unfold Field.Has
      omega
    have hout := not_or.mp fun hor => hann (.inr ⟨i, hi, hor⟩)
    obtain ⟨phdr, hphdr⟩ : ∃ phdr, phdrs[i]? = some phdr :=
      ⟨_, List.getElem?_eq_getElem (h.count ▸ hi)⟩
    rw [h.getElem?_table hi hr, getElem?_modifyPhdrs _ _ _ (hpart hout.1) (hpart hout.2), hphdr,
      Option.bind_some, h.entries i phdr hphdr, getElem?_slice, if_pos hr, phdrStart_eq file i]
    congr 1
    omega
  · exact h.getElem?_outside hq hin fun f hf hhas => hann (.inl ⟨f, hf, hhas⟩)

end Stripped

/-- `sstrip` touches only what it claims to exactly when the table at `e_phoff` has, outside the
fields it claims to touch, the bytes that follow the ELF header. -/
theorem strip_touchesOnly_iff (host : Order) (file file' : List UInt8)
    (h : stripFile host file = some file') :
    TouchesOnly file file' ↔
      ∀ q, phdrStart file 0 ≤ q → q < phdrStart file (phnum file) → ¬Announced file q →
        file[(classOf file).ehdrSize + (q - phdrStart file 0)]? = file[q]? := by
  obtain ⟨rev, ehdr, phdrs, hs⟩ := stripFile_ok h
  constructor
  · rintro ⟨-, hkept⟩ q hstart hend hann
    have hq : q < file'.length := by rw [hs.length]; omega
    have hbyte := hs.getElem? hq hann
    rw [if_pos ⟨hstart, hend⟩] at hbyte
    rw [← hbyte, hkept q hq hann]
  · intro hagree
    refine ⟨?_, fun q hq hann => ?_⟩
    · have htrim := (trimmedSize_le file _).trans hs.size
      have htable := hs.table_le
      rw [hs.length]
      omega
    · rw [hs.getElem? hq hann]
      split_ifs with hin
      · exact hagree q hin.1 hin.2 hann
      · rfl

/-- A file with a gap between its ELF header and its program header table. -/
def gapFile : List UInt8 :=
  [0x7f, 0x45, 0x4c, 0x46, 1, 1, 1, 0, 0, 0, 0, 0, 0, 0, 0, 0, 2, 0, 3, 0, 1, 0, 0, 0, 0, 0, 0, 0,
    56, 0, 0, 0, 0, 0, 0, 0, 0, 0, 0, 0, 52, 0, 32, 0, 1, 0, 0, 0, 0, 0, 0, 0] ++
  [0, 0, 0, 0] ++
  [1, 0, 0, 0, 0, 0, 0, 0, 0, 0, 0, 0, 0, 0, 0, 0, 88, 0, 0, 0, 88, 0, 0, 0, 5, 0, 0, 0, 1, 0, 0, 0]

/-- The type of its segment, in byte 56, is lost. -/
theorem strip_gapFile :
    ∃ file', stripFile .little gapFile = some file' ∧ ¬TouchesOnly gapFile file' := by
  have hok : (stripFile .little gapFile).isSome := by decide +kernel
  obtain ⟨file', h⟩ := Option.isSome_iff_exists.mp hok
  have hlost : (stripFile .little gapFile).bind (·[56]?) = some 0 := by decide +kernel
  rw [h, Option.bind_some] at hlost
  refine ⟨file', h, fun hkept => ?_⟩
  have hlen := (List.getElem?_eq_some_iff.mp hlost).1
  have hbyte := hkept.2 56 hlen (by decide +kernel)
  rw [hlost] at hbyte
  exact absurd hbyte (by decide)

/-- A file whose program header table follows its ELF header, and a section header table. -/
def packedFile : List UInt8 :=
  [0x7f, 0x45, 0x4c, 0x46, 1, 1, 1, 0, 0, 0, 0, 0, 0, 0, 0, 0, 2, 0, 3, 0, 1, 0, 0, 0, 0, 0, 0, 0,
    52, 0, 0, 0, 88, 0, 0, 0, 0, 0, 0, 0, 52, 0, 32, 0, 1, 0, 40, 0, 1, 0, 0, 0] ++
  [1, 0, 0, 0, 0, 0, 0, 0, 0, 0, 0, 0, 0, 0, 0, 0, 88, 0, 0, 0, 88, 0, 0, 0, 5, 0, 0, 0, 1, 0, 0, 0] ++
  [7, 7, 0, 0] ++ List.replicate 40 9

theorem strip_touchesOnly_packedFile :
    ∃ file', stripFile .little packedFile = some file' ∧ TouchesOnly packedFile file' := by
  have hok : (stripFile .little packedFile).isSome := by decide +kernel
  obtain ⟨file', h⟩ := Option.isSome_iff_exists.mp hok
  have hstart : phdrStart packedFile 0 = (classOf packedFile).ehdrSize := by decide +kernel
  refine ⟨file', h, (strip_touchesOnly_iff .little packedFile file' h).mpr fun q hq _ _ => ?_⟩
  rw [← hstart, Nat.add_sub_cancel' hq]

end Grasshopper.Sstrip
