import Grasshopper.Sstrip.Frame

/-! # The contents of the segments

Where the program header table follows the ELF header, the pipeline reads and writes the same
table. A segment keeps its contents unless the limit it is cut to, which `modifyheaders` lowers with
every segment it shortens, leaves out a byte that is not zero.
-/

namespace Grasshopper.Sstrip

open Bytes

/-! ## Segments of a file -/

/-- Byte `k` of what the segment `i` of a file is in memory. -/
def segmentByte (file : List UInt8) (i k : ℕ) : UInt8 :=
  if k < phdrField ElfClass.pFilesz file i then
    (file[phdrField ElfClass.pOffset file i + k]?).getD 0
  else 0

/-- The segment `i` has the same bytes in both files, apart from those that stand in the ELF header
or the program header table. -/
def SegmentKept (file file' : List UInt8) (i : ℕ) : Prop :=
  ∀ k < phdrField ElfClass.pMemsz file i,
    ¬(k < phdrField ElfClass.pFilesz file i ∧
      phdrField ElfClass.pOffset file i + k < phdrStart file (phnum file)) →
    segmentByte file' i k = segmentByte file i k

/-- The end of the segment `i` in the file, as a number of 64 bits. -/
def endOf (file : List UInt8) (i : ℕ) : ℕ :=
  ulong (phdrField ElfClass.pOffset file i + phdrField ElfClass.pFilesz file i)

/-- The part of a file up to the end of its last segment. -/
def memoryEnd (file : List UInt8) : ℕ :=
  ((List.range (phnum file)).map fun i =>
    if phdrField ElfClass.pType file i ≠ 0 then endOf file i else 0).foldl max
      (phdrStart file (phnum file))

/-- What the segment `i` is cut to: the trimmed size of the file, less the offsets of the segments
before it that were cut themselves. -/
def limitAt (file : List UInt8) : ℕ → ℕ
  | 0 => trimmedSize file (memoryEnd file)
  | i + 1 =>
    if phdrField ElfClass.pOffset file i < limitAt file i ∧ limitAt file i < endOf file i then
      limitAt file i - phdrField ElfClass.pOffset file i
    else limitAt file i

/-- Every byte of the segment `i` behind the program header table that is not zero lies below what
the segment is cut to; a segment whose end is beyond 64 bits is not cut, but ends with the file. -/
def WithinLimit (file : List UInt8) (i : ℕ) : Prop :=
  ∀ q, phdrField ElfClass.pOffset file i ≤ q →
    q < phdrField ElfClass.pOffset file i + phdrField ElfClass.pFilesz file i →
    phdrStart file (phnum file) ≤ q → (file[q]?).getD 0 ≠ 0 →
    q < limitAt file i ∨
      (phdrField ElfClass.pOffset file i < limitAt file i ∧
        2 ^ 64 ≤ phdrField ElfClass.pOffset file i + phdrField ElfClass.pFilesz file i ∧
        q < memoryEnd file)

/-! ## One program header -/

section Class
variable (host : Order) (c : ElfClass) (rev : Bool)

/-- A program header after its round of the loop of `modifyheaders`. -/
def newPhdr (newsize : ℕ) (phdr : Phdr c) : Phdr c :=
  if eget host rev c.pOffset phdr ≥ newsize then
    eset host rev c.pFilesz 0 (eset host rev c.pOffset newsize phdr)
  else if segmentEnd host c rev phdr > newsize then
    eset host rev c.pFilesz (newsize - eget host rev c.pOffset phdr) phdr
  else phdr

/-- The value of `newsize` after the round. -/
def nextSize (newsize : ℕ) (phdr : Phdr c) : ℕ :=
  if eget host rev c.pOffset phdr < newsize ∧ newsize < segmentEnd host c rev phdr then
    newsize - eget host rev c.pOffset phdr
  else newsize

variable {host c rev}

theorem modifyPhdrs_cons (newsize : ℕ) (phdr : Phdr c) (phdrs : List (Phdr c)) :
    modifyPhdrs host c rev newsize (phdr :: phdrs) =
      newPhdr host c rev newsize phdr ::
        modifyPhdrs host c rev (nextSize host c rev newsize phdr) phdrs := by
  rw [modifyPhdrs]
  by_cases h1 : eget host rev c.pOffset phdr ≥ newsize
  · rw [if_pos h1, newPhdr, if_pos h1, nextSize, if_neg (by omega)]
  · by_cases h2 : segmentEnd host c rev phdr > newsize
    · rw [if_neg h1, if_pos h2, newPhdr, if_neg h1, if_pos h2, nextSize,
        if_pos ⟨not_le.mp h1, h2⟩]
    · rw [if_neg h1, if_neg h2, newPhdr, if_neg h1, if_neg h2, nextSize, if_neg (by omega)]

theorem modifyPhdrs_getElem? (newsize : ℕ) (phdrs : List (Phdr c)) (i : ℕ) :
    (modifyPhdrs host c rev newsize phdrs)[i]? =
      phdrs[i]?.map (newPhdr host c rev ((phdrs.take i).foldl (nextSize host c rev) newsize)) := by
  induction phdrs generalizing newsize i with
  | nil => rfl
  | cons phdr phdrs ih =>
    rw [modifyPhdrs_cons]
    cases i with
    | zero => rfl
    | succ i => simpa using ih _ i

variable (host rev) in
/-- The place and the size of a segment after its round. -/
theorem newPhdr_fields (newsize : ℕ) (phdr : Phdr c) :
    let o := eget host rev c.pOffset phdr
    let f := eget host rev c.pFilesz phdr
    (newsize ≤ o → eget host rev c.pFilesz (newPhdr host c rev newsize phdr) = 0) ∧
      (o < newsize → newsize < ulong (o + f) →
        eget host rev c.pOffset (newPhdr host c rev newsize phdr) = o ∧
          eget host rev c.pFilesz (newPhdr host c rev newsize phdr) = newsize - o ∧
          newsize < o + f ∧ o + f < 2 ^ 64) ∧
      (o < newsize → ulong (o + f) ≤ newsize →
        eget host rev c.pOffset (newPhdr host c rev newsize phdr) = o ∧
          eget host rev c.pFilesz (newPhdr host c rev newsize phdr) = f) := by
  intro o f
  have ho : o < 2 ^ 64 :=
    (eget_lt host rev c.pOffset phdr).trans_le (by cases c <;> decide)
  have hf : f < 256 ^ c.pFilesz.size := eget_lt host rev c.pFilesz phdr
  have hf64 : f < 2 ^ 64 := hf.trans_le (by cases c <;> decide)
  have hend : segmentEnd host c rev phdr = ulong (o + f) := rfl
  refine ⟨fun h => ?_, fun h h' => ?_, fun h h' => ?_⟩
  · rw [newPhdr, if_pos h, eget_eset, Nat.zero_mod]
  · have hwrap : newsize < o + f ∧ o + f < 2 ^ 64 := by
      unfold ulong at h'
      have hle := Nat.mod_le (o + f) (2 ^ 64)
      refine ⟨by omega, ?_⟩
      by_contra hge
      have hsub : (o + f) % 2 ^ 64 = o + f - 2 ^ 64 := by
        rw [Nat.mod_eq_sub_mod (not_lt.mp hge), Nat.mod_eq_of_lt (by omega)]
      omega
    rw [newPhdr, if_neg (not_le.mpr h), hend, if_pos h',
      eget_eset_of_disjoint _ _ c.pFilesz_disjoint_pOffset, eget_eset]
    exact ⟨rfl, Nat.mod_eq_of_lt (by omega), hwrap⟩
  · rw [newPhdr, if_neg (not_le.mpr h), hend, if_neg (not_lt.mpr h')]
    exact ⟨rfl, rfl⟩

end Class

/-! ## Files whose table follows the ELF header -/

section Packed
variable {host : Order} {rev : Bool} {file file' : List UInt8} {ehdr : Ehdr (classOf file)}
  {phdrs : List (Phdr (classOf file))}

/-- The entries that were read are those of the table. -/
theorem Stripped.eget_phdr (h : Stripped host rev file file' ehdr phdrs)
    (hpacked : ehdrField ElfClass.ePhoff file = (classOf file).ehdrSize) {i : ℕ}
    {phdr : Phdr (classOf file)} (hi : phdrs[i]? = some phdr)
    (f : (c : ElfClass) → Field c.phdrSize) :
    eget host rev (f (classOf file)) phdr = phdrField f file i := by
  rw [eget_eq, h.order, Field.load_slice _ _ (h.entries i phdr hi), phdrField, phdrStart, hpacked]

theorem extendSize_eq {c : ElfClass} (size : ℕ) (phdr : Phdr c) :
    extendSize host c rev size phdr =
      max size (if eget host rev c.pType phdr ≠ 0 then segmentEnd host c rev phdr else 0) := by
  unfold extendSize
  split_ifs <;> omega

theorem Stripped.getmemorysize_eq (h : Stripped host rev file file' ehdr phdrs)
    (hpacked : ehdrField ElfClass.ePhoff file = (classOf file).ehdrSize) :
    getmemorysize host (classOf file) rev ehdr phdrs = memoryEnd file := by
  have hends : phdrs.map (fun phdr => if eget host rev (classOf file).pType phdr ≠ 0 then
      segmentEnd host (classOf file) rev phdr else 0) =
        (List.range (phnum file)).map fun i =>
          if phdrField ElfClass.pType file i ≠ 0 then endOf file i else 0 := by
    apply List.ext_getElem?
    intro i
    rw [List.getElem?_map, List.getElem?_map]
    cases hi : phdrs[i]? with
    | none =>
      have hle := h.count ▸ List.getElem?_eq_none_iff.mp hi
      rw [List.getElem?_eq_none (by simpa using hle)]
      rfl
    | some phdr =>
      have hlt : i < phnum file := h.count ▸ (List.getElem?_eq_some_iff.mp hi).1
      rw [List.getElem?_range hlt]
      simp only [Option.map_some, segmentEnd, endOf, h.eget_phdr hpacked hi]
  have hstart : ulong (eget host rev (classOf file).ePhoff ehdr +
      eget host rev (classOf file).ePhnum ehdr * (classOf file).phdrSize) =
        phdrStart file (phnum file) := by
    rw [eget_ehdr h.order h.header ElfClass.ePhoff, eget_ehdr h.order h.header ElfClass.ePhnum]
    exact ulong_of_lt h.table_lt
  have hsize : ¬phdrStart file (phnum file) < (classOf file).ehdrSize := by
    rw [phdrStart, hpacked]
    omega
  have hext : extendSize host (classOf file) rev = fun size phdr =>
      max size (if eget host rev (classOf file).pType phdr ≠ 0 then
        segmentEnd host (classOf file) rev phdr else 0) := by
    funext size phdr
    exact extendSize_eq size phdr
  rw [getmemorysize, hstart, if_neg hsize, hext, memoryEnd, ← hends, List.foldl_map]

/-- `newsize` before the round of the entry `i`. -/
theorem Stripped.limit_eq (h : Stripped host rev file file' ehdr phdrs)
    (hpacked : ehdrField ElfClass.ePhoff file = (classOf file).ehdrSize) {i : ℕ}
    (hi : i ≤ phnum file) :
    (phdrs.take i).foldl (nextSize host (classOf file) rev)
      (trimmedSize file (getmemorysize host (classOf file) rev ehdr phdrs)) = limitAt file i := by
  induction i with
  | zero => rw [h.getmemorysize_eq hpacked]; rfl
  | succ i ih =>
    obtain ⟨phdr, hphdr⟩ : ∃ phdr, phdrs[i]? = some phdr :=
      ⟨_, List.getElem?_eq_getElem (h.count ▸ hi)⟩
    rw [List.take_add_one, hphdr, List.foldl_append, ih (by omega)]
    have hround : nextSize host (classOf file) rev (limitAt file i) phdr =
        limitAt file (i + 1) := by
      rw [nextSize, segmentEnd, h.eget_phdr hpacked hphdr, h.eget_phdr hpacked hphdr]
      rfl
    exact hround

theorem limitAt_le (file : List UInt8) (i : ℕ) :
    limitAt file i ≤ trimmedSize file (memoryEnd file) := by
  induction i with
  | zero => exact le_rfl
  | succ i ih =>
    unfold limitAt
    split_ifs
    · omega
    · exact ih

/-- What follows the table is kept. -/
theorem Stripped.getElem?_behind (h : Stripped host rev file file' ehdr phdrs)
    (hpacked : ehdrField ElfClass.ePhoff file = (classOf file).ehdrSize) {q : ℕ}
    (hq : q < file'.length) (htable : phdrStart file (phnum file) ≤ q) :
    file'[q]? = file[q]? := by
  refine h.getElem?_outside hq (by omega) fun f _ hf => ?_
  have hbound := f.bound
  unfold Field.Has at hf
  rw [phdrStart, hpacked] at htable
  omega

/-- The part of the ELF header before the references to the section header table is kept. -/
theorem Stripped.getElem?_head (h : Stripped host rev file file' ehdr phdrs)
    (hpacked : ehdrField ElfClass.ePhoff file = (classOf file).ehdrSize) {q : ℕ}
    (hq : q < (classOf file).eShoff.off) : file'[q]? = file[q]? := by
  have hoff : ∀ f ∈ (classOf file).sectionFields, (classOf file).eShoff.off ≤ f.off := by
    cases classOf file <;> decide
  have hin := (classOf file).eShoff.bound
  refine h.getElem?_outside ?_ ?_ fun f hf hhas => ?_
  · rw [h.length, phdrStart, hpacked]
    omega
  · rw [phdrStart, hpacked]
    omega
  · have := hoff f hf
    unfold Field.Has at hhas
    omega

/-- The new file has its table at the same place, with entries of the same kind. -/
theorem Stripped.view (h : Stripped host rev file file' ehdr phdrs)
    (hpacked : ehdrField ElfClass.ePhoff file = (classOf file).ehdrSize) :
    classOf file' = classOf file ∧ orderOf file' = orderOf file ∧
      ehdrField ElfClass.ePhoff file' = ehdrField ElfClass.ePhoff file := by
  have h32 : 32 ≤ (classOf file).eShoff.off := by cases classOf file <;> decide
  have hclass : classOf file' = classOf file := by
    rw [classOf, h.getElem?_head hpacked (by omega), classOf]
  have horder : orderOf file' = orderOf file := by
    rw [orderOf, h.getElem?_head hpacked (by omega), orderOf]
  refine ⟨hclass, horder, ?_⟩
  have hfield : (classOf file).ePhoff.off + (classOf file).ePhoff.size ≤
      (classOf file).eShoff.off := by cases classOf file <;> decide
  rw [ehdrField, ehdrField, hclass, horder]
  exact Field.loadAt_congr _ _ fun q _ hq => h.getElem?_head hpacked (by omega)

/-- A field of a program header of the new file. -/
theorem Stripped.phdrField_new (h : Stripped host rev file file' ehdr phdrs)
    (hpacked : ehdrField ElfClass.ePhoff file = (classOf file).ehdrSize) {i : ℕ}
    {phdr : Phdr (classOf file)} (hi : phdrs[i]? = some phdr)
    (f : (c : ElfClass) → Field c.phdrSize) :
    phdrField f file' i = eget host rev (f (classOf file))
      (newPhdr host (classOf file) rev (limitAt file i) phdr) := by
  have hlt : i < phnum file := h.count ▸ (List.getElem?_eq_some_iff.mp hi).1
  obtain ⟨hclass, horder, hphoff⟩ := h.view hpacked
  have hbytes : (newPhdr host (classOf file) rev (limitAt file i) phdr).bytes =
      slice file' (phdrStart file i) (classOf file).phdrSize := by
    apply List.ext_getElem?
    intro r
    rw [getElem?_slice]
    split_ifs with hr
    · rw [h.getElem?_table hlt hr, modifyPhdrs_getElem?, hi, Option.map_some, Option.bind_some,
        h.limit_eq hpacked hlt.le]
    · exact List.getElem?_eq_none (by rw [Record.length_eq]; omega)
  rw [phdrField, phdrStart, hclass, horder, hphoff, eget_eq, h.order,
    Field.load_slice _ _ hbytes, phdrStart]

/-- Whether a byte of the segment `i` keeps its value, by what its program header becomes. -/
theorem Stripped.segmentByte_cases (h : Stripped host rev file file' ehdr phdrs)
    (hpacked : ehdrField ElfClass.ePhoff file = (classOf file).ehdrSize) {i : ℕ}
    (hi : i < phnum file) :
    let o := phdrField ElfClass.pOffset file i
    let f := phdrField ElfClass.pFilesz file i
    (limitAt file i ≤ o ∧ ∀ k, segmentByte file' i k = 0) ∨
      (o < limitAt file i ∧ limitAt file i < o + f ∧ o + f < 2 ^ 64 ∧ ∀ k, segmentByte file' i k =
        if o + k < limitAt file i then (file'[o + k]?).getD 0 else 0) ∨
      (o < limitAt file i ∧ (o + f ≤ limitAt file i ∨ 2 ^ 64 ≤ o + f) ∧
        ∀ k, segmentByte file' i k = if k < f then (file'[o + k]?).getD 0 else 0) := by
  intro o f
  obtain ⟨phdr, hphdr⟩ : ∃ phdr, phdrs[i]? = some phdr :=
    ⟨_, List.getElem?_eq_getElem (h.count ▸ hi)⟩
  have hfields := newPhdr_fields host rev (limitAt file i) phdr
  simp only [h.eget_phdr hpacked hphdr, ← h.phdrField_new hpacked hphdr] at hfields
  obtain ⟨hgone, hcut, hkept⟩ := hfields
  rcases le_or_gt (limitAt file i) o with ho | ho
  · refine .inl ⟨ho, fun k => ?_⟩
    rw [segmentByte, hgone ho]
    rfl
  rcases lt_or_ge (limitAt file i) (ulong (o + f)) with hend | hend
  · obtain ⟨hnew, hsize, hlt, hwrap⟩ := hcut ho hend
    refine .inr (.inl ⟨ho, hlt, hwrap, fun k => ?_⟩)
    rw [segmentByte, hnew, hsize]
    exact if_congr (by omega) rfl rfl
  · obtain ⟨hnew, hsize⟩ := hkept ho hend
    refine .inr (.inr ⟨ho, ?_, fun k => by rw [segmentByte, hnew, hsize]⟩)
    by_cases hwrap : 2 ^ 64 ≤ o + f
    · exact .inr hwrap
    · exact .inl (ulong_of_lt (not_le.mp hwrap) ▸ hend)

end Packed

/-- A segment keeps its contents exactly when its bytes that are not zero lie within the limit. -/
theorem strip_segmentKept_iff (host : Order) (file file' : List UInt8)
    (h : stripFile host file = some file')
    (hpacked : ehdrField ElfClass.ePhoff file = (classOf file).ehdrSize) (i : ℕ)
    (hi : i < phnum file)
    (hsize : phdrField ElfClass.pFilesz file i ≤ phdrField ElfClass.pMemsz file i) :
    SegmentKept file file' i ↔ WithinLimit file i := by
  obtain ⟨rev, ehdr, phdrs, hs⟩ := stripFile_ok h
  have hlen := hs.length
  rw [hs.getmemorysize_eq hpacked] at hlen
  have hlimit := limitAt_le file i
  have htrim := trimmedSize_le file (memoryEnd file)
  have hcases := hs.segmentByte_cases hpacked hi
  -- behind the table, the new file has the old bytes up to its end
  have hbyte {q : ℕ} (htable : phdrStart file (phnum file) ≤ q) :
      file'[q]? = if q < file'.length then file[q]? else none := by
    split_ifs with hq
    · exact hs.getElem?_behind hpacked hq htable
    · exact List.getElem?_eq_none (not_lt.mp hq)
  constructor
  · intro hkept q hoff hend htable hne
    have hk := hkept (q - phdrField ElfClass.pOffset file i) (by omega) (by omega)
    rw [segmentByte.eq_def file, if_pos (by omega), Nat.add_sub_cancel' hoff] at hk
    rcases hcases with ⟨_, hnew⟩ | ⟨_, _, _, hnew⟩ | ⟨ho, hwrap, hnew⟩
    · rw [hnew] at hk
      exact absurd hk.symm hne
    · rw [hnew, Nat.add_sub_cancel' hoff] at hk
      split_ifs at hk with hq
      · exact .inl hq
      · exact absurd hk.symm hne
    · rcases hwrap with hle | hwrap
      · exact .inl (by omega)
      · rw [hnew, if_pos (by omega), Nat.add_sub_cancel' hoff, hbyte htable] at hk
        split_ifs at hk with hq
        · exact .inr ⟨ho, hwrap, by omega⟩
        · exact absurd hk.symm hne
  · intro hwithin k hk hfile
    have hsame {q : ℕ} (hq : q < file'.length) (htable : phdrStart file (phnum file) ≤ q) :
        (file'[q]?).getD 0 = (file[q]?).getD 0 := by rw [hbyte htable, if_pos hq]
    have hzero {q : ℕ} (htable : phdrStart file (phnum file) ≤ q)
        (h0 : (file[q]?).getD 0 = 0) : (file'[q]?).getD 0 = 0 := by
      rw [hbyte htable]
      split_ifs
      · exact h0
      · rfl
    by_cases hkf : k < phdrField ElfClass.pFilesz file i
    · have htable : phdrStart file (phnum file) ≤ phdrField ElfClass.pOffset file i + k := by
        omega
      rw [segmentByte.eq_def file, if_pos hkf]
      by_cases h0 : (file[phdrField ElfClass.pOffset file i + k]?).getD 0 = 0
      · rw [h0]
        rcases hcases with ⟨_, hnew⟩ | ⟨_, _, _, hnew⟩ | ⟨_, _, hnew⟩
        · exact hnew k
        · rw [hnew]
          split_ifs
          · exact hzero htable h0
          · rfl
        · rw [hnew, if_pos hkf]
          exact hzero htable h0
      · have hreach := hwithin _ (Nat.le_add_right _ k) (by omega) htable h0
        rcases hcases with ⟨ho, _⟩ | ⟨_, _, hwrap, hnew⟩ | ⟨_, _, hnew⟩
        · omega
        · have hq : phdrField ElfClass.pOffset file i + k < limitAt file i := by omega
          rw [hnew, if_pos hq]
          exact hsame (by omega) htable
        · rw [hnew, if_pos hkf]
          rcases hreach with hq | ⟨-, -, hq⟩
          · exact hsame (by omega) htable
          · refine hsame ?_ htable
            by_contra hge
            have hz : file[phdrField ElfClass.pOffset file i + k]? = some 0 :=
              zero_of_trimmedSize_le (by omega) hq
            exact h0 (by rw [hz]; rfl)
    · rw [segmentByte.eq_def file, if_neg hkf]
      rcases hcases with ⟨_, hnew⟩ | ⟨_, hlt, _, hnew⟩ | ⟨_, _, hnew⟩
      · exact hnew k
      · rw [hnew, if_neg (by omega)]
      · rw [hnew, if_neg hkf]

theorem strip_segmentKept_packedFile :
    ∃ file', stripFile .little packedFile = some file' ∧ SegmentKept packedFile file' 0 := by
  have hok : (stripFile .little packedFile).isSome := by decide +kernel
  obtain ⟨file', h⟩ := Option.isSome_iff_exists.mp hok
  have hpacked : ehdrField ElfClass.ePhoff packedFile = (classOf packedFile).ehdrSize := by
    decide +kernel
  refine ⟨file', h, (strip_segmentKept_iff .little packedFile file' h hpacked 0
    (by decide +kernel) (by decide +kernel)).mpr fun q _ hend _ hne => .inl ?_⟩
  have hlimit : limitAt packedFile 0 = 86 := by decide +kernel
  have h88 : phdrField ElfClass.pOffset packedFile 0 + phdrField ElfClass.pFilesz packedFile 0 =
      88 := by decide +kernel
  have hzeros : packedFile[86]? = some 0 ∧ packedFile[87]? = some 0 := by decide
  by_contra hge
  obtain rfl | rfl : q = 86 ∨ q = 87 := by omega
  · exact hne (by rw [hzeros.1]; rfl)
  · exact hne (by rw [hzeros.2]; rfl)

/-- A file with two segments over the same byte, which a zero follows. -/
def overlapFile : List UInt8 :=
  [0x7f, 0x45, 0x4c, 0x46, 1, 1, 1, 0, 0, 0, 0, 0, 0, 0, 0, 0, 2, 0, 3, 0, 1, 0, 0, 0, 0, 0, 0, 0,
    52, 0, 0, 0, 0, 0, 0, 0, 0, 0, 0, 0, 52, 0, 32, 0, 2, 0, 0, 0, 0, 0, 0, 0] ++
  [1, 0, 0, 0, 1, 0, 0, 0, 0, 0, 0, 0, 0, 0, 0, 0, 117, 0, 0, 0, 117, 0, 0, 0, 5, 0, 0, 0,
    1, 0, 0, 0] ++
  [1, 0, 0, 0, 116, 0, 0, 0, 0, 0, 0, 0, 0, 0, 0, 0, 1, 0, 0, 0, 1, 0, 0, 0, 6, 0, 0, 0,
    1, 0, 0, 0] ++ [42, 0]

/-- The first segment is shortened, and the second one is then compared with what is left of the
size: its only byte is lost. -/
theorem strip_overlapFile :
    ∃ file', stripFile .little overlapFile = some file' ∧
      ehdrField ElfClass.ePhoff overlapFile = (classOf overlapFile).ehdrSize ∧
      1 < phnum overlapFile ∧ phdrField ElfClass.pType overlapFile 1 ≠ 0 ∧
      phdrField ElfClass.pFilesz overlapFile 1 ≤ phdrField ElfClass.pMemsz overlapFile 1 ∧
      ¬SegmentKept overlapFile file' 1 := by
  have hok : (stripFile .little overlapFile).isSome := by decide +kernel
  obtain ⟨file', h⟩ := Option.isSome_iff_exists.mp hok
  have hlost : (stripFile .little overlapFile).map (segmentByte · 1 0) = some 0 := by
    decide +kernel
  rw [h, Option.map_some] at hlost
  refine ⟨file', h, by decide +kernel, by decide +kernel, by decide +kernel, by decide +kernel,
    fun hkept => ?_⟩
  have hbyte := hkept 0 (by decide +kernel) (by decide +kernel)
  rw [Option.some_inj.mp hlost] at hbyte
  exact absurd hbyte (by decide +kernel)

end Grasshopper.Sstrip
