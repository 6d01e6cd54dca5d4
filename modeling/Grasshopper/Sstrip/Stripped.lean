import Grasshopper.Sstrip.Truncate

/-! # The stripped file

What the passes of the pipeline come to for a file that is processed without error: the headers as
they were read, the new size, and the file that is left.
-/

namespace Grasshopper.Sstrip

open Bytes

section Class
variable {host : Order} {c : ElfClass} {rev : Bool}

theorem ulong_of_lt {n : ℕ} (h : n < 2 ^ 64) : ulong n = n := Nat.mod_eq_of_lt h

variable (host rev) in
theorem eget_phnum_lt (ehdr : Ehdr c) : eget host rev c.ePhnum ehdr < 2 ^ 16 := by
  rw [eget_eq]
  have h := c.ePhnum.load_lt (fileOrder host rev) ehdr
  have hsize : c.ePhnum.size = 2 := by cases c <;> rfl
  rw [hsize] at h
  omega

theorem phdrSize_le (c : ElfClass) : c.phdrSize ≤ 56 := by cases c <;> decide

variable (host rev) in
theorem table_lt (ehdr : Ehdr c) : eget host rev c.ePhnum ehdr * c.phdrSize < 2 ^ 22 :=
  calc eget host rev c.ePhnum ehdr * c.phdrSize
      ≤ eget host rev c.ePhnum ehdr * 56 := Nat.mul_le_mul_left _ (phdrSize_le c)
    _ < 2 ^ 22 := by have := eget_phnum_lt host rev ehdr; omega

/-! ## The memory size -/

theorem le_extendSize (size : ℕ) (phdr : Phdr c) : size ≤ extendSize host c rev size phdr := by
  unfold extendSize
  split_ifs with h
  · omega
  · exact le_rfl

theorem le_foldl_extendSize (phdrs : List (Phdr c)) (size : ℕ) :
    size ≤ phdrs.foldl (extendSize host c rev) size := by
  induction phdrs generalizing size with
  | nil => exact le_rfl
  | cons phdr phdrs ih => exact (le_extendSize size phdr).trans (ih _)

variable (host rev) in
theorem table_le_getmemorysize (ehdr : Ehdr c) (phdrs : List (Phdr c)) :
    ulong (eget host rev c.ePhoff ehdr + eget host rev c.ePhnum ehdr * c.phdrSize) ≤
      getmemorysize host c rev ehdr phdrs := by
  refine le_trans ?_ (le_foldl_extendSize phdrs _)
  split_ifs with h
  · exact h.le
  · exact le_rfl

/-! ## The ELF header -/

variable (host rev) in
theorem modifyEhdr_eq (newsize : ℕ) (ehdr : Ehdr c) :
    modifyEhdr host c rev newsize ehdr = ehdr ∨
      modifyEhdr host c rev newsize ehdr =
        c.eShstrndx.store (fileOrder host rev) 0 (c.eShentsize.store (fileOrder host rev) 0
          (c.eShnum.store (fileOrder host rev) 0 (c.eShoff.store (fileOrder host rev) 0 ehdr))) := by
  unfold modifyEhdr
  split_ifs
  · right; simp only [eset_eq]
  · exact .inl rfl

variable (host rev) in
/-- A field that is no reference to the section header table is kept. -/
theorem eget_modifyEhdr {g : Field c.ehdrSize} (hg : ∀ f ∈ c.sectionFields, f.Disjoint g)
    (newsize : ℕ) (ehdr : Ehdr c) :
    eget host rev g (modifyEhdr host c rev newsize ehdr) = eget host rev g ehdr := by
  simp only [ElfClass.sectionFields, List.mem_cons, List.not_mem_nil, or_false,
    forall_eq_or_imp, forall_eq] at hg
  obtain ⟨h1, h2, h3, h4⟩ := hg
  rcases modifyEhdr_eq host rev newsize ehdr with h | h
  · rw [h]
  · rw [h, eget_eq, eget_eq, Field.load_store_of_disjoint h4, Field.load_store_of_disjoint h3,
      Field.load_store_of_disjoint h2, Field.load_store_of_disjoint h1]

/-- Only bytes of the fields for the section header table change. -/
theorem getElem?_modifyEhdr (newsize : ℕ) (ehdr : Ehdr c) {q : ℕ}
    (hq : ∀ f ∈ c.sectionFields, ¬f.Has q) :
    (modifyEhdr host c rev newsize ehdr).bytes[q]? = ehdr.bytes[q]? := by
  simp only [ElfClass.sectionFields, List.mem_cons, List.not_mem_nil, or_false,
    forall_eq_or_imp, forall_eq] at hq
  obtain ⟨h1, h2, h3, h4⟩ := hq
  rcases modifyEhdr_eq host rev newsize ehdr with h | h
  · rw [h]
  · rw [h, Field.getElem?_store _ _ _ _ h4, Field.getElem?_store _ _ _ _ h3,
      Field.getElem?_store _ _ _ _ h2, Field.getElem?_store _ _ _ _ h1]

@[simp] theorem length_modifyPhdrs (newsize : ℕ) (phdrs : List (Phdr c)) :
    (modifyPhdrs host c rev newsize phdrs).length = phdrs.length := by
  induction phdrs generalizing newsize with
  | nil => rfl
  | cons phdr phdrs ih =>
    unfold modifyPhdrs
    split_ifs <;> simp [ih]

theorem commitchanges_ok {ehdr : Ehdr c} {phdrs : List (Phdr c)} {newsize : ℕ} {fd fd' : Fd}
    {u : Unit} (h : commitchanges host c rev ehdr phdrs newsize fd = .ok u fd')
    (hehdr : c.ehdrSize ≤ fd.contents.length)
    (hcount : phdrs.length = eget host rev c.ePhnum ehdr)
    (htable : ulong (eget host rev c.ePhoff ehdr + phdrs.length * c.phdrSize) ≤ fd.contents.length)
    (hsize : newsize ≤ fd.contents.length) :
    eget host rev c.ePhoff ehdr < 2 ^ 63 ∧
      fd'.contents = (overwrite (overwrite fd.contents 0 ehdr.bytes) (eget host rev c.ePhoff ehdr)
        (Record.flatten phdrs)).take
          (max newsize (eget host rev c.ePhoff ehdr + phdrs.length * c.phdrSize)) := by
  unfold commitchanges at h
  simp only [← hcount] at h
  obtain ⟨b₁, fd₁, hseek, h⟩ := bind_ok.mp h
  obtain ⟨hb₁, h⟩ := check_ok.mp h
  obtain ⟨-, rfl⟩ := lseek_ok hseek (by simpa using hb₁)
  obtain ⟨_, fd₂, hwrite, h⟩ := bind_ok.mp h
  have hfirst := ehdr.length_eq
  obtain rfl := write_ok hwrite (by dsimp only; omega)
  obtain ⟨b₂, fd₃, hseek, h⟩ := bind_ok.mp h
  obtain ⟨hb₂, h⟩ := check_warning_ok.mp h
  obtain ⟨hoff, rfl⟩ := lseek_ok hseek (by simpa using hb₂)
  have hlt : eget host rev c.ePhoff ehdr + phdrs.length * c.phdrSize < 2 ^ 64 := by
    have := table_lt host rev ehdr
    rw [hcount]
    omega
  rw [ulong_of_lt hlt] at htable h
  have hover : (overwrite fd.contents 0 ehdr.bytes).length = fd.contents.length :=
    length_overwrite (by omega)
  have hflat : (Record.flatten phdrs).length = phdrs.length * c.phdrSize :=
    Record.length_flatten phdrs
  obtain ⟨_, fd₄, hwrite, h⟩ := bind_ok.mp h
  obtain rfl := write_ok hwrite (by dsimp only; omega)
  obtain ⟨b₃, fd₅, htrunc, h⟩ := bind_ok.mp h
  have hb₃ : b₃ = true ∧ fd' = fd₅ := by
    split_ifs at h with hb
    · exact absurd h warning_ok
    · exact ⟨by simpa using hb, (pure_ok.mp h).2⟩
  have hnew : (if newsize < eget host rev c.ePhoff ehdr + phdrs.length * c.phdrSize then
      eget host rev c.ePhoff ehdr + phdrs.length * c.phdrSize else newsize) =
        max newsize (eget host rev c.ePhoff ehdr + phdrs.length * c.phdrSize) := by
    split_ifs <;> omega
  have hin : (overwrite (overwrite fd.contents 0 ehdr.bytes) (eget host rev c.ePhoff ehdr)
      (Record.flatten phdrs)).length = fd.contents.length := by
    rw [length_overwrite (by omega), hover]
  obtain rfl := ftruncate_ok htrunc hb₃.1 (by rw [hin, hnew]; omega)
  exact ⟨hoff, by rw [hb₃.2, hnew]⟩

end Class

/-! ## The whole pipeline -/

/-- A file that was processed without error, with its headers as they were read. -/
structure Stripped (host : Order) (rev : Bool) (file file' : List UInt8)
    (ehdr : Ehdr (classOf file)) (phdrs : List (Phdr (classOf file))) : Prop where
  order : fileOrder host rev = orderOf file
  fits : (classOf file).ehdrSize ≤ file.length
  header : ehdr.bytes = slice file 0 (classOf file).ehdrSize
  count : phdrs.length = phnum file
  entries : ∀ i phdr, phdrs[i]? = some phdr →
    phdr.bytes = slice file ((classOf file).ehdrSize + i * (classOf file).phdrSize)
      (classOf file).phdrSize
  phoff_lt : ehdrField ElfClass.ePhoff file < 2 ^ 63
  size : getmemorysize host (classOf file) rev ehdr phdrs ≤ file.length
  result : file' = (overwrite
      (overwrite file 0 (modifyEhdr host (classOf file) rev
        (trimmedSize file (getmemorysize host (classOf file) rev ehdr phdrs)) ehdr).bytes)
      (phdrStart file 0) (Record.flatten (modifyPhdrs host (classOf file) rev
        (trimmedSize file (getmemorysize host (classOf file) rev ehdr phdrs)) phdrs))).take
    (max (trimmedSize file (getmemorysize host (classOf file) rev ehdr phdrs))
      (phdrStart file (phnum file)))

section Pipeline
variable {host : Order} {rev : Bool} {file : List UInt8} {fd' : Fd}

/-- A header field, for the order in which the file was read. -/
theorem eget_ehdr (horder : fileOrder host rev = orderOf file) {ehdr : Ehdr (classOf file)}
    (hehdr : ehdr.bytes = slice file 0 (classOf file).ehdrSize)
    (f : (c : ElfClass) → Field c.ehdrSize) :
    eget host rev (f (classOf file)) ehdr = ehdrField f file := by
  rw [eget_eq, horder, Field.load_slice _ _ hehdr]
  rfl

theorem stripClass_ok {ident : List UInt8} {u : Unit}
    (h : stripClass host (classOf file) rev ident ⟨file, 16⟩ = .ok u fd')
    (hident : ident = slice file 0 16) (hlen : ident.length = 16)
    (horder : fileOrder host rev = orderOf file) :
    ∃ ehdr phdrs, Stripped host rev file fd'.contents ehdr phdrs := by
  unfold stripClass at h
  obtain ⟨ehdr, fd₁, hread, h⟩ := bind_ok.mp h
  obtain ⟨hehdr, hfits, rfl⟩ := readelfheader_ok hread hident hlen
  obtain ⟨phdrs, fd₂, hread, h⟩ := bind_ok.mp h
  obtain ⟨hcount, hentries, hfile₂⟩ := readphdrtable_ok hread
  obtain ⟨newsize, fd₃, htrunc, h⟩ := bind_ok.mp h
  obtain ⟨hsize, hnew, hfile₃⟩ := truncatezeros_ok htrunc
  rw [hfile₂] at hsize hnew hfile₃
  have hphoff := eget_modifyEhdr host rev (classOf file).ePhoff_disjoint
    newsize ehdr
  have hphnum := eget_modifyEhdr host rev (classOf file).ePhnum_disjoint
    newsize ehdr
  have htable := (table_le_getmemorysize host rev ehdr phdrs).trans hsize
  have hle : newsize ≤ file.length := hnew ▸ (trimmedSize_le _ _).trans hsize
  obtain ⟨hlt, hresult⟩ := commitchanges_ok h (by rw [hfile₃]; exact hfits)
    (by rw [length_modifyPhdrs, hcount, hphnum])
    (by rw [length_modifyPhdrs, hcount, hphoff, hfile₃]; exact htable)
    (by rw [hfile₃]; exact hle)
  have hoff := eget_ehdr horder hehdr ElfClass.ePhoff
  have hnum : phdrs.length = phnum file := hcount.trans (eget_ehdr horder hehdr ElfClass.ePhnum)
  rw [hphoff, hoff, hfile₃, length_modifyPhdrs, hnum, hnew] at hresult
  rw [hphoff, hoff] at hlt
  refine ⟨ehdr, phdrs, horder, hfits, hehdr, hnum, hentries, hlt, hsize, ?_⟩
  rw [hresult, phdrStart, phdrStart, Nat.zero_mul, Nat.add_zero]

theorem strip_ok {u : Unit} (h : strip host ⟨file, 0⟩ = .ok u fd') :
    ∃ rev ehdr phdrs, Stripped host rev file fd'.contents ehdr phdrs := by
  unfold strip at h
  obtain ⟨⟨ident, rev⟩, fd₁, hident, h⟩ := bind_ok.mp h
  obtain ⟨hbytes, hlen, -, horder, rfl⟩ := readelfheaderident_ok hident
  have hclass : ident[4]? = file[4]? := by
    rw [hbytes, getElem?_slice]
    simp
  refine ⟨rev, ?_⟩
  dsimp only at h
  split_ifs at h with h1 h2
  · have hc : classOf file = .class32 := by
      rw [classOf, ← hclass, h1]
      rfl
    rw [← hc] at h
    exact stripClass_ok h hbytes hlen horder
  · have hc : classOf file = .class64 := by
      rw [classOf, ← hclass, if_pos h2]
    rw [← hc] at h
    exact stripClass_ok h hbytes hlen horder
  · cases h

theorem stripFile_ok {file' : List UInt8} (h : stripFile host file = some file') :
    ∃ rev ehdr phdrs, Stripped host rev file file' ehdr phdrs := by
  unfold stripFile at h
  cases hs : strip host ⟨file, 0⟩ with
  | ok u fd =>
    rw [hs] at h
    obtain rfl := Option.some_inj.mp h
    exact strip_ok hs
  | error e fd => simp [hs] at h

end Pipeline

end Grasshopper.Sstrip
