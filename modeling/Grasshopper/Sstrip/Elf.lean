import Grasshopper.Library.Bytes

/-! # The structures of `elf.h` that `sstrip.c` uses

The two classes differ only in the sizes and the places of the fields, which is what the `CLASS`
argument of `HEADER_FUNCTIONS` stands for.
-/

namespace Grasshopper.Sstrip

open Bytes

/-- `ELFCLASS32` and `ELFCLASS64`. -/
inductive ElfClass where
  | class32 | class64
deriving DecidableEq

namespace ElfClass

/-- `sizeof(Elf32_Ehdr)` and `sizeof(Elf64_Ehdr)`. -/
def ehdrSize : ElfClass → ℕ
  | class32 => 52
  | class64 => 64

/-- `sizeof(Elf32_Phdr)` and `sizeof(Elf64_Phdr)`. -/
def phdrSize : ElfClass → ℕ
  | class32 => 32
  | class64 => 56

/-! ## The fields of the ELF header -/

def eType : (c : ElfClass) → Field c.ehdrSize
  | class32 => { off := 16, size := 2 }
  | class64 => { off := 16, size := 2 }

def ePhoff : (c : ElfClass) → Field c.ehdrSize
  | class32 => { off := 28, size := 4 }
  | class64 => { off := 32, size := 8 }

def eShoff : (c : ElfClass) → Field c.ehdrSize
  | class32 => { off := 32, size := 4 }
  | class64 => { off := 40, size := 8 }

def eEhsize : (c : ElfClass) → Field c.ehdrSize
  | class32 => { off := 40, size := 2 }
  | class64 => { off := 52, size := 2 }

def ePhentsize : (c : ElfClass) → Field c.ehdrSize
  | class32 => { off := 42, size := 2 }
  | class64 => { off := 54, size := 2 }

def ePhnum : (c : ElfClass) → Field c.ehdrSize
  | class32 => { off := 44, size := 2 }
  | class64 => { off := 56, size := 2 }

def eShentsize : (c : ElfClass) → Field c.ehdrSize
  | class32 => { off := 46, size := 2 }
  | class64 => { off := 58, size := 2 }

def eShnum : (c : ElfClass) → Field c.ehdrSize
  | class32 => { off := 48, size := 2 }
  | class64 => { off := 60, size := 2 }

def eShstrndx : (c : ElfClass) → Field c.ehdrSize
  | class32 => { off := 50, size := 2 }
  | class64 => { off := 62, size := 2 }

/-! ## The fields of a program header -/

def pType : (c : ElfClass) → Field c.phdrSize
  | class32 => { off := 0, size := 4 }
  | class64 => { off := 0, size := 4 }

def pOffset : (c : ElfClass) → Field c.phdrSize
  | class32 => { off := 4, size := 4 }
  | class64 => { off := 8, size := 8 }

def pFilesz : (c : ElfClass) → Field c.phdrSize
  | class32 => { off := 16, size := 4 }
  | class64 => { off := 32, size := 8 }

def pMemsz : (c : ElfClass) → Field c.phdrSize
  | class32 => { off := 20, size := 4 }
  | class64 => { off := 40, size := 8 }

/-- The fields that refer to the section header table. -/
def sectionFields (c : ElfClass) : List (Field c.ehdrSize) :=
  [c.eShoff, c.eShnum, c.eShentsize, c.eShstrndx]

/-- No field of the ELF header that is read later refers to the section header table. -/
theorem ePhoff_disjoint (c : ElfClass) : ∀ f ∈ c.sectionFields, f.Disjoint c.ePhoff := by
  cases c <;> decide

theorem ePhnum_disjoint (c : ElfClass) : ∀ f ∈ c.sectionFields, f.Disjoint c.ePhnum := by
  cases c <;> decide

theorem pFilesz_disjoint_pOffset (c : ElfClass) : c.pFilesz.Disjoint c.pOffset := by
  cases c <;> decide

end ElfClass

/-- An ELF header in memory. -/
abbrev Ehdr (c : ElfClass) := Record c.ehdrSize

/-- A program header in memory. -/
abbrev Phdr (c : ElfClass) := Record c.phdrSize

/-! ## `EGET` and `ESET`

What is loaded is a number of the machine `sstrip` runs on; `do_reverse_endian` tells that the file
has the other byte order. -/

section Macros
variable {n : ℕ} (host : Order) (doReverseEndian : Bool)

def eget (f : Field n) (r : Record n) : ℕ :=
  if doReverseEndian then bswap f.size (f.load host r) else f.load host r

def eset (f : Field n) (v : ℕ) (r : Record n) : Record n :=
  if doReverseEndian then f.store host (bswap f.size v) r else f.store host v r

/-- The byte order of the file. -/
def fileOrder : Order := if doReverseEndian then host.flip else host

theorem eget_eq (f : Field n) (r : Record n) :
    eget host doReverseEndian f r = f.load (fileOrder host doReverseEndian) r := by
  have hlen : (slice r.bytes f.off f.size).length = f.size :=
    length_slice (by have := f.bound; have := r.length_eq; omega)
  have h := bswap_load host (slice r.bytes f.off f.size)
  rw [hlen] at h
  cases doReverseEndian
  · rfl
  · exact h

theorem eset_eq (f : Field n) (v : ℕ) (r : Record n) :
    eset host doReverseEndian f v r = f.store (fileOrder host doReverseEndian) v r := by
  cases doReverseEndian
  · rfl
  · simp only [eset, fileOrder, if_true, Field.store, store_bswap]

theorem eget_lt (f : Field n) (r : Record n) : eget host doReverseEndian f r < 256 ^ f.size := by
  rw [eget_eq]
  exact f.load_lt _ r

theorem eget_eset (f : Field n) (v : ℕ) (r : Record n) :
    eget host doReverseEndian f (eset host doReverseEndian f v r) = v % 256 ^ f.size := by
  rw [eget_eq, eset_eq, Field.load_store]

theorem eget_eset_of_disjoint {f g : Field n} (h : f.Disjoint g) (v : ℕ) (r : Record n) :
    eget host doReverseEndian g (eset host doReverseEndian f v r) =
      eget host doReverseEndian g r := by
  rw [eget_eq, eget_eq, eset_eq, Field.load_store_of_disjoint h]

end Macros

/-! ## Files -/

/-- What the class byte of a file says. -/
def classOf (file : List UInt8) : ElfClass :=
  if file[4]? = some 2 then .class64 else .class32

/-- What the data encoding byte of a file says. -/
def orderOf (file : List UInt8) : Order := if file[5]? = some 2 then .big else .little

/-- A field of the ELF header of a file. -/
def ehdrField (f : (c : ElfClass) → Field c.ehdrSize) (file : List UInt8) : ℕ :=
  (f (classOf file)).loadAt (orderOf file) file 0

/-- Where the program header `i` of a file starts. -/
def phdrStart (file : List UInt8) (i : ℕ) : ℕ :=
  ehdrField ElfClass.ePhoff file + i * (classOf file).phdrSize

/-- A field of the program header `i` of a file. -/
def phdrField (f : (c : ElfClass) → Field c.phdrSize) (file : List UInt8) (i : ℕ) : ℕ :=
  (f (classOf file)).loadAt (orderOf file) file (phdrStart file i)

/-- The number of program headers of a file. -/
def phnum (file : List UInt8) : ℕ := ehdrField ElfClass.ePhnum file

end Grasshopper.Sstrip
