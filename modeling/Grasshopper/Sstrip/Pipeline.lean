import Grasshopper.Sstrip.Elf

/-! # The per-file pipeline of `sstrip.c`

The state is the open file: its bytes, and the position of the descriptor. Reading stops at the end
of the file, and is otherwise taken to succeed, as writing is; `unsigned long` and `off_t` have 64
bits. What is left of a failed call is what it prints.
-/

namespace Grasshopper.Sstrip

open Bytes

/-- An open file. -/
structure Fd where
  contents : List UInt8
  pos : ℕ

/-- How the pipeline fails: with the messages it prints, or by not returning at all. -/
inductive Failure where
  | failed (errmsgs : List String)
  | diverges

abbrev Strip := EStateM Failure Fd

def err {α : Type} (errmsg : String) : Strip α := throw (.failed [errmsg])

/-- `unsigned long` arithmetic. -/
def ulong (n : ℕ) : ℕ := n % 2 ^ 64

/-! ## System calls -/

/-- `read`: at most `n` bytes from the position on. -/
def read (n : ℕ) : Strip (List UInt8) := fun fd =>
  let bytes := slice fd.contents fd.pos n
  .ok bytes { fd with pos := fd.pos + bytes.length }

/-- `lseek` from the start of the file; an offset that is negative as an `off_t` is refused. -/
def lseek (off : ℕ) : Strip Bool := fun fd =>
  if off < 2 ^ 63 then .ok true { fd with pos := off } else .ok false fd

/-- `write` of all bytes, over what is there and past the end. -/
def write (bytes : List UInt8) : Strip Unit := fun fd =>
  let gap := List.replicate (fd.pos + bytes.length - fd.contents.length) 0
  .ok () { contents := overwrite (fd.contents ++ gap) fd.pos bytes, pos := fd.pos + bytes.length }

def ftruncate (length : ℕ) : Strip Bool := fun fd =>
  if length < 2 ^ 63 then
    let gap := List.replicate (length - fd.contents.length) 0
    .ok true { fd with contents := fd.contents.take length ++ gap }
  else .ok false fd

/-! ## Reading the headers -/

section Pipeline
variable (host : Order)

/-- `readelfheaderident`: the identification bytes, and `do_reverse_endian`. -/
def readelfheaderident : Strip (List UInt8 × Bool) := do
  let ident ← read 16
  if ident.length ≠ 16 then
    err "missing or incomplete ELF header."
  if ident.take 4 ≠ [0x7f, 0x45, 0x4c, 0x46] then
    err "missing ELF signature."
  if ident[5]? = some 1 then
    return (ident, host ≠ .little)
  else if ident[5]? = some 2 then
    return (ident, host ≠ .big)
  else
    err "Unsupported endianness"

section Class
variable (c : ElfClass) (rev : Bool)

/-- `readelfheader`: the rest of the header, if it is one that can be handled. -/
def readelfheader (ident : List UInt8) : Strip (Ehdr c) := do
  let rest ← read (c.ehdrSize - 16)
  match Record.ofBytes? c.ehdrSize (ident ++ rest) with
  | none => err "missing or incomplete ELF header."
  | some ehdr =>
    if eget host rev c.eEhsize ehdr ≠ c.ehdrSize then
      err "unrecognized ELF header size."
    if eget host rev c.ePhentsize ehdr ≠ c.phdrSize then
      err "unrecognized program segment header size."
    -- `ET_EXEC` and `ET_DYN`
    if eget host rev c.eType ehdr ≠ 2 ∧ eget host rev c.eType ehdr ≠ 3 then
      err "not an executable or shared-object library."
    return ehdr

/-- `readphdrtable`, which reads on where `readelfheader` stopped. -/
def readphdrtable (ehdr : Ehdr c) : Strip (List (Phdr c)) := do
  if eget host rev c.ePhoff ehdr = 0 ∨ eget host rev c.ePhnum ehdr = 0 then
    err "ELF file has no program header table."
  let bytes ← read (eget host rev c.ePhnum ehdr * c.phdrSize)
  match Record.parse c.phdrSize (eget host rev c.ePhnum ehdr) bytes with
  | none => err "missing or incomplete program segment header table."
  | some phdrs => return phdrs

/-! ## The new size -/

/-- The end of the part of the file that a program header references. -/
def segmentEnd (phdr : Phdr c) : ℕ :=
  ulong (eget host rev c.pOffset phdr + eget host rev c.pFilesz phdr)

/-- One round of the loop of `getmemorysize`. -/
def extendSize (size : ℕ) (phdr : Phdr c) : ℕ :=
  if eget host rev c.pType phdr ≠ 0 ∧ segmentEnd host c rev phdr > size then
    segmentEnd host c rev phdr
  else size

def getmemorysize (ehdr : Ehdr c) (phdrs : List (Phdr c)) : ℕ :=
  let size := ulong (eget host rev c.ePhoff ehdr + eget host rev c.ePhnum ehdr * c.phdrSize)
  phdrs.foldl (extendSize host c rev) (if size < c.ehdrSize then c.ehdrSize else size)

end Class

/-- `while (n && !contents[--n]) --size;`, from the values of `n` and `size`. -/
def skipZeros (contents : List UInt8) : ℕ → ℕ → ℕ × ℕ
  | 0, size => (0, size)
  | n + 1, size => if contents[n]? = some 0 then skipZeros contents n (size - 1) else (n, size)

/-- The loop of `truncatezeros`, with fuel for its rounds. -/
def truncatezerosLoop : ℕ → ℕ → Strip ℕ
  | 0, _ => throw .diverges
  | fuel + 1, size => do
    let n := min 1024 size
    if !(← lseek (size - n)) then
      err "cannot seek in file."
    let contents ← read n
    if contents.length ≠ n then
      err "cannot read file contents"
    let (n, size) := skipZeros contents n size
    if size ≠ 0 ∧ n = 0 then truncatezerosLoop fuel size else return size

/-- `truncatezeros`: the new value of `*newsize`. -/
def truncatezeros (newsize : ℕ) : Strip ℕ := do
  let size ← truncatezerosLoop (newsize + 1) newsize
  if size = 0 then
    err "ELF file is completely blank!"
  return size

/-! ## The new headers -/

section Class
variable (c : ElfClass) (rev : Bool)

/-- The part of `modifyheaders` about the ELF header. -/
def modifyEhdr (newsize : ℕ) (ehdr : Ehdr c) : Ehdr c :=
  if eget host rev c.eShoff ehdr ≥ newsize then
    eset host rev c.eShstrndx 0 (eset host rev c.eShentsize 0
      (eset host rev c.eShnum 0 (eset host rev c.eShoff 0 ehdr)))
  else ehdr

/-- The loop of `modifyheaders`, from the value of `newsize`. -/
def modifyPhdrs : ℕ → List (Phdr c) → List (Phdr c)
  | _, [] => []
  | newsize, phdr :: phdrs =>
    if eget host rev c.pOffset phdr ≥ newsize then
      eset host rev c.pFilesz 0 (eset host rev c.pOffset newsize phdr) ::
        modifyPhdrs newsize phdrs
    else if segmentEnd host c rev phdr > newsize then
      -- the source computes the new `p_filesz` in `newsize` itself, which the next rounds see
      let newsize := newsize - eget host rev c.pOffset phdr
      eset host rev c.pFilesz newsize phdr :: modifyPhdrs newsize phdrs
    else phdr :: modifyPhdrs newsize phdrs

/-! ## The new file -/

/-- `goto warning` after a message. -/
def warning {α : Type} (errmsg : String) : Strip α :=
  throw (.failed [errmsg, "ELF file may have been corrupted!"])

def commitchanges (ehdr : Ehdr c) (phdrs : List (Phdr c)) (newsize : ℕ) : Strip Unit := do
  if !(← lseek 0) then
    err "could not rewind file"
  write ehdr.bytes
  if !(← lseek (eget host rev c.ePhoff ehdr)) then
    warning "could not seek in file."
  let n := eget host rev c.ePhnum ehdr * c.phdrSize
  write (Record.flatten phdrs)
  let tableEnd := ulong (eget host rev c.ePhoff ehdr + n)
  if !(← ftruncate (if newsize < tableEnd then tableEnd else newsize)) then
    warning "could not resize file"

/-- What `main` does for a file of one class once it is identified. -/
def stripClass (ident : List UInt8) : Strip Unit := do
  let ehdr ← readelfheader host c rev ident
  let phdrs ← readphdrtable host c rev ehdr
  let newsize ← truncatezeros (getmemorysize host c rev ehdr phdrs)
  commitchanges host c rev (modifyEhdr host c rev newsize ehdr)
    (modifyPhdrs host c rev newsize phdrs) newsize

end Class

/-- What `main` does for one file that it could open. -/
def strip : Strip Unit := do
  let (ident, rev) ← readelfheaderident host
  if ident[4]? = some 1 then stripClass host .class32 rev ident
  else if ident[4]? = some 2 then stripClass host .class64 rev ident
  else throw (.failed [])

/-- The new contents of a file that is processed without error. -/
def stripFile (file : List UInt8) : Option (List UInt8) :=
  match strip host ⟨file, 0⟩ with
  | .ok _ fd => some fd.contents
  | .error _ _ => none

end Pipeline

end Grasshopper.Sstrip
