import Mathlib.Data.Finset.Insert
import Mathlib.Data.Finset.Lattice.Basic
import Mathlib.Tactic.Common

/-! # The providers of symbols in `mklibs.py`

A pass of the reduction finds out which library provides which symbol, and which of them are used.
The order that `elems` lists a set in is not known, so it is an argument. What the tools say about
the files is a parameter.
-/

namespace Grasshopper.Mklibs

abbrev Text := List Char

/-- `s.elems()`: each element once, in some order. -/
structure Elems (α : Type) where
  list : List α
  nodup : list.Nodup

/-- What `find_lib` and `provided_symbols` return. -/
structure Tools where
  /-- There is no path where the source returns the empty one. -/
  findLib : Text → Option Text
  providedSymbols : Text → Elems Text

/-- The ways to leave a pass early. -/
inductive Failure where
  | libraryNotFound (library : Text)
  | noProvider (symbol : Text)
deriving DecidableEq

/-- The dictionaries of a pass. A library without an entry has the empty set. -/
structure Maps where
  librarySymbols : Text → Finset Text
  librarySymbolsUsed : Text → Finset Text
  symbolProvider : Text → Option Text
  usingCtorDtor : Bool

/-- `re.match("^libc[\.-]", library)`. -/
def isLibc : Text → Bool
  | 'l' :: 'i' :: 'b' :: 'c' :: c :: _ => c = '.' || c = '-'
  | _ => false

/-- `_init` -/
def initSymbol : Text := ['_', 'i', 'n', 'i', 't']

/-- `_fini` -/
def finiSymbol : Text := ['_', 'f', 'i', 'n', 'i']

def mainSymbol : Text := ['m', 'a', 'i', 'n']

namespace Maps

def empty : Maps where
  librarySymbols := fun _ => ∅
  librarySymbolsUsed := fun _ => ∅
  symbolProvider := fun _ => none
  usingCtorDtor := false

/-- The library gets empty sets. -/
def enter (library : Text) (m : Maps) : Maps :=
  { m with
    librarySymbols := Function.update m.librarySymbols library ∅
    librarySymbolsUsed := Function.update m.librarySymbolsUsed library ∅ }

/-- The library provides the symbol. -/
def claim (library symbol : Text) (m : Maps) : Maps :=
  { m with
    librarySymbols :=
      Function.update m.librarySymbols library (insert symbol (m.librarySymbols library))
    symbolProvider := Function.update m.symbolProvider symbol (some library) }

/-- The symbol is used from the library. -/
def use (library symbol : Text) (m : Maps) : Maps :=
  { m with
    librarySymbolsUsed :=
      Function.update m.librarySymbolsUsed library (insert symbol (m.librarySymbolsUsed library)) }

/-- The body of the loop over the symbols of a library. -/
def provide (library : Text) (m : Maps) (symbol : Text) : Maps :=
  if (m.symbolProvider symbol).isSome then
    -- in doubt, prefer symbols from libc
    if isLibc library then m.claim library symbol else m
  else m.claim library symbol

/-- The support for constructors and destructors: whether the symbol has a provider, not whether
the library has the symbol. -/
def fixup (library symbol : Text) (m : Maps) : Maps :=
  if (m.symbolProvider symbol).isSome then
    ({ m with usingCtorDtor := true }.claim library symbol).use library symbol
  else m

end Maps

section Pass
variable (t : Tools)

/-- The body of the loop over the libraries. -/
def addLibrary (m : Maps) (library : Text) : Except Failure Maps :=
  match t.findLib library with
  | none => .error (.libraryNotFound library)
  | some path =>
    .ok ((((t.providedSymbols path).list.foldl (Maps.provide library) (m.enter library)).fixup
      library initSymbol).fixup library finiSymbol)

/-- The body of the loop over the needed symbols. -/
def useNeeded (uclibc : Bool) (m : Maps) : Text × Bool → Except Failure Maps
  | (symbol, isWeak) =>
    match m.symbolProvider symbol with
    | none =>
      if isWeak = false ∧ (uclibc = false ∨ symbol ≠ mainSymbol) then .error (.noProvider symbol)
      else .ok m
    | some lib => .ok (m.use lib symbol)

/-- Who provides what, and what is used from whom. -/
def assign (uclibc : Bool) (libraries : Elems Text) (needed : Elems (Text × Bool)) :
    Except Failure Maps := do
  let m ← libraries.list.foldlM (addLibrary t) .empty
  needed.list.foldlM (useNeeded uclibc) m

/-- `joined_symbols`, from the elements of `library_symbols_used[library]`. -/
def joinedSymbols (used : Elems Text) : Text :=
  match used.list with
  | [] => []
  | symbols => ['-', 'u'] ++ [' ', '-', 'u'].intercalate symbols

end Pass

/-! ## What each step does -/

namespace Maps
variable (m : Maps) (library symbol : Text)

@[simp] theorem symbolProvider_enter : (m.enter library).symbolProvider = m.symbolProvider := rfl

@[simp] theorem symbolProvider_use : (m.use library symbol).symbolProvider = m.symbolProvider := rfl

@[simp] theorem used_claim :
    (m.claim library symbol).librarySymbolsUsed = m.librarySymbolsUsed := rfl

theorem used_enter (l : Text) :
    (m.enter library).librarySymbolsUsed l = if l = library then ∅ else m.librarySymbolsUsed l := by
  simp [enter, Function.update_apply]

theorem mem_used_use (l s : Text) :
    s ∈ (m.use library symbol).librarySymbolsUsed l ↔
      l = library ∧ s = symbol ∨ s ∈ m.librarySymbolsUsed l := by
  by_cases h : l = library
  · subst h
    simp [use]
  · simp [use, h]

theorem symbolProvider_claim (s : Text) :
    (m.claim library symbol).symbolProvider s =
      if s = symbol then some library else m.symbolProvider s := by
  simp [claim, Function.update_apply]

@[simp] theorem used_provide : (m.provide library symbol).librarySymbolsUsed =
    m.librarySymbolsUsed := by
  unfold provide
  split_ifs <;> simp

theorem symbolProvider_provide (s : Text) :
    (m.provide library symbol).symbolProvider s =
      if s = symbol ∧ (m.symbolProvider s = none ∨ isLibc library) then some library
      else m.symbolProvider s := by
  unfold provide
  by_cases hs : s = symbol
  · subst hs
    cases hprovider : m.symbolProvider s with
    | none => simp [symbolProvider_claim]
    | some l =>
      cases hlibc : isLibc library with
      | false => simp [hprovider]
      | true => simp [symbolProvider_claim]
  · simp only [hs, false_and, if_false]
    split_ifs <;> simp [symbolProvider_claim, hs]

/-- A loop over symbols takes those that have no provider, and all for a libc. -/
theorem symbolProvider_foldl (symbols : List Text) (m : Maps) (s : Text) :
    (symbols.foldl (provide library) m).symbolProvider s =
      if s ∈ symbols ∧ (m.symbolProvider s = none ∨ isLibc library) then some library
      else m.symbolProvider s := by
  induction symbols generalizing m with
  | nil => simp
  | cons symbol symbols ih =>
    rw [List.foldl_cons, ih, symbolProvider_provide]
    grind

@[simp] theorem used_foldl (symbols : List Text) (m : Maps) :
    (symbols.foldl (provide library) m).librarySymbolsUsed = m.librarySymbolsUsed := by
  induction symbols generalizing m with
  | nil => rfl
  | cons symbol symbols ih => rw [List.foldl_cons, ih, used_provide]

theorem symbolProvider_fixup (s : Text) :
    (m.fixup library symbol).symbolProvider s =
      if s = symbol ∧ (m.symbolProvider s).isSome then some library else m.symbolProvider s := by
  unfold fixup
  split_ifs with hsome hs hs
  · rw [symbolProvider_use, symbolProvider_claim, if_pos hs.1]
  · rw [symbolProvider_use, symbolProvider_claim, if_neg]
    rintro rfl
    exact hs ⟨rfl, hsome⟩
  · exact absurd (hs.1 ▸ hs.2) hsome
  · rfl

theorem mem_used_fixup (l s : Text) :
    s ∈ (m.fixup library symbol).librarySymbolsUsed l ↔
      l = library ∧ s = symbol ∧ (m.symbolProvider s).isSome ∨ s ∈ m.librarySymbolsUsed l := by
  unfold fixup
  split_ifs with hsome
  · rw [mem_used_use, used_claim]
    grind
  · grind

end Maps

/-! ## What is asked for -/

end Grasshopper.Mklibs
