import Mathlib.Algebra.Group.Int.Defs
import Mathlib.Algebra.GroupWithZero.Nat
import Mathlib.Order.Lattice
import Mathlib.Order.MinMax
import Mathlib.Data.Fintype.Basic
import Mathlib.Tactic.Common

/-! # Tristate values, symbols and dependency expressions of `expr.h`

`E_AND` and `E_OR` are the minimum and the maximum of the order `no < mod < yes`.
An expression pointer that may be `NULL` is an `Option Expr`, and `NULL` is worth `yes`.
-/

namespace Grasshopper.Kconfig

/-- A C string: one `Char` for each byte, without the terminating NUL. -/
abbrev Text := List Char

inductive Tristate where
  | no | mod | yes
deriving DecidableEq, Repr, Inhabited

namespace Tristate

def rank : Tristate → ℕ
  | no => 0
  | mod => 1
  | yes => 2

theorem rank_injective : Function.Injective rank := by
  intro a b h
  cases a <;> cases b <;> first | rfl | simp [rank] at h

instance : LinearOrder Tristate := LinearOrder.lift' rank rank_injective

instance : Fintype Tristate where
  elems := {no, mod, yes}
  complete a := by cases a <;> decide

/-- `E_NOT`: the value `2 - dep`. -/
def eNot : Tristate → Tristate
  | no => yes
  | mod => mod
  | yes => no

theorem no_le (a : Tristate) : no ≤ a := by revert a; decide
theorem le_yes (a : Tristate) : a ≤ yes := by revert a; decide

@[simp] theorem max_no_right (a : Tristate) : max a no = a := max_eq_left (no_le a)
@[simp] theorem max_no_left (a : Tristate) : max no a = a := max_eq_right (no_le a)
@[simp] theorem max_yes_right (a : Tristate) : max a yes = yes := max_eq_right (le_yes a)
@[simp] theorem max_yes_left (a : Tristate) : max yes a = yes := max_eq_left (le_yes a)
@[simp] theorem min_no_right (a : Tristate) : min a no = no := min_eq_right (no_le a)
@[simp] theorem min_no_left (a : Tristate) : min no a = no := min_eq_left (no_le a)
@[simp] theorem min_yes_right (a : Tristate) : min a yes = a := min_eq_left (le_yes a)
@[simp] theorem min_yes_left (a : Tristate) : min yes a = a := min_eq_right (le_yes a)

@[simp] theorem eNot_eNot (a : Tristate) : eNot (eNot a) = a := by cases a <;> rfl
theorem eNot_max (a b : Tristate) : eNot (max a b) = min (eNot a) (eNot b) := by
  revert a b; decide
theorem eNot_min (a b : Tristate) : eNot (min a b) = max (eNot a) (eNot b) := by
  revert a b; decide

theorem min_ne_no (a b : Tristate) : min a b ≠ no ↔ a ≠ no ∧ b ≠ no := by revert a b; decide
theorem le_no_iff (a : Tristate) : a ≤ no ↔ a = no := by revert a; decide

/-- The letter `sym_get_string_value` prints for a tristate. -/
def letter : Tristate → Text
  | no => ['n']
  | mod => ['m']
  | yes => ['y']

theorem letter_injective : Function.Injective letter := by
  intro a b h
  cases a <;> cases b <;> first | rfl | simp [letter] at h

end Tristate

/-- The names for which `sym_lookup` uses the hash table: all but `y`, `m` and `n`. -/
structure Name where
  text : Text
  free : text ≠ ['y'] ∧ text ≠ ['m'] ∧ text ≠ ['n'] := by decide
deriving DecidableEq

/-- Names that the examples of several modules use. -/
def nameA : Name := { text := ['A'] }
def nameB : Name := { text := ['B'] }
def nameS : Name := { text := ['S'] }

/-- A symbol is what `sym_lookup` returns: one of the static `symbol_yes`, `symbol_mod`,
`symbol_no`, the symbol of a name, the constant of a quoted text, or a nameless choice. -/
inductive Sym where
  | yes | mod | no
  | config (name : Name)
  | const (name : Name)
  | choice (k : ℕ)
deriving DecidableEq

namespace Sym

/-- `sym_lookup` with a name. -/
def lookup (name : Text) (isconst : Bool) : Sym :=
  if hy : name = ['y'] then .yes
  else if hm : name = ['m'] then .mod
  else if hn : name = ['n'] then .no
  else if isconst then .const ⟨name, hy, hm, hn⟩ else .config ⟨name, hy, hm, hn⟩

/-- The `name` field; the pointer of a choice is `NULL`. -/
def name? : Sym → Option Text
  | yes => some ['y']
  | mod => some ['m']
  | no => some ['n']
  | config n => some n.text
  | const n => some n.text
  | choice _ => none

/-- `SYMBOL_CHOICE`. -/
def isChoice : Sym → Bool
  | choice _ => true
  | _ => false

/-- Some bit of `SYMBOL_CONST` is set in the flags. -/
def isConst : Sym → Bool
  | yes | mod | no | const _ => true
  | _ => false

/-- A bit of `SYMBOL_YES|SYMBOL_NO` is set. `SYMBOL_CONST` is the union of all three bits, so
a quoted constant has it too, and `symbol_mod` does not. -/
def isYesNo : Sym → Bool
  | yes | no | const _ => true
  | _ => false

/-- The statically allocated symbols, which are in no hash bucket and always `SYMBOL_VALID`. -/
def isStatic : Sym → Bool
  | yes | mod | no => true
  | _ => false

end Sym

inductive SymType where
  | unknown | boolean | tristate | int | hex | string
deriving DecidableEq, Repr, Inhabited

namespace SymType

/-- The types on the `S_BOOLEAN`/`S_TRISTATE` side of the switches of `symbol.c`. -/
def isLogic : SymType → Bool
  | boolean | tristate => true
  | _ => false

/-- The types on the `S_INT`/`S_HEX`/`S_STRING` side. -/
def isText : SymType → Bool
  | int | hex | string => true
  | _ => false

end SymType

/-- What the `void *val` of a `symbol_value` points to. -/
inductive Val where
  | null
  | text (t : Text)
  | sym (s : Sym)
deriving DecidableEq

namespace Val

/-- The string read through the pointer. Only `NULL` and a choice's member are no string, and
no expression names a choice. -/
def toText : Val → Text
  | text t => t
  | _ => []

end Val

/-- `struct symbol_value`. -/
structure SymbolValue where
  val : Val
  tri : Tristate
deriving DecidableEq

/-- `symbol_no.curr` and `symbol_empty.curr`, the values `sym_calc_value` starts from. -/
def SymbolValue.no : SymbolValue := ⟨.text ['n'], .no⟩
def SymbolValue.empty : SymbolValue := ⟨.text [], .no⟩

inductive Expr where
  | symbol (s : Sym)
  | not (e : Expr)
  | and (l r : Expr)
  | or (l r : Expr)
  | equal (a b : Sym)
  | unequal (a b : Sym)
deriving DecidableEq

namespace Expr

/-- The symbols that occur in an expression. -/
def syms : Expr → List Sym
  | symbol s => [s]
  | not e => e.syms
  | and l r | or l r => l.syms ++ r.syms
  | equal a b | unequal a b => [a, b]

def size : Expr → ℕ
  | symbol _ | equal _ _ | unequal _ _ => 1
  | not e => e.size + 1
  | and l r | or l r => l.size + r.size + 1

theorem size_pos (e : Expr) : 0 < e.size := by cases e <;> simp [size]

end Expr

/-- The symbols of an expression pointer. -/
def optSyms : Option Expr → List Sym
  | none => []
  | some e => e.syms

/-- `expr_alloc_and`. -/
def exprAllocAnd : Option Expr → Option Expr → Option Expr
  | none, e2 => e2
  | e1, none => e1
  | some e1, some e2 => some (.and e1 e2)

/-- `expr_alloc_or`. -/
def exprAllocOr : Option Expr → Option Expr → Option Expr
  | none, e2 => e2
  | e1, none => e1
  | some e1, some e2 => some (.or e1 e2)

section Value
variable (type : Sym → SymType) (ρ : Sym → SymbolValue)

/-- `sym_get_string_value`, for a symbol whose current value is `ρ s`. -/
def symGetStringValue (s : Sym) : Text :=
  if (type s).isLogic then (ρ s).tri.letter else (ρ s).val.toText

/-- The value `expr_calc_value` returns once the symbols of the expression have the values `ρ`. -/
def Expr.value : Expr → Tristate
  | .symbol s => (ρ s).tri
  | .not e => e.value.eNot
  | .and l r => min l.value r.value
  | .or l r => max l.value r.value
  | .equal a b => if symGetStringValue type ρ a = symGetStringValue type ρ b then .yes else .no
  | .unequal a b => if symGetStringValue type ρ a = symGetStringValue type ρ b then .no else .yes

/-- The value of an expression pointer. -/
def optValue : Option Expr → Tristate
  | none => .yes
  | some e => e.value type ρ

@[simp] theorem optValue_none : optValue type ρ none = .yes := rfl
@[simp] theorem optValue_some (e : Expr) : optValue type ρ (some e) = e.value type ρ := rfl

theorem optValue_allocAnd (e1 e2 : Option Expr) :
    optValue type ρ (exprAllocAnd e1 e2) = min (optValue type ρ e1) (optValue type ρ e2) := by
  cases e1 <;> cases e2 <;> simp [exprAllocAnd, optValue, Expr.value]

theorem Expr.value_unequal (a b : Sym) :
    (Expr.unequal a b).value type ρ = ((Expr.equal a b).value type ρ).eNot := by
  simp only [Expr.value]
  split_ifs <;> rfl

end Value

section Congruence
variable {type : Sym → SymType} {ρ ρ' : Sym → SymbolValue}

theorem symGetStringValue_congr {s : Sym} (h : ρ s = ρ' s) :
    symGetStringValue type ρ s = symGetStringValue type ρ' s := by
  simp [symGetStringValue, h]

/-- Only the values of the symbols that occur in an expression matter. -/
theorem Expr.value_congr (e : Expr) (h : ∀ s ∈ e.syms, ρ s = ρ' s) :
    e.value type ρ = e.value type ρ' := by
  induction e with
  | symbol s => simp [Expr.value, h s (by simp [syms])]
  | not e ih => simp only [Expr.value, ih h]
  | and l r ihl ihr | or l r ihl ihr =>
    simp only [syms, List.mem_append] at h
    simp only [Expr.value, ihl fun s hs => h s (.inl hs), ihr fun s hs => h s (.inr hs)]
  | equal a b | unequal a b =>
    have ha : symGetStringValue type ρ a = symGetStringValue type ρ' a :=
      symGetStringValue_congr (h a (by simp [syms]))
    have hb : symGetStringValue type ρ b = symGetStringValue type ρ' b :=
      symGetStringValue_congr (h b (by simp [syms]))
    simp only [Expr.value, ha, hb]

theorem optValue_congr (e : Option Expr) (h : ∀ s ∈ optSyms e, ρ s = ρ' s) :
    optValue type ρ e = optValue type ρ' e := by
  cases e with
  | none => rfl
  | some e => exact e.value_congr h

end Congruence

end Grasshopper.Kconfig
