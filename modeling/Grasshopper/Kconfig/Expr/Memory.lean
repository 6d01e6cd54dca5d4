import Mathlib.Data.Set.BooleanAlgebra
import Mathlib.Data.Set.Disjoint
import Mathlib.Order.CompletePartialOrder
import Mathlib.Logic.Function.Basic
import Grasshopper.Kconfig.Expr.Complete

/-! # Expressions in memory

`expr_eq` and what it calls work on expressions in memory: `expr_copy` allocates, `expr_free` frees
and the other functions change expressions in place. A run has fuel for its recursion, and fails
where it reads what is not allocated.
-/

namespace Grasshopper.Kconfig

/-- `struct expr`. -/
inductive Cell where
  | symbol (s : Sym)
  | not (e : ℕ)
  | chain (c : Conn) (l r : ℕ)
  | equal (a b : Sym)
  | unequal (a b : Sym)
deriving DecidableEq

/-- The allocated expressions and `trans_count`. Addresses from `next` on were never used. -/
structure Memory where
  cell : ℕ → Option Cell
  next : ℕ
  transCount : ℕ

namespace Memory

def alloc (x : Cell) (m : Memory) : ℕ × Memory :=
  (m.next, { m with cell := Function.update m.cell m.next (some x), next := m.next + 1 })

def write (p : ℕ) (x : Cell) (m : Memory) : Memory :=
  { m with cell := Function.update m.cell p (some x) }

def free (p : ℕ) (m : Memory) : Memory := { m with cell := Function.update m.cell p none }

section Cells
variable (m : Memory) (p : ℕ) (x : Cell) {q : ℕ}

theorem alloc_eq : m.alloc x = (m.next, (m.alloc x).2) := rfl

@[simp] theorem cell_alloc : (m.alloc x).2.cell m.next = some x := Function.update_self ..

@[simp] theorem cell_write : (m.write p x).cell p = some x := Function.update_self ..

theorem cell_alloc_of_ne (h : q ≠ m.next) : (m.alloc x).2.cell q = m.cell q :=
  Function.update_of_ne h _ _

theorem cell_write_of_ne (h : q ≠ p) : (m.write p x).cell q = m.cell q :=
  Function.update_of_ne h _ _

theorem cell_free_of_ne (h : q ≠ p) : (m.free p).cell q = m.cell q := Function.update_of_ne h _ _

end Cells

/-- The operands of a node of type `c`. -/
def chain? (m : Memory) (c : Conn) (p : ℕ) : Option (ℕ × ℕ) :=
  match m.cell p with
  | some (.chain d l r) => if d = c then some (l, r) else none
  | _ => none

/-- The type of a node, if it is `E_AND` or `E_OR`. -/
def conn? (m : Memory) (p : ℕ) : Option Conn :=
  match m.cell p with
  | some (.chain c _ _) => some c
  | _ => none

end Memory

/-- `expr_copy`. -/
def exprCopy : ℕ → ℕ → Memory → Option (ℕ × Memory)
  | 0, _, _ => none
  | n + 1, org, m => do
    let x ← m.cell org
    let (e, m) := m.alloc x
    match x with
    | .not a =>
      let (a, m) ← exprCopy n a m
      some (e, m.write e (.not a))
    | .chain c l r =>
      let (l, m) ← exprCopy n l m
      let (r, m) ← exprCopy n r m
      some (e, m.write e (.chain c l r))
    | _ => some (e, m)

/-- `expr_free`, which returns at `E_NOT` without freeing it. -/
def exprFree : ℕ → ℕ → Memory → Option Memory
  | 0, _, _ => none
  | n + 1, e, m => do
    match ← m.cell e with
    | .not a => exprFree n a m
    | .chain _ l r =>
      let m ← exprFree n l m
      let m ← exprFree n r m
      some (m.free e)
    | _ => some (m.free e)

/-- The chain `e` becomes a symbol. -/
def becomeSymbol (n e l r : ℕ) (s : Sym) (m : Memory) : Option (ℕ × Memory) := do
  let m ← exprFree n l m
  let m ← exprFree n r m
  some (e, m.write e (.symbol s))

/-- The chain `e` becomes one of its operands; the other is a symbol. -/
def becomeOperand (e neutral kept : ℕ) (m : Memory) : Option (ℕ × Memory) := do
  let m := m.free neutral
  let x ← m.cell kept
  some (e, (m.write e x).free kept)

/-- `expr_eliminate_yn`. -/
def eliminateYn : ℕ → ℕ → Memory → Option (ℕ × Memory)
  | 0, _, _ => none
  | n + 1, e, m => do
    match ← m.cell e with
    | .chain c l r =>
      let (l, m) ← eliminateYn n l m
      let (r, m) ← eliminateYn n r m
      let m := m.write e (.chain c l r)
      let left ← m.cell l
      let right ← m.cell r
      match c with
      | .and =>
        if left = .symbol .no then becomeSymbol n e l r .no m
        else if left = .symbol .yes then becomeOperand e l r m
        else if right = .symbol .no then becomeSymbol n e l r .no m
        else if right = .symbol .yes then becomeOperand e r l m
        else some (e, m)
      | .or =>
        if left = .symbol .no then becomeOperand e l r m
        else if left = .symbol .yes then becomeSymbol n e l r .yes m
        else if right = .symbol .no then becomeOperand e r l m
        else if right = .symbol .yes then becomeSymbol n e l r .yes m
        else some (e, m)
    | _ => some (e, m)

/-- Both are the same symbol, and a bit of `SYMBOL_YES|SYMBOL_NO` is set in its flags. -/
def Cell.skipped : Cell → Cell → Bool
  | .symbol s, .symbol t => decide (s = t) && s.isYesNo
  | _, _ => false

/-- The end of `__expr_eliminate_eq`, on two operands. -/
def eliminateEqOperand (eq : ℕ → ℕ → Memory → Option (Bool × Memory)) (c : Conn) (n e1 e2 : ℕ)
    (m : Memory) : Option (ℕ × ℕ × Memory) := do
  let x ← m.cell e1
  let y ← m.cell e2
  if x.skipped y then some (e1, e2, m)
  else
    let (res, m) ← eq e1 e2 m
    if res then
      let m := { m with transCount := m.transCount + 1 }
      let m ← exprFree n e1 m
      let m ← exprFree n e2 m
      let (e1, m) := m.alloc (.symbol c.neutral)
      let (e2, m) := m.alloc (.symbol c.neutral)
      some (e1, e2, m)
    else some (e1, e2, m)

/-- `__expr_eliminate_eq`: the pointers that the caller has in `*ep1` and `*ep2` afterwards. -/
def eliminateEqChain (eq : ℕ → ℕ → Memory → Option (Bool × Memory)) (c : Conn) :
    ℕ → ℕ → ℕ → Memory → Option (ℕ × ℕ × Memory)
  | 0, _, _, _ => none
  | n + 1, e1, e2, m =>
    match m.chain? c e1 with
    | some (l, r) => do
      let (l, e2, m) ← eliminateEqChain eq c n l e2 m
      let m := m.write e1 (.chain c l r)
      let (r, e2, m) ← eliminateEqChain eq c n r e2 m
      some (e1, e2, m.write e1 (.chain c l r))
    | none =>
      match m.chain? c e2 with
      | some (l, r) => do
        let (e1, l, m) ← eliminateEqChain eq c n e1 l m
        let m := m.write e2 (.chain c l r)
        let (e1, r, m) ← eliminateEqChain eq c n e1 r m
        some (e1, e2, m.write e2 (.chain c l r))
      | none => eliminateEqOperand eq c n e1 e2 m

/-- `expr_eliminate_eq` on two pointers that are not `NULL`. -/
def eliminateEq (eq : ℕ → ℕ → Memory → Option (Bool × Memory)) (n e1 e2 : ℕ) (m : Memory) :
    Option (ℕ × ℕ × Memory) := do
  let (e1, e2, m) ← match m.conn? e1 with
    | some c => eliminateEqChain eq c n e1 e2 m
    | none => some (e1, e2, m)
  let (e1, e2, m) ← match m.conn? e2 with
    | some c => if m.conn? e1 = some c then some (e1, e2, m) else eliminateEqChain eq c n e1 e2 m
    | none => some (e1, e2, m)
  let (e1, m) ← eliminateYn n e1 m
  let (e2, m) ← eliminateYn n e2 m
  some (e1, e2, m)

/-- Both are the same symbol. -/
def Cell.sameSymbol : Cell → Cell → Bool
  | .symbol s, .symbol t => decide (s = t)
  | _, _ => false

/-- `expr_eq`. -/
def exprEqRun : ℕ → ℕ → ℕ → Memory → Option (Bool × Memory)
  | 0, _, _, _ => none
  | n + 1, e1, e2, m => do
    let x ← m.cell e1
    let y ← m.cell e2
    match x, y with
    | .equal a b, .equal a' b' | .unequal a b, .unequal a' b' => some (decide (a = a' ∧ b = b'), m)
    | .symbol s, .symbol t => some (decide (s = t), m)
    | .not a, .not b => exprEqRun n a b m
    | .chain c _ _, .chain d _ _ =>
      if c = d then
        let (e1, m) ← exprCopy (n + 1) e1 m
        let (e2, m) ← exprCopy (n + 1) e2 m
        let oldCount := m.transCount
        let (e1, e2, m) ← eliminateEq (exprEqRun n) (n + 1) e1 e2 m
        let x ← m.cell e1
        let y ← m.cell e2
        let res := x.sameSymbol y
        let m ← exprFree (n + 1) e1 m
        let m ← exprFree (n + 1) e2 m
        some (res, { m with transCount := oldCount })
      else some (false, m)
    | _, _ => some (false, m)

end Grasshopper.Kconfig
