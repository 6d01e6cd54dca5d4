import Grasshopper.Kconfig.Config

/-! # `sym_check_deps` of `symbol.c` and its loop in `conf_parse` -/

namespace Grasshopper.Kconfig

/-- `SYMBOL_CHECK`, `SYMBOL_CHECKED` and `SYMBOL_CHECK_DONE`, and whether a warning was printed. -/
structure CheckState where
  check : Sym → Bool
  checked : Sym → Bool
  done : Sym → Bool
  warned : Bool

namespace CheckState

def start : CheckState := ⟨fun _ => false, fun _ => false, fun _ => false, false⟩

def setCheck (st : CheckState) (s : Sym) (b : Bool) : CheckState :=
  { st with check := Function.update st.check s b }

def setChecked (st : CheckState) (s : Sym) : CheckState :=
  { st with checked := Function.update st.checked s true }

def setDone (st : CheckState) (s : Sym) : CheckState :=
  { st with done := Function.update st.done s true }

end CheckState

section Check
variable (deps : Sym → CheckState → Option Sym × CheckState)

/-- `sym_check_expr_deps`. -/
def symCheckExprDeps : Expr → CheckState → Option Sym × CheckState
  | .or l r, st | .and l r, st =>
    match symCheckExprDeps l st with
    | (some s, st) => (some s, st)
    | (none, st) => symCheckExprDeps r st
  | .not e, st => symCheckExprDeps e st
  | .equal a b, st | .unequal a b, st =>
    match deps a st with
    | (some s, st) => (some s, st)
    | (none, st) => deps b st
  | .symbol s, st => deps s st

/-- `sym_check_expr_deps` on a pointer. -/
def checkOpt : Option Expr → CheckState → Option Sym × CheckState
  | none, st => (none, st)
  | some e, st => symCheckExprDeps deps e st

/-- The expressions of a property that `sym_check_deps` follows. -/
def checkedExprs (s : Sym) (p : Property) : List Expr :=
  if p.type = .choice ∨ p.type = .select then []
  else p.visible.toList ++
    (match p.expr with
      | .expr e => if p.type = .default ∧ !s.isChoice then [e] else []
      | _ => [])

/-- The loop over the properties. -/
def checkList : List Expr → CheckState → Option Sym × CheckState
  | [], st => (none, st)
  | e :: es, st =>
    match symCheckExprDeps deps e st with
    | (some s, st) => (some s, st)
    | (none, st) => checkList es st

end Check

/-- `sym_check_deps`, with fuel for the symbols that have `SYMBOL_CHECK` at the same time. -/
def symCheckDeps (cfg : Config) : ℕ → Sym → CheckState → Option Sym × CheckState
  | 0, _, st => (none, st)
  | n + 1, s, st =>
    if st.done s then (none, st)
    else if st.check s then (some s, { st with warned := true })
    else
      let st := (st.setCheck s true).setChecked s
      let (sym2, st) := match checkOpt (symCheckDeps cfg n) (cfg.revDep s) st with
        | (some s, st) => (some s, st)
        | (none, st) =>
          checkList (symCheckDeps cfg n) ((cfg.props s).flatMap (checkedExprs s)) st
      (sym2, st.setCheck s false)

/-- One round of the loop of `conf_parse`. -/
def confCheckSymbol (cfg : Config) (st : CheckState) (s : Sym) : CheckState :=
  if st.checked s then st.setDone s
  else match symCheckDeps cfg (cfg.symbols.length + 4) s st with
    | (some _, st) => st
    | (none, st) => st.setDone s

/-- The loop of `conf_parse` prints no recursive-dependency warning. -/
def noRecursionWarning (cfg : Config) : Bool :=
  !(cfg.symbols.foldl (confCheckSymbol cfg) .start).warned

end Grasshopper.Kconfig
