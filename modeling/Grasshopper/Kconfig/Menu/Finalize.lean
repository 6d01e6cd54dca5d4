import Grasshopper.Kconfig.Menu.Tree

/-! # `menu_finalize` of `menu.c`

The types, reverse dependencies and choice lists it changes are threaded through as a state.
Warnings are left out, since nothing reads them back.
-/

namespace Grasshopper.Kconfig

/-- What `menu_finalize` changes outside the menu tree. A symbol with a link has
`SYMBOL_CHOICEVAL`; the link is the choice of its first `P_CHOICE` property. -/
structure FinState where
  type : Sym → SymType
  revDep : Sym → Option Expr
  members : Sym → List Sym
  link : Sym → Option Sym

namespace FinState

def setType (σ : FinState) (sym : Sym) (t : SymType) : FinState :=
  { σ with type := menuSetType σ.type sym t }

def addRevDep (σ : FinState) (sym : Sym) (e : Option Expr) : FinState :=
  { σ with revDep := Function.update σ.revDep sym (exprAllocOr (σ.revDep sym) e) }

/-- `menu_add_symbol(P_CHOICE, ..)` and the end of the choice's list. -/
def addMember (σ : FinState) (choice member : Sym) : FinState :=
  { σ with
    members := Function.update σ.members choice (σ.members choice ++ [member])
    link := if σ.link member = none then Function.update σ.link member (some choice) else σ.link }

end FinState

/-- The condition of an entry that is copied to what is under it. -/
def Entry.condition (e : Entry) : Option Expr :=
  match e.prompt with
  | some p => p.visible
  | none => e.dep

/-- The `parentdep` of `menu_finalize`. -/
def parentDep (e : Entry) : Option Expr :=
  match e.sym with
  | some s => if s.isChoice then some (.symbol s) else e.condition
  | none => e.condition

/-- The new `visible.expr` of a property, for the types when it is computed. -/
def finalizeVisible (τ : Sym → SymType) (sym : Option Sym) (basedep visible : Option Expr) :
    Option Expr :=
  let dep := (exprAllocAnd basedep (visible.map (exprTransform τ))).map (exprEliminateDups τ)
  match sym with
  | some s => if τ s ≠ .tristate then dep.map (exprTransBool τ) else dep
  | none => dep

/-- The `P_SELECT` case: one more selector for the selected symbol. -/
def addSelect (sym : Option Sym) (σ : FinState) (p : Property) : FinState :=
  match p.type, p.getSymbol, sym with
  | .select, some es, some s => σ.addRevDep es (exprAllocAnd (some (.symbol s)) p.visible)
  | _, _, _ => σ

/-- The new `dep` of an entry. -/
def finalizeDep (τ : Sym → SymType) (parentdep dep : Option Expr) : Option Expr :=
  (exprAllocAnd parentdep (dep.map (exprTransform τ))).map (exprEliminateDups τ)

/-- One round of the loop over the entries of a menu. -/
def finalizeEntry (parentdep : Option Expr) (e : Entry) (σ : FinState) : Entry × FinState :=
  let basedep := finalizeDep σ.type parentdep e.dep
  let props := e.props.map fun p =>
    { p with visible := finalizeVisible σ.type e.sym basedep p.visible }
  (⟨e.sym, basedep, props⟩, props.foldl (addSelect e.sym) σ)

/-- The loop over the entries of a menu: their conditions become final. -/
def finalizeEntries (parentdep : Option Expr) : Menus → FinState → Menus × FinState
  | .nil, σ => (.nil, σ)
  | .node e l n, σ =>
    let (e, σ) := finalizeEntry parentdep e σ
    let (n, σ) := finalizeEntries parentdep n σ
    (.node e l n, σ)

/-- The symbol of the first entry with one. -/
def firstSymbol : Menus → Option Sym
  | .nil => none
  | .node e _ n => e.sym <|> firstSymbol n

/-- "find the first choice value and find out choice type". -/
def setChoiceType (sym : Option Sym) (list : Menus) (σ : FinState) : FinState :=
  match sym, firstSymbol list with
  | some s, some m =>
    if s.isChoice then
      let σ := σ.setType s (σ.type m)
      σ.setType m (σ.type s)
    else σ
  | _, _ => σ

/-- `expr_is_yes`. -/
def exprIsYes (e : Expr) : Bool := e = .symbol .yes

/-- The condition of an entry as `expr_eliminate_eq` gets it: whether it is not `n`. -/
def comparedDep (τ : Sym → SymType) (dep : Option Expr) : Expr :=
  exprEliminateDups τ (exprTransform τ (exprTransCompare dep .unequal .no))

/-- The test whether the entry that follows goes under an entry with symbol `sym`. -/
def nests (τ : Sym → SymType) (sym : Sym) (basedep : Expr) (dep : Option Expr) : Bool :=
  match dep with
  | none => false
  | some e => exprContainsSymbol dep sym &&
      (exprDependsSymbol sym e || exprIsYes (exprEliminateEq (comparedDep τ dep) basedep).2)

/-- One member found under a choice. -/
def addChoiceValue (sym : Option Sym) (e : Entry) (σ : FinState) : FinState :=
  match sym, e.sym with
  | some s, some m => if s.isChoice then (σ.setType m (σ.type s)).addMember s m else σ
  | _, _ => σ

/-- The last loop over the entries under a menu. What is under an entry without a prompt comes
after it. -/
def liftEntries (sym : Option Sym) : Menus → FinState → Menus × FinState
  | .nil, σ => (.nil, σ)
  | .node e l n, σ =>
    let σ := addChoiceValue sym e σ
    match e.prompt with
    | some _ =>
      let (n, σ) := liftEntries sym n σ
      (.node e l n, σ)
    | none =>
      let (l, σ) := liftEntries sym l σ
      let (n, σ) := liftEntries sym n σ
      (.node e .nil (l.append n), σ)

/-- A choice that is not optional is at least `m` where its prompt is visible. -/
def addChoiceRevDep (optional : ℕ → Bool) (e : Entry) (σ : FinState) : FinState :=
  match e.sym, e.prompt with
  | some (.choice k), some p =>
    if optional k then σ
    else σ.addRevDep (.choice k) (exprAllocAnd p.visible (some (.symbol .mod)))
  | _, _ => σ

section Fuel
variable (optional : ℕ → Bool)

mutual

/-- `menu_finalize` on the first entry of a chain, with fuel for the entries. -/
def menuFinalize : ℕ → Menus → FinState → Menus × FinState
  | 0, m, σ => (m, σ)
  | _ + 1, .nil, σ => (.nil, σ)
  | fuel + 1, .node e (.node e' l' n') n, σ =>
    let σ := setChoiceType e.sym (.node e' l' n') σ
    let (l, σ) := finalizeEntries (parentDep e) (.node e' l' n') σ
    let (l, σ) := finalizeList fuel l σ
    let (l, σ) := liftEntries e.sym l σ
    (.node e l n, addChoiceRevDep optional e σ)
  | fuel + 1, .node e .nil n, σ =>
    match e.sym with
    | none => (.node e .nil n, σ)
    | some s =>
      let basedep := comparedDep σ.type (e.prompt.bind (·.visible))
      let ((l, n), σ) := nestEntries fuel s basedep n σ
      let (l, σ) := liftEntries e.sym l σ
      (.node e l n, addChoiceRevDep optional e σ)

/-- `menu_finalize` on every entry of a chain. -/
def finalizeList : ℕ → Menus → FinState → Menus × FinState
  | 0, m, σ => (m, σ)
  | fuel + 1, m, σ =>
    match menuFinalize fuel m σ with
    | (.nil, σ) => (.nil, σ)
    | (.node e l n, σ) =>
      let (n, σ) := finalizeList fuel n σ
      (.node e l n, σ)

/-- The entries that follow an entry with symbol `sym` as long as they depend on it, and the
others. -/
def nestEntries : ℕ → Sym → Expr → Menus → FinState → (Menus × Menus) × FinState
  | 0, _, _, m, σ => ((.nil, m), σ)
  | _ + 1, _, _, .nil, σ => ((.nil, .nil), σ)
  | fuel + 1, sym, basedep, .node e l n, σ =>
    if nests σ.type sym basedep e.condition then
      match menuFinalize fuel (.node e l n) σ with
      | (.nil, σ) => ((.nil, .nil), σ)
      | (.node e l n, σ) =>
        let ((l', n), σ) := nestEntries fuel sym basedep n σ
        ((.node e l l', n), σ)
    else ((.nil, .node e l n), σ)

end

end Fuel

/-! ## The whole tree -/

/-- The symbols `sym_init` and `conf_parse` look up before the first statement. -/
def versionSym : Sym := .config ⟨"VERSION".toList, by decide⟩
def targetArchSym : Sym := .config ⟨"TARGET_ARCH".toList, by decide⟩

/-- The types before the first statement. -/
def initialTypes : Sym → SymType :=
  Function.update (Function.update (fun _ => .unknown) versionSym .string) targetArchSym .string

namespace ParsedTree

def optional (t : ParsedTree) (k : ℕ) : Bool := decide (k ∈ t.block.optionals)

/-- The state when `conf_parse` calls `menu_finalize`. -/
def initial (t : ParsedTree) : FinState where
  type := t.block.types initialTypes
  revDep _ := none
  members _ := []
  link _ := none

/-- `menu_finalize(&rootmenu)`: the root has no symbol and its prompt has no condition. -/
def finalized (t : ParsedTree) : Menus × FinState :=
  let (l, σ) := finalizeEntries none t.block.menus t.initial
  let (l, σ) := finalizeList t.optional (2 * t.block.menus.size) l σ
  liftEntries none l σ

end ParsedTree

end Grasshopper.Kconfig
