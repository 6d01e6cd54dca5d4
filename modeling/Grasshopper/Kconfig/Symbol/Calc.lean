import Grasshopper.Kconfig.State

/-! # `sym_calc_value` of `symbol.c` and `expr_calc_value` of `expr.c`

The evaluator calls itself for the symbols of each expression it meets. The functions it is made
of take that call as a parameter, and `symCalcValue` ties the knot.
-/

namespace Grasshopper.Kconfig

section Calc
variable (cfg : Config) (eval : Sym → State → State)

/-- `expr_calc_value`. -/
def exprCalcValue : Expr → State → Tristate × State
  | .symbol s, st =>
    let st := eval s st
    ((st.curr s).tri, st)
  | .and l r, st =>
    let (val1, st) := exprCalcValue l st
    let (val2, st) := exprCalcValue r st
    (min val1 val2, st)
  | .or l r, st =>
    let (val1, st) := exprCalcValue l st
    let (val2, st) := exprCalcValue r st
    (max val1 val2, st)
  | .not e, st =>
    let (val, st) := exprCalcValue e st
    (val.eNot, st)
  | .equal a b, st =>
    let st := eval b (eval a st)
    (if symGetStringValue cfg.type st.curr a = symGetStringValue cfg.type st.curr b then .yes
      else .no, st)
  | .unequal a b, st =>
    let st := eval b (eval a st)
    (if symGetStringValue cfg.type st.curr a = symGetStringValue cfg.type st.curr b then .no
      else .yes, st)

/-- `expr_calc_value` on a pointer. -/
def optCalcValue : Option Expr → State → Tristate × State
  | none, st => (.yes, st)
  | some e, st => exprCalcValue cfg eval e st

/-- The loop over the prompts in `sym_calc_visibility`. -/
def calcPrompts (s : Sym) : List Property → Tristate → State → Tristate × State
  | [], tri, st => (tri, st)
  | p :: ps, tri, st =>
    let (val, st) := optCalcValue cfg eval p.visible st
    calcPrompts s ps (max tri val) (st.setPromptTri s p val)

/-- The tail of `sym_calc_visibility`: `rev_dep.tri`. -/
def calcRevDep (s : Sym) (st : State) : State :=
  let (tri, st) := match cfg.revDep s with
    | none => (Tristate.no, st)
    | some e => exprCalcValue cfg eval e st
  st.setRevTri s (if tri = .mod ∧ cfg.symGetType st s = .boolean then .yes else tri)

/-- `sym_calc_visibility`. -/
def symCalcVisibility (s : Sym) (st : State) : State :=
  let (tri, st) := calcPrompts cfg eval s (cfg.prompts s) .no st
  let st := st.setVisible s
    (if tri = .mod ∧ (cfg.type s ≠ .tristate ∨ st.modulesVal = .no) then .yes else tri)
  if cfg.isChoiceValue s then st else calcRevDep cfg eval s st

/-- The first of some properties whose condition holds, as in `sym_get_default_prop` and
`sym_get_range_prop`. -/
def firstActive : List Property → State → Option Property × State
  | [], st => (none, st)
  | p :: ps, st =>
    let (val, st) := optCalcValue cfg eval p.visible st
    if val ≠ .no then (some p, st) else firstActive ps st

/-- `sym_get_default_prop`. -/
def symGetDefaultProp (s : Sym) (st : State) : Option Property × State :=
  firstActive cfg eval (cfg.defaults s) st

/-- `sym_get_range_prop`. -/
def symGetRangeProp (s : Sym) (st : State) : Option Property × State :=
  firstActive cfg eval (cfg.ranges s) st

/-- The first visible symbol of a list; the visibility of each that is looked at is computed. -/
def firstVisible : List Sym → State → Option Sym × State
  | [], st => (none, st)
  | m :: ms, st =>
    let st := symCalcVisibility cfg eval m st
    if st.visible m ≠ .no then (some m, st) else firstVisible ms st

/-- The loop over the defaults in `sym_calc_choice`. -/
def firstVisibleDefault : List Property → State → Option Sym × State
  | [], st => (none, st)
  | p :: ps, st =>
    let (val, st) := optCalcValue cfg eval p.visible st
    if val = .no then firstVisibleDefault ps st
    else match p.getSymbol with
      | none => firstVisibleDefault ps st
      | some m =>
        let st := symCalcVisibility cfg eval m st
        if st.visible m ≠ .no then (some m, st) else firstVisibleDefault ps st

/-- The symbol that a choice remembers as the user's. -/
def userChoice (v : Val) : List Sym :=
  match v with
  | .sym m => [m]
  | _ => []

/-- `sym_calc_choice`, up to the reset of the tristate. -/
def symCalcChoice (s : Sym) (st : State) : Option Sym × State :=
  match firstVisible cfg eval (userChoice (st.user s).val) st with
  | (some m, st) => (some m, st)
  | (none, st) =>
    match firstVisibleDefault cfg eval (cfg.defaults s) st with
    | (some m, st) => (some m, st)
    | (none, st) => firstVisible cfg eval (cfg.members s) st

/-- The value of a default for a bool or tristate symbol. -/
def defaultTri (p : Property) (st : State) : Tristate × State :=
  match p.expr with
  | .expr e => exprCalcValue cfg eval e st
  | _ => (.yes, st)

/-- The user's value of a bool or tristate symbol, or else that of a default. -/
def calcOwn (s : Sym) (st : State) : Tristate × State :=
  if !st.isNew s then ((st.user s).tri, st)
  else if s.isChoice then (.no, st)
  else match symGetDefaultProp cfg eval s st with
    | (some p, st) => defaultTri cfg eval p st
    | (none, st) => (.no, st)

/-- The `S_BOOLEAN`/`S_TRISTATE` branch of `sym_calc_value`, up to its last statement. -/
def calcLogic (s : Sym) (st : State) : Tristate × State :=
  if cfg.isChoiceValue s ∧ st.visible s = .yes then
    (if (cfg.choiceOf s).any fun c => (st.curr c).val = .sym s then .yes else .no, st)
  else if max (st.visible s) (st.revTri s) ≠ .no then
    let (tri, st) := calcOwn cfg eval s (st.setWrite s true)
    (max (min tri (st.visible s)) (st.revTri s), st)
  else if s.isChoice then (.no, st)
  else match symGetDefaultProp cfg eval s st with
    | (some p, st) => defaultTri cfg eval p (st.setWrite s true)
    | (none, st) => (.no, st)

/-- The `S_STRING`/`S_HEX`/`S_INT` branch of `sym_calc_value`. -/
def calcText (s : Sym) (st : State) : Val × State :=
  let st := if st.visible s ≠ .no then st.setWrite s true else st
  if st.visible s ≠ .no ∧ !st.isNew s then ((st.user s).val, st)
  else match symGetDefaultProp cfg eval s st with
    | (some p, st) =>
      match p.getSymbol with
      | some ds =>
        let st := eval ds (st.setWrite s true)
        ((st.curr ds).val, st)
      | none => (.text [], st)
    | (none, st) => (.text [], st)

/-- The flags a choice gives to its members. -/
def writeMembers (s : Sym) (st : State) : State :=
  if s.isChoice ∧ st.write s then
    { st with write := fun m => st.write m || decide (m ∈ cfg.members s) }
  else st

/-- `if (modules_sym == sym) modules_val = modules_sym->curr.tri`. -/
def setModules (s : Sym) (st : State) : State :=
  if s = modulesSym then { st with modulesVal := (st.curr s).tri } else st

/-- The value of a choice that is `y`: the member that is selected, if there is a visible one. -/
def selectMember (s : Sym) (st : State) : State :=
  if s.isChoice ∧ (st.curr s).tri = .yes then
    match symCalcChoice cfg eval s st with
    | (some m, st) => st.setCurr s ⟨.sym m, (st.curr s).tri⟩
    | (none, st) => st.setCurr s ⟨.null, .no⟩
  else st

/-- The new value of a symbol whose visibility is known. -/
def calcCurr (s : Sym) (st : State) : State :=
  if (cfg.type s).isLogic then
    let (tri, st) := calcLogic cfg eval s (st.setCurr s .no)
    let st := st.setCurr s
      ⟨.text ['n'], if tri = .mod ∧ cfg.symGetType st s = .boolean then .yes else tri⟩
    selectMember cfg eval s st
  else
    let (val, st) := calcText cfg eval s (st.setCurr s .empty)
    st.setCurr s ⟨val, .no⟩

/-- `sym_calc_value` on a symbol that is not valid. -/
def calcInvalid (s : Sym) (st : State) : State :=
  let st := st.setValid s
  if cfg.type s = .unknown then
    st.setCurr s ⟨match s.name? with | some n => .text n | none => .null, .no⟩
  else
    let st := if cfg.isChoiceValue s then st else st.setWrite s false
    let st := symCalcVisibility cfg eval s st
    let st := calcCurr cfg eval s st
    writeMembers cfg s (setModules s st)

variable {cfg}

/-- A symbol of unknown type only gets a current value. -/
theorem calcInvalid_unknown {s : Sym} (st : State) (h : cfg.type s = .unknown) :
    ∃ v, calcInvalid cfg eval s st = (st.setValid s).setCurr s v := by
  unfold calcInvalid
  exact ⟨_, if_pos h⟩

end Calc

/-- `sym_calc_value`, with fuel for the nesting of its calls. -/
def symCalcValueAux (cfg : Config) : ℕ → Sym → State → State
  | 0, _, st => st
  | n + 1, s, st => if st.valid s then st else calcInvalid cfg (symCalcValueAux cfg n) s st

/-- `sym_calc_value`: each nested call is about another symbol of the table. -/
def symCalcValue (cfg : Config) (s : Sym) (st : State) : State :=
  symCalcValueAux cfg cfg.symbols.length s st

/-- `sym_clear_all_valid`. -/
def symClearAllValid (cfg : Config) (st : State) : State :=
  symCalcValue cfg modulesSym
    { st with
      valid := fun s => st.valid s && !decide (s ∈ cfg.symbols)
      changeCount := st.changeCount + 1 }

/-- `sym_calc_value` on some symbols, one after the other. -/
def calcAll (cfg : Config) (order : List Sym) (st : State) : State :=
  order.foldl (fun st s => symCalcValue cfg s st) st

end Grasshopper.Kconfig
