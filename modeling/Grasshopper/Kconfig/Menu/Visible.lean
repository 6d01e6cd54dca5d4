import Grasshopper.Kconfig.Symbol.Calc

/-! # `menu_is_visible` of `menu.c` -/

namespace Grasshopper.Kconfig

section Visible
variable (cfg : Config)

/-- `prompt->visible.tri`, computed first. -/
def calcPromptTri (e : Entry) (p : Property) (st : State) : Tristate × State :=
  match e.sym with
  | some s =>
    let st := symCalcValue cfg s st
    (st.promptTri s p, st)
  | none => optCalcValue cfg (symCalcValue cfg) p.visible st

/-- `menu_is_visible` on an entry; `below` looks at what is under it. -/
def entryIsVisible (e : Entry) (below : State → Bool × State) (st : State) : Bool × State :=
  match e.prompt with
  | none => (false, st)
  | some p =>
    let (visible, st) := calcPromptTri cfg e p st
    if visible ≠ .no then (true, st)
    else
      match e.sym with
      | none => (false, st)
      | some s => if (st.curr s).tri = .no then (false, st) else below st

/-- The loop over the entries under an entry. -/
def anyIsVisible : Menus → State → Bool × State
  | .nil, st => (false, st)
  | .node e l n, st =>
    match entryIsVisible cfg e (anyIsVisible l) st with
    | (true, st) => (true, st)
    | (false, st) => anyIsVisible n st

theorem anyIsVisible_node (e : Entry) (l n : Menus) (st : State) :
    anyIsVisible cfg (.node e l n) st = match entryIsVisible cfg e (anyIsVisible cfg l) st with
      | (true, st) => (true, st)
      | (false, st) => anyIsVisible cfg n st :=
  rfl

/-- `menu_is_visible` on the first entry of a chain. -/
def menuIsVisible : Menus → State → Bool × State
  | .nil, st => (false, st)
  | .node e l _, st => entryIsVisible cfg e (anyIsVisible cfg l) st

end Visible

end Grasshopper.Kconfig
