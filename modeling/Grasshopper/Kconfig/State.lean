import Grasshopper.Kconfig.Config

/-! # The state of the symbols

The fields of `struct symbol` and `struct property` that change after parsing. `SYMBOL_CHANGED`
and `MENU_CHANGED` are left out: only the user interfaces read them.
-/

namespace Grasshopper.Kconfig

structure State where
  curr : Sym → SymbolValue
  user : Sym → SymbolValue
  /-- `SYMBOL_NEW`: the symbol has no user value. -/
  isNew : Sym → Bool
  visible : Sym → Tristate
  /-- `rev_dep.tri`. -/
  revTri : Sym → Tristate
  /-- `SYMBOL_VALID`. -/
  valid : Sym → Bool
  /-- `SYMBOL_WRITE`. -/
  write : Sym → Bool
  /-- `visible.tri` of the prompts of a symbol. -/
  promptTri : Sym → Property → Tristate
  modulesVal : Tristate
  /-- `sym_change_count`. -/
  changeCount : ℕ

namespace State

def setCurr (st : State) (s : Sym) (v : SymbolValue) : State :=
  { st with curr := Function.update st.curr s v }

def setVisible (st : State) (s : Sym) (t : Tristate) : State :=
  { st with visible := Function.update st.visible s t }

def setRevTri (st : State) (s : Sym) (t : Tristate) : State :=
  { st with revTri := Function.update st.revTri s t }

def setValid (st : State) (s : Sym) : State :=
  { st with valid := Function.update st.valid s true }

def setWrite (st : State) (s : Sym) (b : Bool) : State :=
  { st with write := Function.update st.write s b }

def setPromptTri (st : State) (s : Sym) (p : Property) (t : Tristate) : State :=
  { st with promptTri := Function.update st.promptTri s (Function.update (st.promptTri s) p t) }

@[simp] theorem setCurr_self (st : State) (s : Sym) (v : SymbolValue) :
    (st.setCurr s v).curr s = v := Function.update_self ..

/-- The state after `conf_parse`: nothing has been computed but the static symbols. -/
def initial : State where
  curr
    | .yes => ⟨.text ['y'], .yes⟩
    | .mod => ⟨.text ['m'], .mod⟩
    | .no => .no
    | _ => ⟨.null, .no⟩
  user _ := ⟨.null, .no⟩
  isNew s := !s.isStatic
  visible _ := .no
  revTri _ := .no
  valid s := s.isStatic
  write _ := false
  promptTri _ _ := .no
  modulesVal := .no
  changeCount := 1

end State

/-! ## What the user sets -/

/-- The fields of the symbols that evaluation does not change, and `modules_val`. -/
structure UserData where
  user : Sym → SymbolValue
  isNew : Sym → Bool
  modulesVal : Tristate

namespace UserData

def setTri (D : UserData) (s : Sym) (t : Tristate) : UserData :=
  { D with user := Function.update D.user s { D.user s with tri := t } }

def setVal (D : UserData) (s : Sym) (v : Val) : UserData :=
  { D with user := Function.update D.user s { D.user s with val := v } }

def setNew (D : UserData) (s : Sym) (b : Bool) : UserData :=
  { D with isNew := Function.update D.isNew s b }

end UserData

namespace State

def data (st : State) : UserData := ⟨st.user, st.isNew, st.modulesVal⟩

def withData (st : State) (D : UserData) : State := { st with user := D.user, isNew := D.isNew }

def setNew (st : State) (s : Sym) (b : Bool) : State :=
  { st with isNew := Function.update st.isNew s b }

end State

namespace Config
variable (cfg : Config)

/-- `sym_is_choice_value`. -/
def isChoiceValue (s : Sym) : Bool := (cfg.link s).isSome

/-- The choice of a member: `prop_get_symbol(sym_get_choice_prop(sym))`. The first `P_CHOICE` of
a choice is its own list, which names no symbol. -/
def choiceOf (s : Sym) : Option Sym := if s.isChoice then none else cfg.link s

/-- `for_all_prompts`. -/
def prompts (s : Sym) : List Property := (cfg.props s).filter (·.text.isSome)

/-- `for_all_defaults`. -/
def defaults (s : Sym) : List Property := (cfg.props s).filter (·.type = .default)

/-- `for_all_properties(sym, prop, P_RANGE)`. -/
def ranges (s : Sym) : List Property := (cfg.props s).filter (·.type = .range)

/-- `sym_get_type`, for what it reads of the state. -/
def getType (visible modulesVal : Tristate) (s : Sym) : SymType :=
  if cfg.type s = .tristate then
    if (cfg.isChoiceValue s ∧ visible = .yes) ∨ modulesVal = .no then .boolean else .tristate
  else cfg.type s

/-- `sym_get_type`. -/
def symGetType (st : State) (s : Sym) : SymType := cfg.getType (st.visible s) st.modulesVal s

end Config

end Grasshopper.Kconfig
