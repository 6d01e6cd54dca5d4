import Grasshopper.Kconfig.Expr.Guard

/-! # Statements of `zconf.y` and the menu tree of `menu.c`

A menu tree is the `list` and `next` pointers of `struct menu`; the properties of an entry are
those whose `menu` pointer is the entry. A block of statements is what the grammar accepts, with
the symbols already looked up, and `Block.menus` is what the actions of the grammar build.
-/

namespace Grasshopper.Kconfig

inductive PropType where
  | prompt | comment | menu | default | choice | select | range
deriving DecidableEq

/-- The `expr` field of a property. The list of a choice's own `P_CHOICE` is kept elsewhere. -/
inductive PropExpr where
  | null
  | expr (e : Expr)
  | range (lo hi : Sym)
deriving DecidableEq

/-- `struct property`. -/
structure Property where
  sym : Option Sym
  type : PropType
  text : Option Text
  visible : Option Expr
  expr : PropExpr
deriving DecidableEq

/-- `prop_get_symbol`. -/
def Property.getSymbol (p : Property) : Option Sym :=
  match p.expr with
  | .expr (.symbol s) => some s
  | _ => none

/-- `struct menu` without its place in the tree. -/
structure Entry where
  sym : Option Sym
  dep : Option Expr
  props : List Property
deriving DecidableEq

/-- The `prompt` field: the last property that was added with a text. -/
def Entry.prompt (e : Entry) : Option Property := (e.props.filter (·.text.isSome)).getLast?

inductive Menus where
  | nil
  | node (entry : Entry) (list next : Menus)
deriving DecidableEq

namespace Menus

/-- The entries in the order of the walk of `conf_write`: an entry, what is under it, the next. -/
def preorder : Menus → List Entry
  | nil => []
  | node e l n => e :: (l.preorder ++ n.preorder)

def size : Menus → ℕ
  | nil => 0
  | node _ l n => l.size + n.size + 1

/-- The two chains of `next` pointers one after the other. -/
def append : Menus → Menus → Menus
  | nil, m => m
  | node e l n, m => node e l (n.append m)

@[simp] theorem preorder_nil : nil.preorder = [] := rfl
@[simp] theorem preorder_node (e : Entry) (l n : Menus) :
    (node e l n).preorder = e :: (l.preorder ++ n.preorder) := rfl

@[simp] theorem preorder_append (m m' : Menus) :
    (m.append m').preorder = m.preorder ++ m'.preorder := by
  induction m with
  | nil => rfl
  | node e l n ihl ihn => simp [append, ihn]

@[simp] theorem size_nil : nil.size = 0 := rfl
@[simp] theorem size_node (e : Entry) (l n : Menus) : (node e l n).size = l.size + n.size + 1 := rfl

end Menus

/-! ## The actions of the grammar -/

/-- `modules_sym`. -/
def modulesSym : Sym := .config ⟨"MODULES".toList, by decide⟩

/-- `menu_check_dep`: `m` becomes `m && MODULES`. -/
def menuCheckDep : Expr → Expr
  | .not e => .not (menuCheckDep e)
  | .or l r => .or (menuCheckDep l) (menuCheckDep r)
  | .and l r => .and (menuCheckDep l) (menuCheckDep r)
  | .symbol s => if s = .mod then .and (.symbol s) (.symbol modulesSym) else .symbol s
  | e => e

/-- `menu_set_type`: the first type given to a symbol stays. -/
def menuSetType (type : Sym → SymType) (sym : Sym) (t : SymType) : Sym → SymType :=
  if type sym = .unknown then Function.update type sym t else type

section Actions
-- what happens to a written condition: the parser applies `menu_check_dep`
variable (check : Expr → Expr)

/-- `menu_add_dep`. -/
def menuAddDep (e : Entry) (dep : Expr) : Entry :=
  { e with dep := exprAllocAnd e.dep (some (check dep)) }

/-- `menu_add_prop`. -/
def menuAddProp (type : PropType) (text : Option Text) (expr : PropExpr) (dep : Option Expr)
    (e : Entry) : Entry :=
  { e with props := e.props ++ [⟨e.sym, type, text, dep.map check, expr⟩] }

/-- The options of a `config` or `menuconfig` entry. -/
inductive ConfigOption where
  | type (t : SymType) (prompt : Option (Text × Option Expr))
  | defType (t : SymType) (value : Expr) (cond : Option Expr)
  | prompt (text : Text) (cond : Option Expr)
  | default (value : Expr) (cond : Option Expr)
  | select (sym : Sym) (cond : Option Expr)
  | range (lo hi : Sym) (cond : Option Expr)
  | depends (dep : Expr)
deriving DecidableEq

/-- What an option adds to the current entry. -/
def ConfigOption.add (e : Entry) : ConfigOption → Entry
  | type _ none => e
  | type _ (some (text, cond)) => menuAddProp check .prompt (some text) .null cond e
  | defType _ value cond => menuAddProp check .default none (.expr value) cond e
  | prompt text cond => menuAddProp check .prompt (some text) .null cond e
  | default value cond => menuAddProp check .default none (.expr value) cond e
  | select sym cond => menuAddProp check .select none (.expr (.symbol sym)) cond e
  | range lo hi cond => menuAddProp check .range none (.range lo hi) cond e
  | depends dep => menuAddDep check e dep

/-- The type an option gives to the symbol of the entry. -/
def ConfigOption.type? : ConfigOption → Option SymType
  | type t _ | defType t _ _ => some t
  | _ => none

/-- The options of a `choice` entry. -/
inductive ChoiceOption where
  | prompt (text : Text) (cond : Option Expr)
  | type (t : SymType) (prompt : Option (Text × Option Expr))
  | optional
  | default (sym : Sym) (cond : Option Expr)
  | depends (dep : Expr)
deriving DecidableEq

/-- A choice runs the actions of a config entry; `optional` only sets a flag. -/
def ChoiceOption.config? : ChoiceOption → Option ConfigOption
  | prompt text cond => some (.prompt text cond)
  | type t p => some (.type t p)
  | optional => none
  | default sym cond => some (.default (.symbol sym) cond)
  | depends dep => some (.depends dep)

end Actions

/-- `current_entry->prompt->type = P_MENU` at the end of a `menuconfig` entry. -/
def setMenuPrompt : List Property → List Property
  | [] => []
  | p :: ps =>
    if p.text.isSome ∧ ∀ q ∈ ps, q.text = none then { p with type := .menu } :: ps
    else p :: setMenuPrompt ps

/-- A block of statements. Each choice statement makes its own nameless symbol. -/
inductive Block where
  | nil
  | config (name : Name) (menuconfig : Bool) (options : List ConfigOption) (next : Block)
  | comment (text : Text) (deps : List Expr) (next : Block)
  | menu (text : Text) (deps : List Expr) (body next : Block)
  | cond (dep : Expr) (body next : Block)
  | choice (k : ℕ) (options : List ChoiceOption) (body next : Block)

section Entries
variable (check : Expr → Expr)

def configEntry (name : Name) (menuconfig : Bool) (options : List ConfigOption) : Entry :=
  let e := options.foldl (fun e o => o.add check e) ⟨some (.config name), none, []⟩
  if menuconfig then { e with props := setMenuPrompt e.props } else e

def commentEntry (text : Text) (deps : List Expr) : Entry :=
  deps.foldl (menuAddDep check) ⟨none, none, [⟨none, .comment, some text, none, .null⟩]⟩

def menuEntry (text : Text) (deps : List Expr) : Entry :=
  deps.foldl (menuAddDep check) ⟨none, none, [⟨none, .menu, some text, none, .null⟩]⟩

/-- The entry of an `if` block. -/
def condEntry (dep : Expr) : Entry := menuAddDep check ⟨none, none, []⟩ dep

def choiceEntry (k : ℕ) (options : List ChoiceOption) : Entry :=
  (options.filterMap ChoiceOption.config?).foldl (fun e o => o.add check e)
    ⟨some (.choice k), none, [⟨some (.choice k), .choice, none, none, .null⟩]⟩

/-- The menu tree a block builds. -/
def Block.menusWith : Block → Menus
  | nil => .nil
  | config name menuconfig options next =>
    .node (configEntry check name menuconfig options) .nil next.menusWith
  | comment text deps next => .node (commentEntry check text deps) .nil next.menusWith
  | menu text deps body next => .node (menuEntry check text deps) body.menusWith next.menusWith
  | cond dep body next => .node (condEntry check dep) body.menusWith next.menusWith
  | choice k options body next =>
    .node (choiceEntry check k options) body.menusWith next.menusWith

end Entries

/-- The menu tree after parsing. -/
def Block.menus (b : Block) : Menus := b.menusWith menuCheckDep

/-- The menu tree with the conditions as they are written. -/
def Block.written (b : Block) : Menus := b.menusWith id

/-- The `menu_set_type` calls of the options of an entry. -/
def setTypes (sym : Sym) (options : List ConfigOption) (type : Sym → SymType) : Sym → SymType :=
  (options.filterMap ConfigOption.type?).foldl (fun type t => menuSetType type sym t) type

/-- The types of all symbols after parsing. -/
def Block.types : Block → (Sym → SymType) → Sym → SymType
  | nil, type => type
  | config name _ options next, type => next.types (setTypes (.config name) options type)
  | comment _ _ next, type => next.types type
  | menu _ _ body next, type => next.types (body.types type)
  | cond _ body next, type => next.types (body.types type)
  | choice k options body next, type =>
    next.types (body.types (setTypes (.choice k) (options.filterMap ChoiceOption.config?) type))

/-- The choices with `SYMBOL_OPTIONAL`. -/
def Block.optionals : Block → List ℕ
  | nil => []
  | config _ _ _ next | comment _ _ next => next.optionals
  | menu _ _ body next | cond _ body next => body.optionals ++ next.optionals
  | choice k options body next =>
    (if .optional ∈ options then [k] else []) ++ body.optionals ++ next.optionals

/-- The choices in the order of their statements. -/
def Block.choices : Block → List ℕ
  | nil => []
  | config _ _ _ next | comment _ _ next => next.choices
  | menu _ _ body next | cond _ body next => body.choices ++ next.choices
  | choice k _ body next => k :: body.choices ++ next.choices

/-! ## Symbols in the order `sym_lookup` makes them -/

/-- The symbols of an option, in the order of the actions. -/
def ConfigOption.lookups : ConfigOption → List Sym
  | type _ none => []
  | type _ (some (_, cond)) | prompt _ cond => optSyms cond
  | defType _ value cond | default value cond => value.syms ++ optSyms cond
  | select sym cond => optSyms cond ++ [sym]
  | range lo hi cond => lo :: hi :: optSyms cond
  | depends dep => dep.syms

def ChoiceOption.lookups : ChoiceOption → List Sym
  | type _ none | optional => []
  | type _ (some (_, cond)) | prompt _ cond => optSyms cond
  | default sym cond => optSyms cond ++ [sym]
  | depends dep => dep.syms

/-- The symbols written in a block, without the choices. -/
def Block.lookups : Block → List Sym
  | nil => []
  | config name _ options next => .config name :: options.flatMap (·.lookups) ++ next.lookups
  | comment _ deps next => deps.flatMap (·.syms) ++ next.lookups
  | menu _ deps body next => deps.flatMap (·.syms) ++ body.lookups ++ next.lookups
  | cond dep body next => dep.syms ++ body.lookups ++ next.lookups
  | choice _ options body next =>
    options.flatMap (·.lookups) ++ body.lookups ++ next.lookups

/-- What `conf_parse` reads: the statements, and the environment `sym_init` looks at. -/
structure ParsedTree where
  block : Block
  version : Option Text := none
  targetArch : Option Text := none
  /-- `sym_lookup(NULL, 0)` makes a new symbol each time. -/
  choices_nodup : block.choices.Nodup
  /-- `sym_lookup` returns no choice for a name. -/
  named : ∀ s ∈ block.lookups, s.isChoice = false

end Grasshopper.Kconfig
