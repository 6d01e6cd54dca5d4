import Mathlib.Data.List.DropRight
import Grasshopper.Library.Program
import Grasshopper.Kconfig.Menu.Visible
import Grasshopper.Kconfig.Confdata.Read

/-! # The walks of `conf.c`

The question walk `conf` and the walk `check_conf` that looks for options without a value. What is
printed is left out. Entries are numbered in the order of the walk, the root menu with `0`.
-/

namespace Grasshopper.Kconfig

/-- `input_mode`. -/
inductive InputMode where
  | askAll | askNew | askSilent | setDefault | setYes | setMod | setNo | setRandom
deriving DecidableEq

namespace Conf

/-- The symbols, the variables of `conf.c`, and what comes from outside. -/
structure World where
  st : State
  inputMode : InputMode
  validStdin : Bool
  /-- What can still be read from `stdin`. -/
  stdin : Text
  /-- What `random` is going to return. -/
  random : ℕ → ℕ
  confCnt : ℕ
  /-- The number of the entry. -/
  rootEntry : Option ℕ

/-- What one of the `while (1)` loops is about. -/
inductive Question where
  | string (s : Sym)
  | sym (s : Sym)
  | choice (s : Sym) (list : Menus)

inductive Event where
  /-- A `while (1)` loop begins. -/
  | asks (q : Question) (w : World)
  /-- `check_conf` calls `conf`. -/
  | restarts (i : ℕ) (menu : Menus) (w : World)

abbrev Walk := Program World Event

open Program

/-- A call that works on the symbols. -/
def onState {α : Type} (f : State → α × State) : Walk α :=
  step fun w => ((f w.st).1, { w with st := (f w.st).2 })

/-- `if` without `else`. -/
def when (c : Prop) [Decidable c] (p : Walk Unit) : Walk Unit := if c then p else pure ()

/-- `sym_is_changable`. -/
def symIsChangable (s : Sym) (st : State) : Bool := decide (st.revTri s < st.visible s)

/-! ## Answers -/

/-- `fgets(line, 128, stdin)`; at the end of the file the line stays what it was. -/
def getLine (line : Text) : Walk Text := step fun w =>
  match w.stdin with
  | [] => (line, w)
  | c :: text => (cString (fgets 127 (c :: text)).1, { w with stdin := (fgets 127 (c :: text)).2 })

/-- `random()`. -/
def draw : Walk ℕ := step fun w => (w.random 0, { w with random := fun n => w.random (n + 1) })

/-- `strip`. -/
def strip (str : Text) : Text := (str.dropWhile isSpace).rdropWhile isSpace

/-- `check_stdin`. -/
def checkStdin : Walk Unit := do
  let w ← getState
  when (w.validStdin = false ∧ w.inputMode = .askSilent) exit

section Questions
variable (cfg : Config)

/-- The tristate with a number. -/
def tristateOf (n : ℕ) : Tristate := if n % 3 = 0 then .no else if n % 3 = 1 then .mod else .yes

/-- The `do` loop over `random`. -/
def randomTri (s : Sym) : Walk Tristate := loop do
  let val ← draw
  let w ← getState
  pure (if symTristateWithinRange cfg s (tristateOf val) w.st then some (tristateOf val) else none)

/-- The values that the modes `set_yes`, `set_mod` and `set_no` try, in order; each mode falls
through to the next. -/
def modeValues (mode : InputMode) (type : SymType) : List Tristate :=
  let setMod := [if type = .tristate then .mod else .yes, .no]
  match mode with
  | .setYes => .yes :: setMod
  | .setMod => setMod
  | .setNo => [.no]
  | _ => []

/-- The first of them that is in the range of the symbol. -/
def modeTri (s : Sym) (mode : InputMode) (st : State) : Option Tristate :=
  (modeValues mode (cfg.symGetType st s)).find? fun val => symTristateWithinRange cfg s val st

/-- `conf_askvalue`, for what is in `line` after it. -/
def confAskvalue (s : Sym) : Walk Text := do
  let w ← getState
  if symIsChangable s w.st = false then pure ['\n']
  else match w.inputMode with
    | .askNew | .askSilent =>
      if w.st.isNew s = false then pure ['\n']
      else do
        checkStdin
        getLine ['\n']
    | .askAll => getLine ['\n']
    | .setDefault => pure ['\n']
    | mode =>
      if (cfg.symGetType w.st s).isText then pure ['\n']
      else match modeTri cfg s mode w.st with
        | some val => pure (val.letter ++ ['\n'])
        | none => do
          let val ← randomTri cfg s
          pure (val.letter ++ ['\n'])

/-- `sym_get_string_value`, which may be `NULL`. -/
def stringValue? (s : Sym) (st : State) : Option Text :=
  if ¬(cfg.type s).isLogic ∧ (st.curr s).val = .null then none
  else some (symGetStringValue cfg.type st.curr s)

/-- The `switch` over the answer in `conf_string`: the value to be set. -/
def stringAnswer (dflt : Option Text) : Text → Option Text
  | '\n' :: _ => dflt
  | '?' :: '\n' :: _ => none
  | line => some line.dropLast

/-- `conf_string`. -/
def confString (s : Sym) : Walk Unit := do
  let w ← getState
  report (.asks (.string s) w)
  loop do
    let w ← getState
    let line ← confAskvalue cfg s
    match stringAnswer (stringValue? cfg s w.st) line with
    | none => pure none
    | some value => do
      let ok ← onState (symSetStringValue cfg s value)
      pure (if ok then some () else none)

/-- The `switch` over the answer in `conf_sym`: the value to be set. -/
def symAnswer (oldval : Tristate) : Text → Option Tristate
  | [] => some oldval
  | ['n'] | ['N'] | ['n', 'o'] | ['N', 'o'] => some .no
  | ['m'] | ['M'] => some .mod
  | ['y'] | ['Y'] | ['y', 'e', 's'] | ['Y', 'e', 's'] => some .yes
  | _ => none

/-- `conf_sym`. -/
def confSym (s : Sym) : Walk Unit := do
  let w ← getState
  report (.asks (.sym s) w)
  loop do
    let w ← getState
    let line ← confAskvalue cfg s
    match symAnswer (w.st.curr s).tri (strip line) with
    | none => pure none
    | some newval => do
      let ok ← onState (symSetTristateValue cfg s newval)
      pure (if ok then some () else none)

/-- The `switch` over the type in `conf`. -/
def confOption (s : Sym) : Walk Unit :=
  if (cfg.type s).isText then confString cfg s else confSym cfg s

/-! ## Choices -/

/-- The loop that prints the children of a choice: how many there are, and the number of the
selected one. -/
def countChilds (defSym : Val) : Menus → ℕ → ℕ → State → (ℕ × ℕ) × State
  | .nil, cnt, dflt, st => ((cnt, dflt), st)
  | .node e l n, cnt, dflt, st =>
    match menuIsVisible cfg (.node e l n) st, e.sym with
    | (true, st), some s =>
      countChilds defSym n (cnt + 1) (if defSym = .sym s then cnt + 1 else dflt) st
    | (_, st), _ => countChilds defSym n cnt dflt st

/-- The loop after `conf_childs`: the place in the list of the child with a number, and its
symbol. -/
def findChild : Menus → ℕ → ℤ → State → Option (ℕ × Sym) × State
  | .nil, _, _, st => (none, st)
  | .node e l n, pos, cnt, st =>
    match e.sym with
    | none => findChild n (pos + 1) cnt st
    | some s =>
      match menuIsVisible cfg (.node e l n) st with
      | (false, st) => findChild n (pos + 1) cnt st
      | (true, st) => if cnt - 1 = 0 then (some (pos, s), st) else findChild n (pos + 1) (cnt - 1) st

/-- `atoi`. -/
def atoi (str : Text) : ℤ := toInt32 (strtol 10 str)

/-- An answer that was typed: the number and the line, or nothing where the loop goes on. -/
def typedChoice (dflt : ℕ) : Walk (Option (ℤ × Text)) := do
  let line ← getLine ['0']
  let line := strip line
  pure (match line with
    | [] => some (dflt, [])
    | c :: _ => if isDigit c then some (atoi line, line) else none)

/-- The `switch` over `input_mode` in `conf_choice`. -/
def choiceAnswer (isNew : Bool) (cnt dflt : ℕ) : Walk (Option (ℤ × Text)) := do
  let w ← getState
  match w.inputMode with
  | .askNew | .askSilent =>
    if isNew = false then pure (some (dflt, ['0']))
    else do
      checkStdin
      typedChoice dflt
  | .askAll => typedChoice dflt
  | .setRandom =>
    -- a division by zero
    if cnt = 0 then exit
    else do
      let n ← draw
      pure (some (((n % cnt + 1 : ℕ) : ℤ), ['0']))
  | _ => pure (some (dflt, ['0']))

/-- `conf_childs` in `conf_choice`. `below` calls `conf` for what is under each child. -/
def chooseChild (list : Menus) (below : List (Walk Unit)) (cnt : ℤ) (line : Text) :
    Walk (Option Unit) := do
  match ← onState (findChild cfg list 0 cnt) with
  | none => pure none
  | some (pos, child) =>
    if line.getLast? = some '?' then pure none
    else do
      let _ ← onState (symSetTristateValue cfg child .yes)
      below.getD pos (pure ())
      pure (some ())

/-- The `while (1)` loop of `conf_choice`. -/
def choiceLoop (s : Sym) (isNew : Bool) (list : Menus) (below : List (Walk Unit)) : Walk Unit :=
  loop do
    let w ← getState
    let (cnt, dflt) ← onState (countChilds cfg (w.st.curr s).val list 0 0)
    if cnt = 1 then chooseChild cfg list below 1 ['0']
    else match ← choiceAnswer isNew cnt dflt with
      | none => pure none
      | some (cnt, line) => chooseChild cfg list below cnt line

/-- `conf_choice`. -/
def confChoice (s : Sym) (list : Menus) (below : List (Walk Unit)) : Walk Unit := do
  let w₀ ← getState
  when (symIsChangable s w₀.st) do
    confSym cfg s
    onState fun st => ((), symCalcValue cfg s st)
  let w ← getState
  when ((w.st.curr s).tri = .yes) do
    report (.asks (.choice s list) w)
    choiceLoop cfg s (w₀.st.isNew s) list below

end Questions

/-! ## The walks -/

/-- The entry begins a menu. -/
def isMenu (e : Entry) : Bool := e.prompt.any fun p => p.type = .menu

section Walks
variable (cfg : Config)

section Conf
variable (check : ℕ → Menus → Walk Unit)

/-- `conf` on an entry with number `i`, where `all` is the loop over what is under it, and `below`
what `conf_choice` may do there. -/
def confEntry (i : ℕ) (e : Entry) (l n : Menus) (all : Walk Unit) (below : List (Walk Unit)) :
    Walk Unit := do
  let visible ← onState (menuIsVisible cfg (.node e l n))
  let w ← getState
  if visible = false then pure ()
  else if isMenu e ∧ w.inputMode = .askSilent ∧ w.rootEntry ≠ some i then
    check i (.node e l n)
  else match e.sym with
    | none => all
    | some s =>
      if s.isChoice then do
        confChoice cfg s l below
        let w ← getState
        when ((w.st.curr s).tri = .mod) all
      else do
        confOption cfg s
        all

mutual

/-- `conf` on the first entry of a chain, which has number `i`. -/
def conf : ℕ → Menus → Walk Unit
  | _, .nil => pure ()
  | i, .node e l n => confEntry cfg check i e l n (confAll (i + 1) l) (confBelow (i + 1) l)

/-- The loop over the entries of a menu. -/
def confAll : ℕ → Menus → Walk Unit
  | _, .nil => pure ()
  | i, .node e l n => do
    confEntry cfg check i e l n (confAll (i + 1) l) (confBelow (i + 1) l)
    confAll (i + 1 + l.size) n

/-- `conf(child->list)` for the children of a choice. -/
def confBelow : ℕ → Menus → List (Walk Unit)
  | _, .nil => []
  | i, .node _ l n => conf (i + 1) l :: confBelow (i + 1 + l.size) n

end

end Conf

section Check
variable (ask : ℕ → Menus → Walk Unit)

/-- `rootEntry = menu_get_parent_menu(menu)` and `conf(rootEntry)`. -/
def restart (parent : ℕ × Menus) : Walk Unit := do
  modifyState fun w => { w with confCnt := w.confCnt + 1, rootEntry := some parent.1 }
  let w ← getState
  report (.restarts parent.1 parent.2 w)
  ask parent.1 parent.2

/-- `check_conf` on an entry with number `i`, where `all` is the loop over what is under it and
`parent` the menu it is in. -/
def checkEntry (parent : ℕ × Menus) (i : ℕ) (e : Entry) (l n : Menus) (all : ℕ × Menus → Walk Unit) :
    Walk Unit := do
  let visible ← onState (menuIsVisible cfg (.node e l n))
  if visible = false then pure ()
  else
    let parent := if isMenu e then (i, .node e l n) else parent
    match e.sym with
    | none => all parent
    | some s => do
      let w ← getState
      when (symIsChangable s w.st ∧ w.st.isNew s) (restart ask parent)
      let w ← getState
      when (¬(s.isChoice ∧ (w.st.curr s).tri ≠ .mod)) (all parent)

/-- The loop over the entries of a menu; the first has number `i`. -/
def checkAll : Menus → ℕ × Menus → ℕ → Walk Unit
  | .nil, _, _ => pure ()
  | .node e l n, parent, i => do
    checkEntry cfg ask parent i e l n fun parent => checkAll l parent (i + 1)
    checkAll n parent (i + 1 + l.size)

/-- `check_conf` on the first entry of a chain. -/
def checkConf (parent : ℕ × Menus) (i : ℕ) : Menus → Walk Unit
  | .nil => pure ()
  | .node e l n => checkEntry cfg ask parent i e l n fun parent => checkAll cfg ask l parent (i + 1)

end Check

/-- `conf`, with fuel for the calls of `check_conf`: each is about a menu inside the last. -/
def confAt : ℕ → ℕ → Menus → Walk Unit
  | 0, _, _ => diverge
  | d + 1, i, m => conf cfg (fun i m => checkConf cfg (confAt d) (i, m) i m) i m

/-- `rootmenu`. -/
def rootMenu : Menus :=
  .node ⟨none, none, [⟨none, .menu, some "Buildroot Configuration".toList, none, .null⟩]⟩ cfg.menus
    .nil

/-- `conf(&rootmenu)` and the calls of `conf` from `check_conf`. -/
def confMenu (i : ℕ) (m : Menus) : Walk Unit := confAt cfg (cfg.menus.size + 2) i m

/-- `check_conf(&rootmenu)`. -/
def checkRoot : Walk Unit := checkConf cfg (confMenu cfg) (0, rootMenu cfg) 0 (rootMenu cfg)

/-- The `do` loop of `main`. -/
def checkLoop : Walk Unit := loop do
  modifyState fun w => { w with confCnt := 0 }
  checkRoot cfg
  let w ← getState
  pure (if w.confCnt = 0 then some () else none)

/-- `main`, after the configuration is read and before it is written. -/
def configure : Walk Unit := do
  let w ← getState
  when (w.inputMode ≠ .askSilent) do
    modifyState fun w => { w with rootEntry := some 0 }
    confMenu cfg 0 (rootMenu cfg)
    modifyState fun w =>
      if w.inputMode = .askAll then { w with inputMode := .askSilent, validStdin := true } else w
  checkLoop cfg

end Walks

end Conf

end Grasshopper.Kconfig
