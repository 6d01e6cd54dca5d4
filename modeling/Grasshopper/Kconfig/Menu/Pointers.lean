import Grasshopper.Kconfig.Menu.Build
import Grasshopper.Kconfig.Menu.Finalize

/-! # `menu_finalize` on the entries as they are linked

The same function as in `Menu.Finalize` with the pointers it reads and writes: the loops over a
`next` chain change the chain they go along. Every loop and every call takes fuel.
-/

namespace Grasshopper.Kconfig

open Links (Heap Walk)

/-! ## The tree after parsing -/

/-- `rootmenu` has a prompt without a condition. -/
def rootEntry : Entry :=
  ⟨none, none, [⟨none, .menu, some "Buildroot Configuration".toList, none, .null⟩]⟩

/-- The actions of a block. -/
def Block.build : Block → MenuBuilder Entry → MenuBuilder Entry
  | nil, b => b
  | config name menuconfig options next, b =>
    next.build (b.menuAddEntry (configEntry menuCheckDep name menuconfig options))
  | comment text deps next, b => next.build (b.menuAddEntry (commentEntry menuCheckDep text deps))
  | menu text deps body next, b =>
    next.build (body.build (b.menuAddEntry (menuEntry menuCheckDep text deps)).menuAddMenu).menuEndMenu
  | cond dep body next, b =>
    next.build (body.build (b.menuAddEntry (condEntry menuCheckDep dep)).menuAddMenu).menuEndMenu
  | choice k options body next, b =>
    next.build
      (body.build (b.menuAddEntry (choiceEntry menuCheckDep k options)).menuAddMenu).menuEndMenu

/-! ## The loops -/

/-- The entries, the state outside them, and the calls of `menu_finalize` so far. -/
structure EntryState where
  menus : Heap Entry
  fin : FinState
  called : List ℕ

/-- The symbol of the first entry with one. -/
def firstSymbolAt (h : Heap Entry) : ℕ → Option ℕ → Option (Option Sym)
  | 0, _ => none
  | _ + 1, none => some none
  | fuel + 1, some menu =>
    match (h menu).data.sym with
    | some s => some (some s)
    | none => firstSymbolAt h fuel (h menu).next

/-- "find the first choice value and find out choice type". -/
def setChoiceTypeAt (fuel : ℕ) (sym : Option Sym) (list : Option ℕ) (st : EntryState) :
    Option EntryState :=
  match sym with
  | none => some st
  | some s =>
    if s.isChoice then do
      match ← firstSymbolAt st.menus fuel list with
      | none => some st
      | some m =>
        let σ := st.fin.setType s (st.fin.type m)
        some { st with fin := σ.setType m (σ.type s) }
    else some st

/-- The loop over the entries of a menu: their conditions become final. -/
def finalizeEntriesAt (parentdep : Option Expr) : ℕ → Option ℕ → EntryState → Option EntryState
  | 0, _, _ => none
  | _ + 1, none, st => some st
  | fuel + 1, some menu, st =>
    let (e, σ) := finalizeEntry parentdep (st.menus menu).data st.fin
    let st := { st with menus := st.menus.setData menu e, fin := σ }
    finalizeEntriesAt parentdep fuel (st.menus menu).next st

/-- Every entry of a chain gets a parent; the last one is found. -/
def setParents (parent : ℕ) : ℕ → ℕ → Heap Entry → Option (Heap Entry × ℕ)
  | 0, _, _ => none
  | fuel + 1, lastMenu, h =>
    let h := h.setParent lastMenu (some parent)
    match (h lastMenu).next with
    | none => some (h, lastMenu)
    | some menu => setParents parent fuel menu h

/-- What is under an entry, up to `last_menu`, comes after it. -/
def spliceAfter (menu lastMenu : ℕ) (h : Heap Entry) : Heap Entry :=
  let h := h.setNext lastMenu (h menu).next
  let h := h.setNext menu (h menu).list
  h.setList menu none

/-- The last loop over the entries under a menu. What is under an entry without a prompt is linked
in after it, and comes next. -/
def liftEntriesAt (sym : Option Sym) (parent : ℕ) : ℕ → Option ℕ → EntryState → Option EntryState
  | 0, _, _ => none
  | _ + 1, none, st => some st
  | fuel + 1, some menu, st =>
    let e := (st.menus menu).data
    let st := { st with fin := addChoiceValue sym e st.fin }
    match (st.menus menu).list, e.prompt with
    | some first, none => do
      let (h, lastMenu) ← setParents parent fuel first st.menus
      let h := spliceAfter menu lastMenu h
      liftEntriesAt sym parent fuel (h menu).next { st with menus := h }
    | _, _ => liftEntriesAt sym parent fuel (st.menus menu).next st

/-- The entries after `parent` up to `last_menu` go under it. -/
def moveUnder (parent lastMenu : ℕ) (h : Heap Entry) : Heap Entry :=
  let h := h.setList parent (h parent).next
  let h := h.setNext parent (h lastMenu).next
  h.setNext lastMenu none

/-- `if (last_menu)`. -/
def moveLast (parent : ℕ) (lastMenu : Option ℕ) (st : EntryState) : EntryState :=
  match lastMenu with
  | none => st
  | some lastMenu => { st with menus := moveUnder parent lastMenu st.menus }

section Finalize
variable (optional : ℕ → Bool)

mutual

/-- `menu_finalize`. -/
def menuFinalizeAt : ℕ → ℕ → EntryState → Option EntryState
  | 0, _, _ => none
  | fuel + 1, parent, st => do
    let st := { st with called := st.called ++ [parent] }
    let e := (st.menus parent).data
    let st ←
      match (st.menus parent).list, e.sym with
      | some first, sym => do
        let st ← setChoiceTypeAt fuel sym (some first) st
        let st ← finalizeEntriesAt (parentDep e) fuel (some first) st
        finalizeListAt fuel (st.menus parent).list st
      | none, none => some st
      | none, some s => do
        let basedep := comparedDep st.fin.type (e.prompt.bind (·.visible))
        let (st, lastMenu) ← nestEntriesAt fuel parent s basedep (st.menus parent).next none st
        some (moveLast parent lastMenu st)
    let st ← liftEntriesAt e.sym parent fuel (st.menus parent).list st
    some { st with fin := addChoiceRevDep optional (st.menus parent).data st.fin }

/-- `menu_finalize` on every entry of a chain. -/
def finalizeListAt : ℕ → Option ℕ → EntryState → Option EntryState
  | 0, _, _ => none
  | _ + 1, none, st => some st
  | fuel + 1, some menu, st => do
    let st ← menuFinalizeAt fuel menu st
    finalizeListAt fuel (st.menus menu).next st

/-- The loop over the entries that follow an entry with symbol `sym`, with `last_menu`. -/
def nestEntriesAt : ℕ → ℕ → Sym → Expr → Option ℕ → Option ℕ → EntryState →
    Option (EntryState × Option ℕ)
  | 0, _, _, _, _, _, _ => none
  | _ + 1, _, _, _, none, lastMenu, st => some (st, lastMenu)
  | fuel + 1, parent, sym, basedep, some menu, lastMenu, st =>
    if nests st.fin.type sym basedep (st.menus menu).data.condition then do
      let st ← menuFinalizeAt fuel menu st
      let st := { st with menus := st.menus.setParent menu (some parent) }
      nestEntriesAt fuel parent sym basedep (st.menus menu).next (some menu) st
    else some (st, lastMenu)

end

end Finalize

namespace ParsedTree

/-- The entries and pointers when `conf_parse` calls `menu_finalize`. -/
def built (t : ParsedTree) : MenuBuilder Entry := t.block.build (menuInit rootEntry)

/-- `menu_finalize(&rootmenu)`. -/
def finalizeAt (t : ParsedTree) (fuel : ℕ) : Option EntryState :=
  menuFinalizeAt t.optional fuel rootmenu ⟨t.built.menus, t.initial, []⟩

end ParsedTree

/-- Where the walk of `conf_write` begins: at `rootmenu.list`. -/
def confWriteStart (h : Heap Entry) : Walk :=
  match (h rootmenu).list with
  | some menu => ⟨.visit menu, []⟩
  | none => ⟨.above none, []⟩

end Grasshopper.Kconfig
