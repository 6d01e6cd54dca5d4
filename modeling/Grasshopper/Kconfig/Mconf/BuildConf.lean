import Grasshopper.Kconfig.Conf.Complete

/-! # The menus of `mconf.c`

`build_conf` fills the items of a menu: the text of an item is printed piece by piece into a buffer
of 512 characters, each piece where the last one ended. Entries are numbered as in the walks of
`conf.c`; the number stands for the pointer in a tag.
-/

namespace Grasshopper.Kconfig.Mconf

open Conf (symIsChangable stringValue? isMenu)

/-- The fields of `dialog_list_item` that are filled here. -/
structure Item where
  name : Text
  namelen : ℕ
  tag : Option (Char × ℕ)

/-- A call of `vsnprintf` in `cprint_name`: where it writes to, and the size it is given. -/
structure Write where
  offset : ℕ
  size : ℤ
deriving DecidableEq

/-- The call for a piece of a text. -/
def Write.piece (namelen : ℕ) : Write := ⟨namelen, 512 - namelen⟩

/-- An entry that gets an item of its own, as `build_conf` finds it. -/
structure Shown where
  entry : Entry
  /-- `menu == current_menu` -/
  current : Bool
  indent : ℕ
  type : SymType
  /-- `def_menu` -/
  defMenu : Option Entry
  st : State

/-- The symbols and the static variables of `mconf.c`, the newest item first, with what has been
written and shown so far. -/
structure World where
  st : State
  items : List Item
  indent : ℕ
  childCount : ℕ
  writes : List Write
  shown : List Shown

/-- The variables that a call of `build_conf` does not change. -/
structure Mode where
  singleMenuMode : Bool
  currentMenu : ℕ
  /-- `menu->data` -/
  data : ℕ → Bool

namespace World

def cmake (w : World) : World := { w with items := ⟨[], 0, none⟩ :: w.items }

/-- The start of `cprint_name` and `cprint_tag`. -/
def ensure (w : World) : World := if w.items.isEmpty then w.cmake else w

/-- `cprint_name`, for the text that its format makes: the buffer keeps what fits. -/
def cprintName (text : Text) (w : World) : World :=
  match w.ensure.items with
  | [] => w
  | item :: items =>
    { w with
      items := { item with
        name := (item.name ++ text).take 511
        namelen := item.namelen + text.length } :: items
      writes := w.writes ++ [.piece item.namelen] }

def cprintTag (c : Char) (i : ℕ) (w : World) : World :=
  match w.ensure.items with
  | [] => w
  | item :: items => { w with items := { item with tag := some (c, i) } :: items }

def countChild (w : World) : World := { w with childCount := w.childCount + 1 }

/-- The entry that the last item is for. -/
def note (e : Entry) (current : Bool) (type : SymType) (defMenu : Option Entry) (w : World) :
    World :=
  { w with shown := w.shown ++ [⟨e, current, w.indent, type, defMenu, w.st⟩] }

/-- `indent += n`, a walk, `indent -= n`. -/
def indented (n : ℕ) (walk : World → World) (w : World) : World :=
  let w := walk { w with indent := w.indent + n }
  { w with indent := w.indent - n }

end World

/-- `%*c` with a blank: at least one. -/
def blanks (width : ℕ) : Text := List.replicate (max width 1) ' '

/-- `%s`, which glibc prints for `NULL` too. -/
def percentS (str : Option Text) : Text := str.getD ['(', 'n', 'u', 'l', 'l', ')']

/-- `menu_get_prompt`. -/
def menuGetPrompt (e : Entry) : Option Text :=
  match e.prompt with
  | some p => p.text
  | none => e.sym.bind Sym.name?

/-- `sym_get_choice_value`, which is compared with the symbols of entries. -/
def isChoiceSym (v : Val) (sym : Option Sym) : Bool :=
  match v, sym with
  | .null, none => true
  | .sym s, some s' => s = s'
  | _, _ => false

/-- `(sym_has_value(sym) || !sym_is_changable(sym)) ? "" : " (NEW)"`. -/
def newMark (st : State) (s : Sym) : Text :=
  if st.isNew s = false ∨ symIsChangable s st = false then [] else [' ', '(', 'N', 'E', 'W', ')']

/-- `val == no ? ' ' : '*'`. -/
def boolMark (val : Tristate) : Char := if val = .no then ' ' else '*'

/-- The `switch` over a tristate value. -/
def triMark : Tristate → Char
  | .yes => '*'
  | .mod => 'M'
  | .no => ' '

def arrow : Text := [' ', ' ', '-', '-', '-', '>']

/-- `def_menu`: its place among the children, its entry, and whether there is something under
it. -/
structure DefMenu where
  pos : ℕ
  child : Entry
  list : Bool

section Build
variable (cfg : Config)

/-- The loop over the children of a choice. -/
def findDefMenu (v : Val) : Menus → ℕ → Option DefMenu → State → Option DefMenu × State
  | .nil, _, found, st => (found, st)
  | .node e l n, pos, found, st =>
    match menuIsVisible cfg (.node e l n) st with
    | (true, st) =>
      findDefMenu v n (pos + 1)
        (if isChoiceSym v e.sym then some ⟨pos, e, decide (l ≠ .nil)⟩ else found) st
    | (false, st) => findDefMenu v n (pos + 1) found st

/-- The part of `build_conf` about an entry without a symbol. -/
def buildPlain (mode : Mode) (i : ℕ) (e : Entry) (all : World → World) (w : World) : World :=
  match e.prompt with
  | none => World.indented 0 all w
  | some prop =>
    if i = mode.currentMenu then World.indented 0 all w
    else if prop.type = .menu then
      let w := (w.countChild.cmake.cprintTag 'm' i).note e false .unknown none
      let prompt := percentS (menuGetPrompt e)
      let w :=
        if mode.singleMenuMode then
          w.cprintName ((if mode.data i then ['-', '-', '>'] else ['+', '+', '>']) ++
            blanks (w.indent + 1) ++ prompt)
        else w.cprintName ([' ', ' ', ' '] ++ blanks (w.indent + 1) ++ prompt ++ arrow)
      if mode.singleMenuMode ∧ mode.data i then World.indented 2 all w else w
    else
      match menuGetPrompt e with
      | none => World.indented 2 all w
      | some prompt =>
        let w := (w.countChild.cmake.cprintTag ':' i).note e false .unknown none
        World.indented 2 all
          (w.cprintName (['-', '-', '-'] ++ blanks (w.indent + 1) ++ prompt))

/-- The mark in front of the prompt of a choice. -/
def choiceMark (i : ℕ) (type : SymType) (s : Sym) (member : Bool) (w : World) : World :=
  let val := (w.st.curr s).tri
  if symIsChangable s w.st then
    let w := w.cprintTag 't' i
    match type with
    | .boolean => w.cprintName ['[', boolMark val, ']']
    | .tristate => w.cprintName ['<', triMark val, '>']
    | _ => w
  else (w.cprintTag (if member then 't' else ':') i).cprintName [' ', ' ', ' ']

/-- The part of `build_conf` about a choice: `below` calls `build_conf` for each child. -/
def buildChoice (i : ℕ) (e : Entry) (s : Sym) (l : Menus) (all : World → World)
    (below : List (World → World)) (w : World) : World :=
  let w := w.cmake
  let type := cfg.symGetType w.st s
  let w := w.countChild
  let (found, st) := findDefMenu cfg (w.st.curr s).val l 0 none w.st
  let w := { w with st := st }.note e false type (found.map DefMenu.child)
  let val := (w.st.curr s).tri
  let w := choiceMark i type s found.isSome w
  let w := w.cprintName (blanks (w.indent + 1) ++ percentS (menuGetPrompt e))
  if val = .yes then
    match found with
    | none => w
    | some d =>
      let w := w.cprintName ([' ', '('] ++ percentS (menuGetPrompt d.child) ++ [')'])
      let w := w.cprintName arrow
      if d.list then World.indented 2 (below.getD d.pos id) w else w
  else World.indented 2 all w

/-- The mark in front of the prompt of an option that is no text. -/
def logicMark (type : SymType) (s : Sym) (st : State) : Text :=
  let val := (st.curr s).tri
  if cfg.isChoiceValue s ∧ val = .yes then [' ', ' ', ' ']
  else if symIsChangable s st = false then ['-', '-', '-']
  else if type = .tristate then ['<', triMark val, '>']
  else ['[', boolMark val, ']']

/-- The option is shown with its text. -/
def ShowsText (type : SymType) (s : Sym) (st : State) : Prop :=
  ¬(cfg.isChoiceValue s ∧ (st.curr s).tri = .yes) ∧ type ≠ .boolean ∧ type ≠ .tristate

instance (type : SymType) (s : Sym) (st : State) : Decidable (ShowsText cfg type s st) :=
  inferInstanceAs (Decidable (_ ∧ _))

/-- The part of `build_conf` about an option. -/
def buildOption (mode : Mode) (i : ℕ) (e : Entry) (s : Sym) (all : World → World) (w : World) :
    World :=
  let w := w.cmake
  let type := cfg.symGetType w.st s
  let w := w.note e (decide (i = mode.currentMenu)) type none
  let prompt := percentS (menuGetPrompt e)
  if i = mode.currentMenu then
    World.indented 2 all
      ((w.cprintTag ':' i).cprintName (['-', '-', '-'] ++ blanks (w.indent + 1) ++ prompt))
  else
    let w := w.countChild
    if ShowsText cfg type s w.st then
      let value := ['('] ++ percentS (stringValue? cfg s w.st) ++ [')']
      let w := (w.cprintTag 's' i).cprintName value
      World.indented 2 all
        (w.cprintName (blanks (w.indent + 4 - value.length) ++ prompt ++ newMark w.st s))
    else
      let tag := if cfg.isChoiceValue s ∧ (w.st.curr s).tri = .yes then ':' else 't'
      let w := (w.cprintTag tag i).cprintName (logicMark cfg type s w.st)
      let w := w.cprintName (blanks (w.indent + 1) ++ prompt ++ newMark w.st s)
      if isMenu e then w.cprintName arrow else World.indented 2 all w

/-- `build_conf` on an entry with number `i`, where `all` is the loop over what is under it and
`below` calls `build_conf` for each entry there. -/
def buildEntry (mode : Mode) (i : ℕ) (e : Entry) (l n : Menus) (all : World → World)
    (below : List (World → World)) (w : World) : World :=
  let (visible, st) := menuIsVisible cfg (.node e l n) w.st
  let w := { w with st := st }
  if visible = false then w
  else
    match e.sym with
    | none => buildPlain mode i e all w
    | some s =>
      if s.isChoice then buildChoice cfg i e s l all below w else buildOption cfg mode i e s all w

variable (mode : Mode)

mutual

/-- `build_conf` on the first entry of a chain, which has number `i`. -/
def buildConf : ℕ → Menus → World → World
  | _, .nil => id
  | i, .node e l n =>
    buildEntry cfg mode i e l n (buildAll (i + 1) l) (buildBelow (i + 1) l)

/-- The loop over the entries of a menu. -/
def buildAll : ℕ → Menus → World → World
  | _, .nil => id
  | i, .node e l n => fun w =>
    buildAll (i + 1 + l.size) n
      (buildEntry cfg mode i e l n (buildAll (i + 1) l) (buildBelow (i + 1) l) w)

/-- `build_conf` for each entry of a menu. -/
def buildBelow : ℕ → Menus → List (World → World)
  | _, .nil => []
  | i, .node e l n =>
    buildEntry cfg mode i e l n (buildAll (i + 1) l) (buildBelow (i + 1) l) ::
      buildBelow (i + 1 + l.size) n

end

/-! ## When the texts fit -/

/-- The write is within the buffer, and is given what is left of it. -/
def Write.Inside (x : Write) : Prop := x.offset < 512 ∧ x.size = 512 - x.offset ∧ 0 < x.size

/-- The length of the mark of a choice, which has none if its type is not known. -/
def markLength (type : SymType) (s : Sym) (st : State) : ℕ :=
  if symIsChangable s st ∧ ¬type.isLogic then 0 else 3

/-- What is printed before the last piece is shorter than the buffer. -/
def Shown.Fits (x : Shown) : Prop :=
  let prompt := (percentS (menuGetPrompt x.entry)).length
  match x.entry.sym with
  | none => True
  | some s =>
    if s.isChoice then
      match x.defMenu with
      | none => True
      | some child =>
        (x.st.curr s).tri = .yes →
          markLength x.type s x.st + (x.indent + 1) + prompt +
            ((percentS (menuGetPrompt child)).length + 3) < 512
    else if x.current then True
    else if ShowsText cfg x.type s x.st then (percentS (stringValue? cfg s x.st)).length + 2 < 512
    else isMenu x.entry → 3 + (x.indent + 1) + prompt + (newMark x.st s).length < 512

end Build

/-! ## The pieces of an item -/

namespace World
variable {w : World}

/-- The place in the buffer of the last item. -/
def namelen (w : World) : ℕ := (w.items.head?.map Item.namelen).getD 0

@[simp] theorem namelen_cmake : w.cmake.namelen = 0 := rfl
@[simp] theorem writes_cmake : w.cmake.writes = w.writes := rfl
@[simp] theorem shown_cmake : w.cmake.shown = w.shown := rfl
@[simp] theorem indent_cmake : w.cmake.indent = w.indent := rfl
@[simp] theorem st_cmake : w.cmake.st = w.st := rfl
@[simp] theorem namelen_countChild : w.countChild.namelen = w.namelen := rfl
@[simp] theorem writes_countChild : w.countChild.writes = w.writes := rfl
@[simp] theorem shown_countChild : w.countChild.shown = w.shown := rfl
@[simp] theorem indent_countChild : w.countChild.indent = w.indent := rfl
@[simp] theorem st_countChild : w.countChild.st = w.st := rfl

section Note
variable {e : Entry} {current : Bool} {type : SymType} {defMenu : Option Entry}

@[simp] theorem namelen_note : (w.note e current type defMenu).namelen = w.namelen := rfl
@[simp] theorem writes_note : (w.note e current type defMenu).writes = w.writes := rfl
@[simp] theorem indent_note : (w.note e current type defMenu).indent = w.indent := rfl
@[simp] theorem st_note : (w.note e current type defMenu).st = w.st := rfl
@[simp] theorem shown_note : (w.note e current type defMenu).shown =
    w.shown ++ [⟨e, current, w.indent, type, defMenu, w.st⟩] := rfl

end Note

/-- There is an item to print into. -/
theorem exists_ensure (w : World) :
    ∃ item items, w.ensure.items = item :: items ∧ item.namelen = w.namelen := by
  unfold ensure namelen
  cases hitems : w.items with
  | nil => exact ⟨_, _, rfl, rfl⟩
  | cons item items => exact ⟨item, items, by simp [hitems], by simp⟩

section Print
variable {text : Text} {c : Char} {i : ℕ}

@[simp] theorem writes_cprintName :
    (w.cprintName text).writes = w.writes ++ [.piece w.namelen] := by
  obtain ⟨item, items, hitems, hlen⟩ := w.exists_ensure
  simp only [cprintName, hitems, hlen]

@[simp] theorem namelen_cprintName :
    (w.cprintName text).namelen = w.namelen + text.length := by
  obtain ⟨item, items, hitems, hlen⟩ := w.exists_ensure
  simp only [cprintName, hitems, namelen, List.head?_cons, Option.map_some, Option.getD_some]
  rw [hlen, namelen]

@[simp] theorem shown_cprintName : (w.cprintName text).shown = w.shown := by
  obtain ⟨item, items, hitems, -⟩ := w.exists_ensure
  simp only [cprintName, hitems]

@[simp] theorem indent_cprintName : (w.cprintName text).indent = w.indent := by
  obtain ⟨item, items, hitems, -⟩ := w.exists_ensure
  simp only [cprintName, hitems]

@[simp] theorem st_cprintName : (w.cprintName text).st = w.st := by
  obtain ⟨item, items, hitems, -⟩ := w.exists_ensure
  simp only [cprintName, hitems]

@[simp] theorem writes_cprintTag : (w.cprintTag c i).writes = w.writes := by
  obtain ⟨item, items, hitems, -⟩ := w.exists_ensure
  simp only [cprintTag, hitems]

@[simp] theorem namelen_cprintTag : (w.cprintTag c i).namelen = w.namelen := by
  obtain ⟨item, items, hitems, hlen⟩ := w.exists_ensure
  simp only [cprintTag, hitems, namelen, List.head?_cons, Option.map_some, Option.getD_some]
  rw [hlen, namelen]

@[simp] theorem shown_cprintTag : (w.cprintTag c i).shown = w.shown := by
  obtain ⟨item, items, hitems, -⟩ := w.exists_ensure
  simp only [cprintTag, hitems]

@[simp] theorem indent_cprintTag : (w.cprintTag c i).indent = w.indent := by
  obtain ⟨item, items, hitems, -⟩ := w.exists_ensure
  simp only [cprintTag, hitems]

@[simp] theorem st_cprintTag : (w.cprintTag c i).st = w.st := by
  obtain ⟨item, items, hitems, -⟩ := w.exists_ensure
  simp only [cprintTag, hitems]

end Print

end World

theorem Write.inside_piece (n : ℕ) : (Write.piece n).Inside ↔ n < 512 := by
  unfold Write.Inside Write.piece
  dsimp only
  omega

/-! ## The writes of a walk -/

section Walks
variable (cfg : Config)

/-- What has been written and shown from `w` to `w'`: all writes are within the buffer exactly if
all entries that were shown fit. -/
structure Adds (w w' : World) : Prop where
  exists_new : ∃ writes shown, w'.writes = w.writes ++ writes ∧ w'.shown = w.shown ++ shown ∧
    ((∀ x ∈ writes, x.Inside) ↔ ∀ x ∈ shown, x.Fits cfg)

variable {cfg}

theorem Adds.of_eq {w w' : World} (hwrites : w'.writes = w.writes) (hshown : w'.shown = w.shown) :
    Adds cfg w w' :=
  ⟨[], [], by simp [hwrites], by simp [hshown], by simp⟩

theorem Adds.trans {w₁ w₂ w₃ : World} (h : Adds cfg w₁ w₂) (h' : Adds cfg w₂ w₃) :
    Adds cfg w₁ w₃ := by
  obtain ⟨writes, shown, hw, hs, hiff⟩ := h.exists_new
  obtain ⟨writes', shown', hw', hs', hiff'⟩ := h'.exists_new
  refine ⟨writes ++ writes', shown ++ shown', ?_, ?_, ?_⟩
  · rw [hw', hw, List.append_assoc]
  · rw [hs', hs, List.append_assoc]
  · simp only [List.forall_mem_append, hiff, hiff']

/-- One entry is shown; its pieces are written at the offsets. -/
theorem Adds.of_note {w w' : World} (x : Shown) (offsets : List ℕ)
    (hwrites : w'.writes = w.writes ++ offsets.map .piece) (hshown : w'.shown = w.shown ++ [x])
    (h : (∀ n ∈ offsets, n < 512) ↔ x.Fits cfg) : Adds cfg w w' := by
  refine ⟨_, [x], hwrites, hshown, ?_⟩
  simp only [List.forall_mem_map, Write.inside_piece, List.forall_mem_singleton]
  exact h

theorem Adds.indented {w : World} {n : ℕ} {walk : World → World}
    (h : ∀ w, Adds cfg w (walk w)) : Adds cfg w (World.indented n walk w) := by
  have hin : Adds cfg w { w with indent := w.indent + n } := .of_eq rfl rfl
  have hout := h { w with indent := w.indent + n }
  exact (hin.trans hout).trans (.of_eq rfl rfl)

theorem length_blanks (n : ℕ) : (blanks (n + 1)).length = n + 1 := by
  rw [blanks, List.length_replicate]
  omega

/-- An item with a single text. -/
theorem Adds.of_single {e : Entry} {c : Char} {i : ℕ} {text : Text} (hsym : e.sym = none)
    (w : World) :
    Adds cfg w
      (((w.countChild.cmake.cprintTag c i).note e false .unknown none).cprintName text) := by
  apply Adds.of_note ⟨e, false, w.indent, .unknown, none, w.st⟩ [0]
  · simp
  · simp
  · simp [Shown.Fits, hsym]

theorem buildPlain_adds {mode : Mode} {i : ℕ} {e : Entry} {all : World → World}
    (hsym : e.sym = none) (hall : ∀ w, Adds cfg w (all w)) (w : World) :
    Adds cfg w (buildPlain mode i e all w) := by
  unfold buildPlain
  cases e.prompt with
  | none => exact Adds.indented hall
  | some prop =>
    dsimp only
    by_cases hcurrent : i = mode.currentMenu
    · rw [if_pos hcurrent]
      exact Adds.indented hall
    rw [if_neg hcurrent]
    by_cases hmenu : prop.type = .menu
    · rw [if_pos hmenu]
      cases hsingle : mode.singleMenuMode with
      | false => exact Adds.of_single hsym w
      | true =>
        cases mode.data i with
        | false => exact Adds.of_single hsym w
        | true => exact (Adds.of_single hsym w).trans (Adds.indented hall)
    · rw [if_neg hmenu]
      cases menuGetPrompt e with
      | none => exact Adds.indented hall
      | some prompt => exact (Adds.of_single hsym w).trans (Adds.indented hall)

theorem length_logicMark (type : SymType) (s : Sym) (st : State) :
    (logicMark cfg type s st).length = 3 := by
  unfold logicMark
  dsimp only
  split_ifs <;> rfl

theorem buildOption_adds {mode : Mode} {i : ℕ} {e : Entry} {s : Sym} {all : World → World}
    (hsym : e.sym = some s) (hchoice : s.isChoice = false) (hall : ∀ w, Adds cfg w (all w))
    (w : World) : Adds cfg w (buildOption cfg mode i e s all w) := by
  unfold buildOption
  simp only [World.st_note, World.st_cmake, World.st_countChild]
  by_cases hcurrent : i = mode.currentMenu
  · rw [if_pos hcurrent]
    refine Adds.trans ?_ (Adds.indented hall)
    apply Adds.of_note ⟨e, true, w.indent, cfg.symGetType w.st s, none, w.st⟩ [0]
    · simp
    · simp [hcurrent]
    · simp [Shown.Fits, hsym, hchoice]
  rw [if_neg hcurrent]
  by_cases htext : ShowsText cfg (cfg.symGetType w.st s) s w.st
  · simp only [htext, if_true]
    refine Adds.trans ?_ (Adds.indented hall)
    apply Adds.of_note ⟨e, false, w.indent, cfg.symGetType w.st s, none, w.st⟩
      [0, (percentS (stringValue? cfg s w.st)).length + 2]
    · simp
    · simp [hcurrent]
    · simp [Shown.Fits, hsym, hchoice, htext]
  simp only [htext, if_false]
  by_cases hmenu : isMenu e
  · rw [if_pos hmenu]
    apply Adds.of_note ⟨e, false, w.indent, cfg.symGetType w.st s, none, w.st⟩
      [0, 3, 3 + (w.indent + 1) + (percentS (menuGetPrompt e)).length + (newMark w.st s).length]
    · simp [length_logicMark, length_blanks, Nat.add_assoc]
    · simp [hcurrent]
    · simp [Shown.Fits, hsym, hchoice, htext, hmenu]
  · rw [if_neg hmenu]
    refine Adds.trans ?_ (Adds.indented hall)
    apply Adds.of_note ⟨e, false, w.indent, cfg.symGetType w.st s, none, w.st⟩ [0, 3]
    · simp [length_logicMark]
    · simp [hcurrent]
    · simp [Shown.Fits, hsym, hchoice, htext, hmenu]

/-- The mark of a choice is one piece, or none. -/
theorem choiceMark_spec (i : ℕ) (type : SymType) (s : Sym) (member : Bool) (w : World) :
    ∃ offsets : List ℕ,
      (choiceMark i type s member w).writes = w.writes ++ offsets.map .piece ∧
      (∀ n ∈ offsets, n = w.namelen) ∧
      (choiceMark i type s member w).namelen = w.namelen + markLength type s w.st ∧
      (choiceMark i type s member w).shown = w.shown ∧
      (choiceMark i type s member w).indent = w.indent ∧
      (choiceMark i type s member w).st = w.st := by
  unfold choiceMark markLength
  cases hchange : symIsChangable s w.st with
  | false => exact ⟨[w.namelen], by simp, by simp, by simp, by simp, by simp, by simp⟩
  | true =>
    cases type with
    | boolean | tristate =>
      exact ⟨[w.namelen], by simp, by simp, by simp [SymType.isLogic], by simp, by simp, by simp⟩
    | _ => exact ⟨[], by simp, by simp, by simp [SymType.isLogic], by simp, by simp, by simp⟩

theorem buildChoice_adds {i : ℕ} {e : Entry} {s : Sym} {l : Menus} {all : World → World}
    {below : List (World → World)} (hsym : e.sym = some s) (hchoice : s.isChoice)
    (hall : ∀ w, Adds cfg w (all w)) (hbelow : ∀ f ∈ below, ∀ w, Adds cfg w (f w)) (w : World) :
    Adds cfg w (buildChoice cfg i e s l all below w) := by
  unfold buildChoice
  dsimp only
  obtain ⟨found, st⟩ := findDefMenu cfg (w.cmake.countChild.st.curr s).val l 0 none
    w.cmake.countChild.st
  dsimp only
  generalize cfg.symGetType w.cmake.st s = type
  generalize hw₁ : World.note e false type (found.map DefMenu.child)
    { w.cmake.countChild with st := st } = w₁
  have hwrites₁ : w₁.writes = w.writes := by rw [← hw₁]; rfl
  have hnamelen₁ : w₁.namelen = 0 := by rw [← hw₁]; rfl
  have hindent₁ : w₁.indent = w.indent := by rw [← hw₁]; rfl
  have hst₁ : w₁.st = st := by rw [← hw₁]; rfl
  have hshown₁ : w₁.shown =
      w.shown ++ [⟨e, false, w.indent, type, found.map DefMenu.child, st⟩] := by
    rw [← hw₁]
    rfl
  obtain ⟨offsets, hwrites₂, hoffsets, hnamelen₂, hshown₂, hindent₂, hst₂⟩ :=
    choiceMark_spec i type s found.isSome w₁
  generalize choiceMark i type s found.isSome w₁ = w₂ at hwrites₂ hnamelen₂ hshown₂ hindent₂ hst₂ ⊢
  rw [hnamelen₁, Nat.zero_add, hst₁] at hnamelen₂
  rw [hnamelen₁] at hoffsets
  have hmark : markLength type s st < 512 := by
    unfold markLength
    split_ifs <;> omega
  have hstart : ∀ n ∈ offsets ++ [markLength type s st], n < 512 := by
    intro n hn
    rcases List.mem_append.mp hn with hn | hn
    · rw [hoffsets n hn]
      omega
    · rwa [List.mem_singleton.mp hn]
  by_cases hyes : (w₁.st.curr s).tri = .yes
  · rw [if_pos hyes]
    rw [hst₁] at hyes
    cases found with
    | none =>
      apply Adds.of_note ⟨e, false, w.indent, type, none, st⟩ (offsets ++ [markLength type s st])
      · simp [hwrites₂, hwrites₁, hnamelen₂]
      · simp [hshown₂, hshown₁]
      · exact iff_of_true hstart (by simp [Shown.Fits, hsym, hchoice])
    | some d =>
      have hpieces : Adds cfg w
          (((w₂.cprintName (blanks (w₂.indent + 1) ++ percentS (menuGetPrompt e))).cprintName
            ([' ', '('] ++ percentS (menuGetPrompt d.child) ++ [')'])).cprintName arrow) := by
        apply Adds.of_note ⟨e, false, w.indent, type, some d.child, st⟩
          (offsets ++ [markLength type s st] ++
            [markLength type s st + (w.indent + 1) + (percentS (menuGetPrompt e)).length,
              markLength type s st + (w.indent + 1) + (percentS (menuGetPrompt e)).length +
                ((percentS (menuGetPrompt d.child)).length + 3)])
        · simp [hwrites₂, hwrites₁, hnamelen₂, hindent₂, hindent₁, length_blanks, Nat.add_assoc]
        · simp [hshown₂, hshown₁]
        · rw [List.forall_mem_append, and_iff_right hstart]
          simp only [Shown.Fits, hsym, hchoice, if_true, hyes, true_imp_iff, List.forall_mem_cons,
            List.not_mem_nil, false_imp_iff, imp_true_iff, and_true]
          omega
      dsimp only
      split_ifs
      · refine hpieces.trans (Adds.indented fun w => ?_)
        rw [List.getD_eq_getElem?_getD]
        cases hget : below[d.pos]? with
        | none => exact .of_eq rfl rfl
        | some f => exact hbelow f (List.mem_of_getElem? hget) w
      · exact hpieces
  · rw [if_neg hyes]
    rw [hst₁] at hyes
    refine Adds.trans ?_ (Adds.indented hall)
    apply Adds.of_note ⟨e, false, w.indent, type, found.map DefMenu.child, st⟩
      (offsets ++ [markLength type s st])
    · simp [hwrites₂, hwrites₁, hnamelen₂]
    · simp [hshown₂, hshown₁]
    · cases found with
      | none => exact iff_of_true hstart (by simp [Shown.Fits, hsym, hchoice])
      | some d => exact iff_of_true hstart (by simp [Shown.Fits, hsym, hchoice, hyes])

theorem buildEntry_adds {mode : Mode} {i : ℕ} {e : Entry} {l n : Menus} {all : World → World}
    {below : List (World → World)} (hall : ∀ w, Adds cfg w (all w))
    (hbelow : ∀ f ∈ below, ∀ w, Adds cfg w (f w)) (w : World) :
    Adds cfg w (buildEntry cfg mode i e l n all below w) := by
  unfold buildEntry
  obtain ⟨visible, st⟩ := menuIsVisible cfg (.node e l n) w.st
  have hst : Adds cfg w { w with st := st } := .of_eq rfl rfl
  dsimp only
  split_ifs
  · exact hst
  · refine hst.trans ?_
    cases hsym : e.sym with
    | none => exact buildPlain_adds hsym hall _
    | some s =>
      dsimp only
      cases hchoice : s.isChoice with
      | true => exact buildChoice_adds hsym hchoice hall hbelow _
      | false => exact buildOption_adds hsym hchoice hall _

/-- The walk over a menu writes within the buffers exactly if all entries that it shows fit. -/
theorem buildAll_adds (mode : Mode) (m : Menus) (i : ℕ) :
    (∀ w, Adds cfg w (buildAll cfg mode i m w)) ∧
      ∀ f ∈ buildBelow cfg mode i m, ∀ w, Adds cfg w (f w) := by
  induction m generalizing i with
  | nil =>
    constructor
    · intro w
      rw [buildAll]
      exact .of_eq rfl rfl
    · rw [buildBelow]
      simp
  | node e l n ihl ihn =>
    obtain ⟨hall, hbelow⟩ := ihl (i + 1)
    obtain ⟨hnext, hothers⟩ := ihn (i + 1 + l.size)
    constructor
    · intro w
      rw [buildAll]
      exact (buildEntry_adds hall hbelow w).trans (hnext _)
    · rw [buildBelow, List.forall_mem_cons]
      exact ⟨buildEntry_adds hall hbelow, hothers⟩

theorem buildConf_adds (mode : Mode) (i : ℕ) (m : Menus) (w : World) :
    Adds cfg w (buildConf cfg mode i m w) := by
  cases m with
  | nil =>
    rw [buildConf]
    exact .of_eq rfl rfl
  | node e l n =>
    rw [buildConf]
    exact buildEntry_adds (buildAll_adds mode l (i + 1)).1 (buildAll_adds mode l (i + 1)).2 w

/-- `conf` starts a menu: there are no items. -/
def World.start (st : State) : World where
  st := st
  items := []
  indent := 0
  childCount := 0
  writes := []
  shown := []

variable (cfg)

/-- Each piece of each text is written within the buffer of its item exactly if all entries that
are shown fit. -/
theorem buildConf_inside_iff (mode : Mode) (i : ℕ) (m : Menus) (st : State) :
    (∀ x ∈ (buildConf cfg mode i m (.start st)).writes, x.Inside) ↔
      ∀ x ∈ (buildConf cfg mode i m (.start st)).shown, x.Fits cfg := by
  have hadds : Adds cfg (.start st) (buildConf cfg mode i m (.start st)) :=
    buildConf_adds mode i m (.start st)
  obtain ⟨writes, shown, hwrites, hshown, hiff⟩ := hadds.exists_new
  rw [hwrites, hshown]
  exact hiff

end Walks

/-! ## A long string -/

/-- One string option with a prompt. -/
def stringTree : ParsedTree where
  block := .config nameS false [.type .string (some (['p'], none))] .nil
  choices_nodup := by decide
  named := by decide

/-- The string is set to 600 characters. -/
def longString : State :=
  (symSetStringValue stringTree.config (.config nameS) (List.replicate 600 'a')
    (Conf.readEmpty stringTree)).2

/-- The prompt is written far behind the end of the buffer. -/
theorem stringTree_outside :
    ∃ x ∈ (buildConf stringTree.config ⟨false, 0, fun _ => false⟩ 0
      (Conf.rootMenu stringTree.config) (.start longString)).writes, ¬x.Inside := by
  refine ⟨.piece 602, ?_, by rw [Write.inside_piece]; omega⟩
  decide +kernel

end Grasshopper.Kconfig.Mconf
