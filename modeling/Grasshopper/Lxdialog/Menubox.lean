import Grasshopper.Lxdialog.Keys
import Mathlib.Tactic.SplitIfs
import Mathlib.Order.Lattice
import Mathlib.Data.Int.Order.Basic

/-! # The menu box of `lxdialog/menubox.c`

The selected item is the one at `scroll + choice`: a window of `max_choice` items shows the items
from `scroll` on, and `choice` is the line of the cursor in it. What is drawn is left out, but not
the entries of `items` that are read for it.
-/

namespace Grasshopper.Lxdialog

/-- The fields of a `dialog_list_item` that are read; characters are bytes. -/
structure Item where
  name : List UInt8
  tag : List UInt8

/-- A character as an `int`. -/
def charValue (c : UInt8) : ℤ := c.toInt8.toInt

def charsOf (s : List Char) : List ℤ := s.map keyOf

/-- The loop of `first_alpha`, from position `i` on. -/
def firstAlphaFrom (exempt : List ℤ) (i inParen : ℕ) : List UInt8 → ℕ
  | [] => 0
  | s :: string =>
    let c := tolower (charValue s)
    let inParen := if c ∈ charsOf ['<', '[', '('] then inParen + 1 else inParen
    let inParen := if c ∈ charsOf ['>', ']', ')'] ∧ 0 < inParen then inParen - 1 else inParen
    if inParen = 0 ∧ isalpha c ∧ c ∉ exempt then i
    else firstAlphaFrom exempt (i + 1) inParen string

/-- `first_alpha` -/
def firstAlpha (string : List UInt8) (exempt : List ℤ) : ℕ := firstAlphaFrom exempt 0 0 string

/-- The letter that selects an item. -/
def Item.hotkey (item : Item) : ℤ :=
  let j := firstAlpha item.name (charsOf ['Y', 'y', 'N', 'n', 'M', 'm', 'H', 'h'])
  tolower (charValue (item.name[j]?.getD 0))

/-- Why the loop ends: an entry outside `items` was read, or the function returns. -/
inductive MenuStop where
  | outside (i : ℤ)
  /-- The value, the item that becomes `selected`, and the scroll offset that is saved. -/
  | returned (value : ℤ) (selected : Option ℤ) (saved : Option ℤ)

/-- What is in `lxdialog.scrltmp`. -/
inductive Scrltmp where
  | absent
  | garbage
  | offset (scroll : ℤ)

/-- The variables of the loop. -/
structure Menubox where
  button : ℤ
  scroll : ℤ
  choice : ℤ

/-- The selected entry. -/
def Menubox.index (st : Menubox) : ℤ := st.scroll + st.choice

/-- The arguments of `dialog_menu` that the loop depends on, and the file it finds. -/
structure MenuCall where
  menuHeight : ℤ
  current : List UInt8
  items : List Item
  scrltmp : Scrltmp
  rows : 1 ≤ menuHeight
  nonempty : 1 ≤ items.length

namespace MenuCall
variable (m : MenuCall)

def itemNo : ℤ := m.items.length

def maxChoice : ℤ := if m.menuHeight < m.itemNo then m.menuHeight else m.itemNo

/-- `items[i]` -/
def item (i : ℤ) : Except MenuStop Item :=
  match m.items[i.toNat]? with
  | some item => if 0 ≤ i then return item else throw (.outside i)
  | none => throw (.outside i)

/-- `print_item`, as far as it reads an entry. -/
def printItem (i : ℤ) : Except MenuStop Unit := do
  let _ ← m.item i

/-! ## The first position -/

/-- The loop that looks for the current tag, from entry `i` on. -/
def findCurrent (i choice : ℤ) : List Item → ℤ
  | [] => choice
  | item :: items => findCurrent (i + 1) (if m.current = item.tag then i else choice) items

/-- The offset in `lxdialog.scrltmp`, if it fits. -/
def restored (choice : ℤ) : Option ℤ :=
  match m.scrltmp with
  | .offset scroll =>
    if scroll ≤ choice ∧ scroll + m.maxChoice > choice ∧ scroll ≥ 0 ∧
        scroll + m.maxChoice ≤ m.itemNo then
      some scroll
    else none
  | _ => none

/-- The variables before the first key. Where no offset fits, `scroll` is 0 and `f` is `NULL`. -/
def start : Menubox :=
  let choice := m.findCurrent 0 0 m.items
  let f := m.restored choice
  let scroll := f.getD 0
  let choice := choice - scroll
  if choice ≥ m.maxChoice ∨ f = none ∧ choice ≥ m.maxChoice / 2 then
    let scroll :=
      if choice ≥ m.itemNo - m.maxChoice / 2 then m.itemNo - m.maxChoice
      else choice - m.maxChoice / 2
    { button := 0, scroll := scroll, choice := choice - scroll }
  else { button := 0, scroll := scroll, choice := choice }

/-- `for (i=0; i < max_choice; i++)`, with the number of rounds left. -/
def printItems (scroll : ℤ) : ℕ → ℤ → Except MenuStop Unit
  | 0, _ => return ()
  | rounds + 1, i => do
    m.printItem (scroll + i)
    printItems scroll rounds (i + 1)

/-! ## The keys that move the selection -/

/-- The first line from `i` on with the letter, or the line after the last one, with the number of
rounds left. -/
def findHotkey (key : ℤ) (st : Menubox) : ℕ → ℤ → Except MenuStop ℤ
  | 0, i => return i
  | rounds + 1, i => do
    let item ← m.item (st.scroll + i)
    if key = item.hotkey then return i else findHotkey key st rounds (i + 1)

/-- The line that a letter selects; `max_choice` for none. -/
def hotkeyLine (key : ℤ) (st : Menubox) : Except MenuStop ℤ := do
  -- `strchr` converts the key to a character, and finds the final NUL too
  if key % 256 ∈ 0 :: charsOf ['y', 'n', 'm', 'h'] then return m.maxChoice
  let i ← m.findHotkey key st (m.maxChoice - (st.choice + 1)).toNat (st.choice + 1)
  if i = m.maxChoice then m.findHotkey key st m.maxChoice.toNat 0 else return i

def keyUp (st : Menubox) : Except MenuStop Menubox := do
  if st.choice < 2 ∧ st.scroll ≠ 0 then
    m.printItem (st.scroll - 1)
    return { st with scroll := st.scroll - 1 }
  else return { st with choice := if st.choice - 1 > 0 then st.choice - 1 else 0 }

def keyDown (st : Menubox) : Except MenuStop Menubox := do
  m.printItem (st.scroll + st.choice)
  if st.choice > m.maxChoice - 3 ∧ st.scroll + m.maxChoice < m.itemNo then
    m.printItem (st.scroll + 1 + m.maxChoice - 1)
    return { st with scroll := st.scroll + 1 }
  else
    return { st with
      choice := if st.choice + 1 < m.maxChoice - 1 then st.choice + 1 else m.maxChoice - 1 }

/-- The loop of `KEY_PPAGE`, with the number of rounds left. -/
def pageUp : ℕ → Menubox → Except MenuStop Menubox
  | 0, st => return st
  | rounds + 1, st => do
    if st.scroll > 0 then
      m.printItem (st.scroll - 1)
      pageUp rounds { st with scroll := st.scroll - 1 }
    else if st.choice > 0 then pageUp rounds { st with choice := st.choice - 1 }
    else pageUp rounds st

/-- The loop of `KEY_NPAGE`, with the number of rounds left. -/
def pageDown : ℕ → Menubox → Except MenuStop Menubox
  | 0, st => return st
  | rounds + 1, st => do
    if st.scroll + m.maxChoice < m.itemNo then
      m.printItem (st.scroll + 1 + m.maxChoice - 1)
      pageDown rounds { st with scroll := st.scroll + 1 }
    else if st.choice + 1 < m.maxChoice then pageDown rounds { st with choice := st.choice + 1 }
    else pageDown rounds st

/-- What a key does to the position, `i` being the line of a letter. -/
def select (key i : ℤ) (st : Menubox) : Except MenuStop Menubox :=
  if key = KEY_UP ∨ key = keyOf '-' then m.keyUp st
  else if key = KEY_DOWN ∨ key = keyOf '+' then m.keyDown st
  else if key = KEY_PPAGE then m.pageUp m.maxChoice.toNat st
  else if key = KEY_NPAGE then m.pageDown m.maxChoice.toNat st
  else return { st with choice := i }

/-- The branch of the keys that move the selection: the items at both ends are drawn again. -/
def move (key i : ℤ) (st : Menubox) : Except MenuStop Menubox := do
  m.printItem (st.scroll + st.choice)
  let st' ← m.select key i st
  m.printItem (st'.scroll + st'.choice)
  return st'

/-! ## The other keys -/

/-- The value that a key returns once the scroll offset is saved. -/
def savingKey (key : ℤ) : Option ℤ :=
  if key = keyOf ' ' then some 6
  else if key = keyOf 's' ∨ key = keyOf 'y' then some 3
  else if key = keyOf 'n' then some 4
  else if key = keyOf 'm' then some 5
  else if key = keyOf '/' then some 7
  else none

def otherKey (key : ℤ) (st : Menubox) : Except MenuStop Menubox :=
  if key = KEY_LEFT ∨ key = TAB ∨ key = KEY_RIGHT then
    let button := if key = KEY_LEFT then st.button - 1 else st.button + 1
    return { st with button := if button < 0 then 2 else if button > 2 then 0 else button }
  else
    match savingKey key with
    | some value => do
      m.printItem (st.scroll + st.choice)
      throw (.returned value (some (st.scroll + st.choice)) (some st.scroll))
    | none =>
      if key = keyOf 'h' ∨ key = keyOf '?' ∨ key = keyOf '\n' then do
        let button := if key = keyOf '\n' then st.button else 2
        m.printItem (st.scroll + st.choice)
        throw (.returned button (some (st.scroll + st.choice)) none)
      else if key = keyOf 'e' ∨ key = keyOf 'x' ∨ key = ESC then throw (.returned (-1) none none)
      else return st

/-- One round of the loop. -/
def step (st : Menubox) (key : ℤ) : Except MenuStop Menubox := do
  let key := if key < 256 ∧ isalpha key then tolower key else key
  let i ← m.hotkeyLine key st
  if i < m.maxChoice ∨ key = KEY_UP ∨ key = KEY_DOWN ∨ key = keyOf '-' ∨ key = keyOf '+' ∨
      key = KEY_PPAGE ∨ key = KEY_NPAGE then
    m.move key i st
  else m.otherKey key st

/-- `dialog_menu`, over the keys that are pressed. -/
def dialogMenu (keys : List ℤ) : Except MenuStop Menubox := do
  m.printItems m.start.scroll m.maxChoice.toNat 0
  keys.foldlM m.step m.start

/-! ## Every entry that is read exists -/

/-- The cursor is on a line of the window, and the window shows items only. -/
structure Inv (st : Menubox) : Prop where
  choice_nonneg : 0 ≤ st.choice
  choice_lt : st.choice < m.maxChoice
  scroll_nonneg : 0 ≤ st.scroll
  scroll_le : st.scroll ≤ m.itemNo - m.maxChoice

variable {m} {st : Menubox}

theorem maxChoice_bounds (m : MenuCall) : 1 ≤ m.maxChoice ∧ m.maxChoice ≤ m.itemNo := by
  have hrows := m.rows
  have hitems : 1 ≤ m.itemNo := Int.ofNat_le.mpr m.nonempty
  unfold maxChoice
  split_ifs <;> omega

/-- What follows a read of an entry that exists. -/
theorem item_bind {α : Type} {i : ℤ} (h : 0 ≤ i ∧ i < m.itemNo) (f : Item → Except MenuStop α) :
    ∃ item, (m.item i >>= f) = f item := by
  have hlt : i.toNat < m.items.length := by
    have hlt : i < (m.items.length : ℤ) := h.2
    omega
  refine ⟨m.items[i.toNat], ?_⟩
  rw [MenuCall.item, List.getElem?_eq_getElem hlt]
  dsimp only
  rw [if_pos h.1]
  rfl

theorem printItem_bind {α : Type} {i : ℤ} (h : 0 ≤ i ∧ i < m.itemNo)
    (f : Unit → Except MenuStop α) : (m.printItem i >>= f) = f () := by
  obtain ⟨item, hitem⟩ := item_bind h fun _ => (pure () : Except MenuStop Unit)
  rw [printItem, hitem]
  rfl

/-- All lines of the window show items. -/
theorem Inv.line (h : m.Inv st) {i : ℤ} (hi : 0 ≤ i) (hlt : i < m.maxChoice) :
    0 ≤ st.scroll + i ∧ st.scroll + i < m.itemNo := by
  have hscroll := h.scroll_nonneg
  have hle := h.scroll_le
  omega

theorem printItems_ok {scroll : ℤ} {rounds : ℕ} {i : ℤ}
    (h : ∀ j, i ≤ j → j < i + rounds → 0 ≤ scroll + j ∧ scroll + j < m.itemNo) :
    m.printItems scroll rounds i = .ok () := by
  induction rounds generalizing i with
  | zero => rfl
  | succ rounds ih =>
    rw [printItems, printItem_bind (h i le_rfl (by omega))]
    apply ih
    intro j hj hlt
    exact h j (by omega) (by push_cast; omega)

/-- The loop over the letters stops at a line of the window, or after the last one. -/
theorem findHotkey_ok (h : m.Inv st) (key : ℤ) (rounds : ℕ) {i : ℤ} (hi : 0 ≤ i)
    (hle : i + rounds ≤ m.maxChoice) :
    ∃ j, m.findHotkey key st rounds i = .ok j ∧ i ≤ j ∧ j ≤ i + rounds := by
  induction rounds generalizing i with
  | zero => exact ⟨i, rfl, le_rfl, by omega⟩
  | succ rounds ih =>
    push_cast at hle ⊢
    obtain ⟨item, hitem⟩ := item_bind (h.line hi (by omega)) fun item =>
      if key = item.hotkey then return i else m.findHotkey key st rounds (i + 1)
    rw [findHotkey, hitem]
    split_ifs
    · exact ⟨i, rfl, le_rfl, by omega⟩
    · obtain ⟨j, hj, hij, hjle⟩ := ih (by omega : 0 ≤ i + 1) (by omega)
      exact ⟨j, hj, by omega, by omega⟩

theorem hotkeyLine_ok (h : m.Inv st) (key : ℤ) :
    ∃ i, m.hotkeyLine key st = .ok i ∧ 0 ≤ i := by
  obtain ⟨hpos, -⟩ := m.maxChoice_bounds
  have hchoice := h.choice_nonneg
  have hlt := h.choice_lt
  unfold hotkeyLine
  split_ifs
  · exact ⟨m.maxChoice, rfl, by omega⟩
  · obtain ⟨i, hi, hle, -⟩ := findHotkey_ok h key (m.maxChoice - (st.choice + 1)).toNat
      (by omega : 0 ≤ st.choice + 1) (by omega)
    rw [hi]
    change ∃ i', (if i = m.maxChoice then _ else _) = _ ∧ _
    split_ifs
    · obtain ⟨j, hj, hjle, -⟩ := findHotkey_ok h key m.maxChoice.toNat le_rfl (by omega)
      exact ⟨j, hj, hjle⟩
    · exact ⟨i, rfl, by omega⟩

/-! ## Where the keys move the selection -/

theorem keyUp_ok (h : m.Inv st) :
    ∃ st', m.keyUp st = .ok st' ∧ m.Inv st' ∧ st'.index = max (st.index - 1) 0 := by
  have hchoice := h.choice_nonneg
  have hlt := h.choice_lt
  have hscroll := h.scroll_nonneg
  have hle := h.scroll_le
  unfold keyUp Menubox.index
  split_ifs with hwindow hline
  · rw [printItem_bind (by omega)]
    exact ⟨_, rfl, ⟨hchoice, hlt, by dsimp only; omega, by dsimp only; omega⟩,
      by dsimp only; omega⟩
  · exact ⟨_, rfl, ⟨by dsimp only; omega, by dsimp only; omega, hscroll, hle⟩,
      by dsimp only; omega⟩
  · exact ⟨_, rfl, ⟨le_rfl, by dsimp only; omega, hscroll, hle⟩, by dsimp only; omega⟩

theorem keyDown_ok (h : m.Inv st) :
    ∃ st', m.keyDown st = .ok st' ∧ m.Inv st' ∧
      st'.index = min (st.index + 1) (m.itemNo - 1) := by
  have hchoice := h.choice_nonneg
  have hlt := h.choice_lt
  have hscroll := h.scroll_nonneg
  have hle := h.scroll_le
  unfold keyDown Menubox.index
  rw [printItem_bind (h.line hchoice hlt)]
  split_ifs with hwindow hline
  · rw [printItem_bind (by omega)]
    exact ⟨_, rfl, ⟨hchoice, hlt, by dsimp only; omega, by dsimp only; omega⟩,
      by dsimp only; omega⟩
  · exact ⟨_, rfl, ⟨by dsimp only; omega, by dsimp only; omega, hscroll, hle⟩,
      by dsimp only; omega⟩
  · exact ⟨_, rfl, ⟨by dsimp only; omega, by dsimp only; omega, hscroll, hle⟩,
      by dsimp only; omega⟩

/-- Each round of a page moves by one entry, while there is one. -/
theorem pageUp_ok (rounds : ℕ) (h : m.Inv st) :
    ∃ st', m.pageUp rounds st = .ok st' ∧ m.Inv st' ∧ st'.index = max (st.index - rounds) 0 := by
  induction rounds generalizing st with
  | zero =>
    refine ⟨st, rfl, h, ?_⟩
    have hchoice := h.choice_nonneg
    have hscroll := h.scroll_nonneg
    unfold Menubox.index
    omega
  | succ rounds ih =>
    have hchoice := h.choice_nonneg
    have hlt := h.choice_lt
    have hscroll := h.scroll_nonneg
    have hle := h.scroll_le
    unfold pageUp
    split_ifs with hwindow hline
    · rw [printItem_bind (by omega)]
      have hnext : m.Inv { st with scroll := st.scroll - 1 } :=
        ⟨hchoice, hlt, by dsimp only; omega, by dsimp only; omega⟩
      obtain ⟨st', hst', hinv, hindex⟩ := ih hnext
      refine ⟨st', hst', hinv, hindex.trans ?_⟩
      unfold Menubox.index
      push_cast
      omega
    · have hnext : m.Inv { st with choice := st.choice - 1 } :=
        ⟨by dsimp only; omega, by dsimp only; omega, hscroll, hle⟩
      obtain ⟨st', hst', hinv, hindex⟩ := ih hnext
      refine ⟨st', hst', hinv, hindex.trans ?_⟩
      unfold Menubox.index
      push_cast
      omega
    · obtain ⟨st', hst', hinv, hindex⟩ := ih h
      refine ⟨st', hst', hinv, hindex.trans ?_⟩
      unfold Menubox.index
      push_cast
      omega

theorem pageDown_ok (rounds : ℕ) (h : m.Inv st) :
    ∃ st', m.pageDown rounds st = .ok st' ∧ m.Inv st' ∧
      st'.index = min (st.index + rounds) (m.itemNo - 1) := by
  induction rounds generalizing st with
  | zero =>
    refine ⟨st, rfl, h, ?_⟩
    have hlt := h.choice_lt
    have hle := h.scroll_le
    unfold Menubox.index
    push_cast
    omega
  | succ rounds ih =>
    have hchoice := h.choice_nonneg
    have hlt := h.choice_lt
    have hscroll := h.scroll_nonneg
    have hle := h.scroll_le
    unfold pageDown
    split_ifs with hwindow hline
    · rw [printItem_bind (by omega)]
      have hnext : m.Inv { st with scroll := st.scroll + 1 } :=
        ⟨hchoice, hlt, by dsimp only; omega, by dsimp only; omega⟩
      obtain ⟨st', hst', hinv, hindex⟩ := ih hnext
      refine ⟨st', hst', hinv, hindex.trans ?_⟩
      unfold Menubox.index
      push_cast
      omega
    · have hnext : m.Inv { st with choice := st.choice + 1 } :=
        ⟨by dsimp only; omega, by dsimp only; omega, hscroll, hle⟩
      obtain ⟨st', hst', hinv, hindex⟩ := ih hnext
      refine ⟨st', hst', hinv, hindex.trans ?_⟩
      unfold Menubox.index
      push_cast
      omega
    · obtain ⟨st', hst', hinv, hindex⟩ := ih h
      refine ⟨st', hst', hinv, hindex.trans ?_⟩
      unfold Menubox.index
      push_cast
      omega

/-- The keys that move the selection by one entry or by a page. -/
def MoveKey (key : ℤ) : Prop :=
  key = KEY_UP ∨ key = KEY_DOWN ∨ key = keyOf '-' ∨ key = keyOf '+' ∨ key = KEY_PPAGE ∨
    key = KEY_NPAGE

instance (key : ℤ) : Decidable (MoveKey key) := inferInstanceAs (Decidable (_ ∨ _))

variable (m) in
/-- Where a key moves the selection. -/
structure Moves (key : ℤ) (st st' : Menubox) : Prop where
  up : key = KEY_UP ∨ key = keyOf '-' → st'.index = max (st.index - 1) 0
  down : key = KEY_DOWN ∨ key = keyOf '+' → st'.index = min (st.index + 1) (m.itemNo - 1)
  pageUp : key = KEY_PPAGE → st'.index = max (st.index - m.maxChoice) 0
  pageDown : key = KEY_NPAGE → st'.index = min (st.index + m.maxChoice) (m.itemNo - 1)

theorem select_ok (h : m.Inv st) {key i : ℤ} (hi : 0 ≤ i)
    (hmove : i < m.maxChoice ∨ MoveKey key) :
    ∃ st', m.select key i st = .ok st' ∧ m.Inv st' ∧ m.Moves key st st' := by
  obtain ⟨hpos, -⟩ := m.maxChoice_bounds
  have hpage : (m.maxChoice.toNat : ℤ) = m.maxChoice := Int.toNat_of_nonneg (by omega)
  unfold select
  split_ifs with hup hdown hppage hnpage
  · obtain ⟨st', hst', hinv, hindex⟩ := keyUp_ok h
    refine ⟨st', hst', hinv, fun _ => hindex, ?_, ?_, ?_⟩
    all_goals
      intro hkey
      rcases hup with rfl | rfl <;> exact absurd hkey (by decide)
  · obtain ⟨st', hst', hinv, hindex⟩ := keyDown_ok h
    refine ⟨st', hst', hinv, fun hkey => absurd hkey hup, fun _ => hindex, ?_, ?_⟩
    all_goals
      intro hkey
      rcases hdown with rfl | rfl <;> exact absurd hkey (by decide)
  · obtain ⟨st', hst', hinv, hindex⟩ := pageUp_ok m.maxChoice.toNat h
    rw [hpage] at hindex
    refine ⟨st', hst', hinv, fun hkey => absurd hkey hup, fun hkey => absurd hkey hdown,
      fun _ => hindex, ?_⟩
    intro hkey
    subst hppage
    exact absurd hkey (by decide)
  · obtain ⟨st', hst', hinv, hindex⟩ := pageDown_ok m.maxChoice.toNat h
    rw [hpage] at hindex
    exact ⟨st', hst', hinv, fun hkey => absurd hkey hup, fun hkey => absurd hkey hdown,
      fun hkey => absurd hkey hppage, fun _ => hindex⟩
  · have hline : i < m.maxChoice := by
      rcases hmove with hline | hkey | hkey | hkey | hkey | hkey | hkey
      · exact hline
      · exact absurd (Or.inl hkey) hup
      · exact absurd (Or.inl hkey) hdown
      · exact absurd (Or.inr hkey) hup
      · exact absurd (Or.inr hkey) hdown
      · exact absurd hkey hppage
      · exact absurd hkey hnpage
    exact ⟨_, rfl, ⟨hi, hline, h.scroll_nonneg, h.scroll_le⟩, fun hkey => absurd hkey hup,
      fun hkey => absurd hkey hdown, fun hkey => absurd hkey hppage,
      fun hkey => absurd hkey hnpage⟩

theorem move_ok (h : m.Inv st) {key i : ℤ} (hi : 0 ≤ i) (hmove : i < m.maxChoice ∨ MoveKey key) :
    ∃ st', m.move key i st = .ok st' ∧ m.Inv st' ∧ m.Moves key st st' := by
  obtain ⟨st', hst', hinv, hmoves⟩ := select_ok h hi hmove
  refine ⟨st', ?_, hinv, hmoves⟩
  unfold move
  rw [printItem_bind (h.line h.choice_nonneg h.choice_lt), hst']
  exact printItem_bind (hinv.line hinv.choice_nonneg hinv.choice_lt) _

theorem otherKey_inv (h : m.Inv st) (key : ℤ) :
    (∀ i, m.otherKey key st ≠ .error (.outside i)) ∧
      ∀ st', m.otherKey key st = .ok st' → m.Inv st' := by
  have hline := h.line h.choice_nonneg h.choice_lt
  unfold otherKey
  by_cases hbutton : key = KEY_LEFT ∨ key = TAB ∨ key = KEY_RIGHT
  · rw [if_pos hbutton]
    constructor
    · intro i hi
      cases hi
    · intro st' hst'
      cases hst'
      exact ⟨h.choice_nonneg, h.choice_lt, h.scroll_nonneg, h.scroll_le⟩
  · rw [if_neg hbutton]
    cases savingKey key with
    | some value =>
      dsimp only
      rw [printItem_bind hline]
      constructor
      · intro i hi
        cases hi
      · intro st' hst'
        cases hst'
    | none =>
      dsimp only
      rw [printItem_bind hline]
      split_ifs
      all_goals constructor
      all_goals intro x hx
      all_goals cases hx
      exact h

theorem moveKey_lower {key : ℤ} (h : MoveKey key) :
    (if key < 256 ∧ isalpha key then tolower key else key) = key := by
  rcases h with rfl | rfl | rfl | rfl | rfl | rfl <;> decide

/-- A round keeps the position within the items, and moves it as the key asks. -/
theorem step_inv (h : m.Inv st) (key : ℤ) :
    (∀ i, m.step st key ≠ .error (.outside i)) ∧
      (∀ st', m.step st key = .ok st' → m.Inv st') ∧
      (MoveKey key → ∃ st', m.step st key = .ok st' ∧ m.Moves key st st') := by
  generalize hlower : (if key < 256 ∧ isalpha key then tolower key else key) = lower
  obtain ⟨i, hi, hpos⟩ := hotkeyLine_ok h lower
  have hstep : m.step st key =
      if i < m.maxChoice ∨ MoveKey lower then m.move lower i st else m.otherKey lower st := by
    unfold step
    dsimp only
    rw [hlower, hi]
    rfl
  rw [hstep]
  by_cases hmove : i < m.maxChoice ∨ MoveKey lower
  · rw [if_pos hmove]
    obtain ⟨st', hst', hinv, hmoves⟩ := move_ok h hpos hmove
    rw [hst']
    refine ⟨?_, ?_, ?_⟩
    · intro j hj
      cases hj
    · intro st'' hst''
      cases hst''
      exact hinv
    · intro hkey
      rw [moveKey_lower hkey] at hlower
      exact ⟨st', rfl, hlower ▸ hmoves⟩
  · rw [if_neg hmove]
    obtain ⟨hsafe, hinv⟩ := otherKey_inv h lower
    refine ⟨hsafe, hinv, ?_⟩
    intro hkey
    rw [moveKey_lower hkey] at hlower
    exact absurd (Or.inr (hlower ▸ hkey)) hmove

/-! ## The first position, and a run -/

theorem findCurrent_bounds {i choice : ℤ} {items : List Item} (hi : 0 ≤ i) (hchoice : 0 ≤ choice)
    (hlt : choice < i + items.length) :
    0 ≤ m.findCurrent i choice items ∧ m.findCurrent i choice items < i + items.length := by
  induction items generalizing i choice with
  | nil => exact ⟨hchoice, hlt⟩
  | cons item items ih =>
    rw [findCurrent, List.length_cons]
    rw [List.length_cons] at hlt
    push_cast at hlt ⊢
    split_ifs
    · obtain ⟨h0, h1⟩ := ih (by omega : 0 ≤ i + 1) hi (by omega)
      exact ⟨h0, by omega⟩
    · obtain ⟨h0, h1⟩ := ih (by omega : 0 ≤ i + 1) hchoice (by omega)
      exact ⟨h0, by omega⟩

theorem restored_some {choice scroll : ℤ} (h : m.restored choice = some scroll) :
    scroll ≤ choice ∧ scroll + m.maxChoice > choice ∧ scroll ≥ 0 ∧
      scroll + m.maxChoice ≤ m.itemNo := by
  unfold restored at h
  split at h
  · split_ifs at h with hfits
    cases h
    exact hfits
  · cases h

theorem start_inv (m : MenuCall) : m.Inv m.start := by
  obtain ⟨hpos, hle⟩ := m.maxChoice_bounds
  have hitems : 0 < 0 + (m.items.length : ℤ) := by
    have hnonempty := m.nonempty
    omega
  obtain ⟨hchoice, hlt⟩ := m.findCurrent_bounds le_rfl le_rfl hitems
  rw [Int.zero_add] at hlt
  change _ < m.itemNo at hlt
  unfold start
  generalize m.findCurrent 0 0 m.items = choice at hchoice hlt
  dsimp only
  cases hf : m.restored choice with
  | some scroll =>
    obtain ⟨h1, h2, h3, h4⟩ := restored_some hf
    rw [if_neg (by simp; omega)]
    exact ⟨by simp; omega, by simp; omega, by simpa using h3, by simp; omega⟩
  | none =>
    simp only [Option.getD_none, Int.sub_zero, true_and]
    split_ifs with hcentre hend
    · exact ⟨by dsimp only; omega, by dsimp only; omega, by dsimp only; omega, le_rfl⟩
    · exact ⟨by dsimp only; omega, by dsimp only; omega, by dsimp only; omega,
        by dsimp only; omega⟩
    · exact ⟨hchoice, by dsimp only; omega, le_rfl, by dsimp only; omega⟩

theorem run_inv (h : m.Inv st) (keys : List ℤ) :
    (∀ i, keys.foldlM m.step st ≠ .error (.outside i)) ∧
      ∀ st', keys.foldlM m.step st = .ok st' → m.Inv st' := by
  induction keys generalizing st with
  | nil =>
    constructor
    · intro i hi
      cases hi
    · intro st' hst'
      cases hst'
      exact h
  | cons key keys ih =>
    obtain ⟨hsafe, hinv, -⟩ := step_inv h key
    rw [List.foldlM_cons]
    cases hstep : m.step st key with
    | error stop =>
      constructor
      · intro i hi
        cases hi
        exact hsafe i hstep
      · intro st' hst'
        cases hst'
    | ok st₁ => exact ih (hinv st₁ hstep)

variable (m)

theorem dialogMenu_eq (keys : List ℤ) : m.dialogMenu keys = keys.foldlM m.step m.start := by
  have hinv := m.start_inv
  have hpos := m.maxChoice_bounds.1
  have hprint : m.printItems m.start.scroll m.maxChoice.toNat 0 = .ok () := by
    apply printItems_ok
    intro j hj hlt
    exact hinv.line hj (by omega)
  rw [dialogMenu, hprint]
  rfl

end MenuCall

end Grasshopper.Lxdialog
