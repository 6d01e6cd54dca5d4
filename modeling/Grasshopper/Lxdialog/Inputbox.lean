import Grasshopper.Library.Cstring
import Grasshopper.Lxdialog.Keys
import Mathlib.Data.List.Induction
import Mathlib.Tactic.SplitIfs

/-! # The input box of `lxdialog/inputbox.c`

The loop of `dialog_inputbox` as steps over the keys: what it draws is left out. The text is edited
through a window of the field, so the place of the next character is `scroll + input_x`.
-/

namespace Grasshopper.Lxdialog

/-! ## The loop -/

/-- What the field `button` tells to be selected. -/
inductive Selected where
  /-- -1 -/
  | inputBox
  /-- 0 -/
  | ok
  /-- 1 -/
  | cancel
deriving DecidableEq

/-- The variables of the loop. -/
structure Inputbox where
  instr : List UInt8
  inputX : ℕ
  scroll : ℕ
  button : Selected

namespace Inputbox

def text (st : Inputbox) : List UInt8 := Cstring.text 0 st.instr

/-- The variables before the first key, with what `dialog_input_result` holds before. -/
def start (boxWidth : ℕ) (dialogInputResult init : List UInt8) : Inputbox :=
  let instr := Cstring.strcpy 0 dialogInputResult init
  let inputX := (Cstring.text 0 instr).length
  if inputX ≥ boxWidth then ⟨instr, boxWidth - 1, inputX - boxWidth + 1, .inputBox⟩
  else ⟨instr, inputX, 0, .inputBox⟩

/-- The case of `KEY_BACKSPACE` in the input field. -/
def backspace (boxWidth : ℕ) (st : Inputbox) : Inputbox :=
  if st.inputX ≠ 0 ∨ st.scroll ≠ 0 then
    let st :=
      if st.inputX = 0 then
        let scroll := if st.scroll < boxWidth - 1 then 0 else st.scroll - (boxWidth - 1)
        { st with scroll := scroll, inputX := st.text.length - scroll }
      else { st with inputX := st.inputX - 1 }
    { st with instr := st.instr.set (st.scroll + st.inputX) 0 }
  else st

/-- The `default` case in the input field, for a key that prints. -/
def insert (boxWidth : ℕ) (key : ℤ) (st : Inputbox) : Inputbox :=
  if st.scroll + st.inputX < MAX_LEN then
    let instr := (st.instr.set (st.scroll + st.inputX) (UInt8.ofNat key.toNat)).set
      (st.scroll + st.inputX + 1) 0
    if st.inputX = boxWidth - 1 then { st with instr := instr, scroll := st.scroll + 1 }
    else { st with instr := instr, inputX := st.inputX + 1 }
  else st

/-- The keys that the input field takes for itself. -/
def Backspaces (key : ℤ) : Prop := key = KEY_BACKSPACE ∨ key = 127

instance (key : ℤ) : Decidable (Backspaces key) := inferInstanceAs (Decidable (_ ∨ _))

def Prints (key : ℤ) : Prop := key < 0x100 ∧ isprint key

instance (key : ℤ) : Decidable (Prints key) := inferInstanceAs (Decidable (_ ∧ _))

/-- The second `switch` of a round: the keys that move between the buttons or leave the loop. -/
def buttonKey (key : ℤ) (st : Inputbox) : Except ℤ Inputbox :=
  if key = keyOf 'O' ∨ key = keyOf 'o' then throw 0
  else if key = keyOf 'H' ∨ key = keyOf 'h' then throw 1
  else if key = KEY_UP ∨ key = KEY_LEFT then
    match st.button with
    | .inputBox => return { st with button := .cancel }
    | .ok => return { st with button := .inputBox }
    | .cancel => return { st with button := .ok }
  else if key = TAB ∨ key = KEY_DOWN ∨ key = KEY_RIGHT then
    match st.button with
    | .inputBox => return { st with button := .ok }
    | .ok => return { st with button := .cancel }
    | .cancel => return { st with button := .inputBox }
  else if key = keyOf ' ' ∨ key = keyOf '\n' then
    match st.button with
    | .inputBox => throw 0
    | .ok => throw 0
    | .cancel => throw 1
  else if key = keyOf 'X' ∨ key = keyOf 'x' ∨ key = ESC then throw (-1)
  else return st

/-- One round of the loop, or the value that `dialog_inputbox` returns. -/
def step (boxWidth : ℕ) (st : Inputbox) (key : ℤ) : Except ℤ Inputbox :=
  if st.button = .inputBox then
    if key = TAB ∨ key = KEY_UP ∨ key = KEY_DOWN then buttonKey key st
    else if key = KEY_LEFT ∨ key = KEY_RIGHT then return st
    else if Backspaces key then return st.backspace boxWidth
    else if Prints key then return st.insert boxWidth key
    else buttonKey key st
  else buttonKey key st

end Inputbox

/-! ## The text that is typed -/

/-- A printing key at the end of a text, or the last character deleted. -/
def edit (text : List UInt8) (key : ℤ) : List UInt8 :=
  if Inputbox.Backspaces key then text.dropLast
  else if Inputbox.Prints key ∧ text.length < MAX_LEN then text ++ [UInt8.ofNat key.toNat]
  else text

namespace Inputbox

/-- A round, beside the text that the keys typed into the input field make. -/
def stepTyping (boxWidth : ℕ) (s : Inputbox × List UInt8) (key : ℤ) :
    Except ℤ (Inputbox × List UInt8) := do
  let st ← s.1.step boxWidth key
  return (st, if s.1.button = .inputBox then edit s.2 key else s.2)

/-- A run over keys. -/
def run (boxWidth : ℕ) (s : Inputbox × List UInt8) (keys : List ℤ) :
    Except ℤ (Inputbox × List UInt8) :=
  keys.foldlM (stepTyping boxWidth) s

/-- The cursor is at the left edge of the field, and the text goes on to the left of it. -/
def AtLeftEdge (st : Inputbox) : Prop := st.button = .inputBox ∧ st.inputX = 0 ∧ st.scroll ≠ 0

instance (st : Inputbox) : Decidable st.AtLeftEdge := inferInstanceAs (Decidable (_ ∧ _))

/-- What every state of a run satisfies: the window is within the field, and the text ends where
the next character goes. -/
structure Inv (boxWidth : ℕ) (st : Inputbox) : Prop where
  size : st.instr.length = MAX_LEN + 1
  window : st.inputX < boxWidth
  place : st.scroll + st.inputX = st.text.length
  bound : st.text.length ≤ MAX_LEN

/-! ## One round -/

section Round
variable {boxWidth : ℕ} {st : Inputbox}

theorem inv_of_text {instr text : List UInt8} {inputX scroll : ℕ} (button : Selected)
    (htext : Cstring.text 0 instr = text) (hsize : instr.length = MAX_LEN + 1)
    (hwindow : inputX < boxWidth) (hplace : scroll + inputX = text.length)
    (hbound : text.length ≤ MAX_LEN) :
    Inv boxWidth ⟨instr, inputX, scroll, button⟩ ∧
      Inputbox.text ⟨instr, inputX, scroll, button⟩ = text := by
  subst htext
  exact ⟨⟨hsize, hwindow, hplace, hbound⟩, rfl⟩

theorem inv_start {dialogInputResult init : List UInt8} (hbox : 0 < boxWidth)
    (hsize : dialogInputResult.length = MAX_LEN + 1) (hnul : 0 ∉ init)
    (hinit : init.length ≤ MAX_LEN) :
    (start boxWidth dialogInputResult init).Inv boxWidth ∧
      (start boxWidth dialogInputResult init).text = init := by
  have htext : Cstring.text 0 (Cstring.strcpy 0 dialogInputResult init) = init :=
    Cstring.text_strcpy hnul _
  have hlen : (Cstring.strcpy 0 dialogInputResult init).length = MAX_LEN + 1 := by
    rw [Cstring.length_strcpy (by omega), hsize]
  unfold start
  dsimp only
  rw [htext]
  split_ifs with hwide
  · exact inv_of_text _ htext hlen (by omega) (by omega) hinit
  · exact inv_of_text _ htext hlen (by omega) (by omega) hinit

/-- A NUL written within the text leaves the characters before it. -/
theorem text_cut (h : st.Inv boxWidth) {i : ℕ} (hi : i ≤ st.text.length) :
    Cstring.text 0 (st.instr.set i 0) = st.text.take i := by
  apply Cstring.text_set_nul hi
  have hsize := h.size
  have hbound := h.bound
  omega

/-- At the left edge the window moves, and no character is deleted. -/
theorem Inv.backspace (h : st.Inv boxWidth) (hbox : 0 < boxWidth) :
    (st.backspace boxWidth).Inv boxWidth ∧
      (st.backspace boxWidth).text =
        if st.inputX = 0 ∧ st.scroll ≠ 0 then st.text else st.text.dropLast := by
  have hplace := h.place
  have hwindow := h.window
  have hbound := h.bound
  unfold Inputbox.backspace
  by_cases hx : st.inputX = 0
  · by_cases hs : st.scroll = 0
    · have hnil : st.text = [] := List.eq_nil_of_length_eq_zero (by omega)
      rw [if_neg (by simp [hx, hs]), if_neg (by simp [hs]), hnil]
      exact ⟨h, rfl⟩
    · have hedge : st.inputX = 0 ∧ st.scroll ≠ 0 := ⟨hx, hs⟩
      rw [if_pos (Or.inr hs), if_pos hx, if_pos hedge]
      dsimp only
      generalize hscroll : (if st.scroll < boxWidth - 1 then 0
        else st.scroll - (boxWidth - 1)) = scroll
      have hle : scroll ≤ st.text.length ∧ st.text.length - scroll < boxWidth := by
        split_ifs at hscroll <;> omega
      have hend : scroll + (st.text.length - scroll) = st.text.length := by omega
      rw [hend]
      apply inv_of_text
      · rw [text_cut h le_rfl, List.take_length]
      · rw [List.length_set, h.size]
      · exact hle.2
      · exact hend
      · exact hbound
  · rw [if_pos (Or.inl hx), if_neg hx, if_neg (by simp [hx])]
    dsimp only
    have hend : st.scroll + (st.inputX - 1) = st.text.length - 1 := by omega
    rw [hend]
    apply inv_of_text
    · rw [text_cut h (by omega), List.dropLast_eq_take]
    · rw [List.length_set, h.size]
    · omega
    · rw [List.length_dropLast, hend]
    · rw [List.length_dropLast]
      omega

theorem ofNat_ne_zero {key : ℤ} (h : Prints key) : UInt8.ofNat key.toNat ≠ 0 := by
  have hprint : 32 ≤ key ∧ key < 127 := of_decide_eq_true h.2
  intro h0
  have hval := congrArg UInt8.toNat h0
  rw [UInt8.toNat_ofNat_of_lt' (by change _ < 256; omega)] at hval
  simp at hval
  omega

theorem Inv.insert (h : st.Inv boxWidth) {key : ℤ} (hkey : Prints key) :
    (st.insert boxWidth key).Inv boxWidth ∧
      (st.insert boxWidth key).text =
        if st.text.length < MAX_LEN then st.text ++ [UInt8.ofNat key.toNat] else st.text := by
  have hplace := h.place
  have hwindow := h.window
  have hsize := h.size
  unfold Inputbox.insert
  rw [hplace]
  by_cases hlen : st.text.length < MAX_LEN
  · rw [if_pos hlen, if_pos hlen]
    have htext : Cstring.text 0 ((st.instr.set st.text.length (UInt8.ofNat key.toNat)).set
        (st.text.length + 1) 0) = st.text ++ [UInt8.ofNat key.toNat] := by
      apply Cstring.text_set_concat (ofNat_ne_zero hkey)
      change st.text.length + 1 < _
      omega
    have hlen' : ((st.instr.set st.text.length (UInt8.ofNat key.toNat)).set
        (st.text.length + 1) 0).length = MAX_LEN + 1 := by
      rw [List.length_set, List.length_set, hsize]
    have hlonger : (st.text ++ [UInt8.ofNat key.toNat]).length = st.text.length + 1 := by
      rw [List.length_append, List.length_singleton]
    dsimp only
    split_ifs with hedge
    · exact inv_of_text _ htext hlen' hwindow (by omega) (by omega)
    · exact inv_of_text _ htext hlen' (by omega) (by omega) (by omega)
  · rw [if_neg hlen, if_neg hlen]
    exact ⟨h, rfl⟩

theorem buttonKey_ok {st' : Inputbox} {key : ℤ} (h : buttonKey key st = .ok st') :
    ∃ button, st' = { st with button := button } := by
  unfold buttonKey at h
  split_ifs at h
  · split at h
    all_goals
      cases h
      exact ⟨_, rfl⟩
  · split at h
    all_goals
      cases h
      exact ⟨_, rfl⟩
  · split at h
    all_goals cases h
  · cases h
    exact ⟨_, rfl⟩

/-- A key that the input field leaves to the buttons edits nothing. -/
theorem edit_eq_self {key : ℤ} (hback : ¬Backspaces key) (hprint : ¬Prints key)
    (text : List UInt8) : edit text key = text := by
  rw [edit, if_neg hback, if_neg fun h => hprint h.1]

/-- A round edits the text as the key asks, but for a backspace at the left edge. -/
theorem Inv.step (h : st.Inv boxWidth) (hbox : 0 < boxWidth) {key : ℤ} {st' : Inputbox}
    (hstep : st.step boxWidth key = .ok st') :
    st'.Inv boxWidth ∧
      st'.text =
        if st.button = .inputBox ∧ ¬(st.AtLeftEdge ∧ Backspaces key) then edit st.text key
        else st.text := by
  have hbutton : buttonKey key st = .ok st' → st'.Inv boxWidth ∧ st'.text = st.text := by
    intro hkey
    obtain ⟨button, rfl⟩ := buttonKey_ok hkey
    exact ⟨⟨h.size, h.window, h.place, h.bound⟩, rfl⟩
  unfold Inputbox.step at hstep
  by_cases hfocus : st.button = .inputBox
  · rw [if_pos hfocus] at hstep
    split_ifs at hstep with hmove hside hback hprint
    · obtain ⟨hinv, htext⟩ := hbutton hstep
      refine ⟨hinv, ?_⟩
      rw [edit_eq_self, ite_self, htext]
      · rcases hmove with rfl | rfl | rfl <;> decide
      · rcases hmove with rfl | rfl | rfl <;> decide
    · cases hstep
      refine ⟨h, ?_⟩
      rw [edit_eq_self, ite_self]
      · rcases hside with rfl | rfl <;> decide
      · rcases hside with rfl | rfl <;> decide
    · cases hstep
      obtain ⟨hinv, htext⟩ := h.backspace hbox
      refine ⟨hinv, ?_⟩
      rw [htext, edit, if_pos hback]
      simp only [AtLeftEdge, hfocus, hback, true_and, and_true]
      by_cases hedge : st.inputX = 0 ∧ st.scroll ≠ 0
      · rw [if_pos hedge, if_neg (not_not.mpr hedge)]
      · rw [if_neg hedge, if_pos hedge]
    · cases hstep
      obtain ⟨hinv, htext⟩ := h.insert hprint
      refine ⟨hinv, ?_⟩
      have hedit : st.button = .inputBox ∧ ¬(st.AtLeftEdge ∧ Backspaces key) :=
        ⟨hfocus, fun hedge => hback hedge.2⟩
      rw [htext, if_pos hedit, edit, if_neg hback]
      simp only [hprint, true_and]
    · obtain ⟨hinv, htext⟩ := hbutton hstep
      refine ⟨hinv, ?_⟩
      rw [edit_eq_self hback hprint, ite_self, htext]
  · rw [if_neg hfocus] at hstep
    rw [if_neg fun hedit => hfocus hedit.1]
    exact hbutton hstep

end Round

/-! ## A run over keys -/

theorem run_concat {boxWidth : ℕ} {s : Inputbox × List UInt8} {keys : List ℤ} {key : ℤ}
    {s' : Inputbox × List UInt8} :
    run boxWidth s (keys ++ [key]) = .ok s' ↔
      ∃ st text st', run boxWidth s keys = .ok (st, text) ∧ st.step boxWidth key = .ok st' ∧
        s' = (st', if st.button = .inputBox then edit text key else text) := by
  unfold run
  rw [List.foldlM_append]
  cases keys.foldlM (stepTyping boxWidth) s with
  | error code =>
    constructor
    · intro h
      cases h
    · rintro ⟨st, text, st', h, -⟩
      cases h
  | ok s₁ =>
    obtain ⟨st, text⟩ := s₁
    change List.foldlM (stepTyping boxWidth) (st, text) [key] = _ ↔ _
    rw [List.foldlM_cons]
    unfold stepTyping
    cases hstep : st.step boxWidth key with
    | error code =>
      constructor
      · intro h
        cases h
      · rintro ⟨_, _, st', h, hst', -⟩
        cases h
        rw [hstep] at hst'
        cases hst'
    | ok st' =>
      constructor
      · intro h
        cases h
        exact ⟨st, text, st', rfl, hstep, rfl⟩
      · rintro ⟨_, _, st'', h, hst', rfl⟩
        cases h
        rw [hstep] at hst'
        cases hst'
        rfl

end Inputbox

/-- A call of `dialog_inputbox`. -/
structure Dialog where
  boxWidth : ℕ
  dialogInputResult : List UInt8
  init : List UInt8
  columns : 2 ≤ boxWidth
  size : dialogInputResult.length = MAX_LEN + 1
  noNul : 0 ∉ init
  fits : init.length ≤ MAX_LEN

namespace Dialog
variable (d : Dialog)

/-- The box after some keys, and the text that the keys typed into its input field make. -/
def after (keys : List ℤ) : Except ℤ (Inputbox × List UInt8) :=
  Inputbox.run d.boxWidth (Inputbox.start d.boxWidth d.dialogInputResult d.init, d.init) keys

variable {d} {st : Inputbox} {text : List UInt8} {keys : List ℤ}

theorem boxWidth_pos (d : Dialog) : 0 < d.boxWidth := lt_of_lt_of_le (by decide) d.columns

theorem after_inv (h : d.after keys = .ok (st, text)) : st.Inv d.boxWidth := by
  induction keys using List.reverseRecOn generalizing st text with
  | nil =>
    cases h
    exact (Inputbox.inv_start d.boxWidth_pos d.size d.noNul d.fits).1
  | append_singleton keys key ih =>
    obtain ⟨st₁, text₁, st₂, hrun, hstep, heq⟩ := Inputbox.run_concat.mp h
    obtain ⟨rfl, rfl⟩ := Prod.mk.inj heq
    exact ((ih hrun).step d.boxWidth_pos hstep).1

/-- The next key of a run. -/
theorem after_take_succ {n : ℕ} {key : ℤ} (hkey : keys[n]? = some key) :
    d.after (keys.take (n + 1)) = .ok (st, text) ↔
      ∃ st₁ text₁ st₂, d.after (keys.take n) = .ok (st₁, text₁) ∧
        st₁.step d.boxWidth key = .ok st₂ ∧
        (st, text) = (st₂, if st₁.button = .inputBox then edit text₁ key else text₁) := by
  rw [List.take_add_one, hkey, Option.toList_some]
  exact Inputbox.run_concat

/-- As long as no backspace is pressed at the left edge, the box holds the text that is typed. -/
theorem after_text
    (hedge : ∀ n st text key, d.after (keys.take n) = .ok (st, text) → keys[n]? = some key →
      Inputbox.Backspaces key → ¬st.AtLeftEdge)
    (n : ℕ) (h : d.after (keys.take n) = .ok (st, text)) : st.text = text := by
  induction n generalizing st text with
  | zero =>
    cases h
    exact (Inputbox.inv_start d.boxWidth_pos d.size d.noNul d.fits).2
  | succ n ih =>
    cases hkey : keys[n]? with
    | none =>
      rw [List.take_add_one, hkey, Option.toList_none, List.append_nil] at h
      exact ih h
    | some key =>
      obtain ⟨st₁, text₁, st₂, hrun, hstep, heq⟩ := (after_take_succ hkey).mp h
      obtain ⟨rfl, rfl⟩ := Prod.mk.inj heq
      have hfree : ¬(st₁.AtLeftEdge ∧ Inputbox.Backspaces key) :=
        fun hback => hedge n st₁ text₁ key hrun hkey hback.2 hback.1
      have htext := ((after_inv hrun).step d.boxWidth_pos hstep).2
      simp only [hfree, not_false_eq_true, and_true] at htext
      rw [htext, ih hrun]

/-- A backspace at the left edge deletes nothing. -/
theorem step_of_atLeftEdge {key : ℤ} (hrun : d.after keys = .ok (st, text))
    (hback : Inputbox.Backspaces key) (hat : st.AtLeftEdge) :
    ∃ st', st.step d.boxWidth key = .ok st' ∧ st'.text = st.text := by
  have hstep : st.step d.boxWidth key = .ok (st.backspace d.boxWidth) := by
    rw [Inputbox.step, if_pos hat.1, if_neg, if_neg, if_pos hback]
    · rfl
    · rcases hback with rfl | rfl <;> decide
    · rcases hback with rfl | rfl <;> decide
  refine ⟨_, hstep, ?_⟩
  rw [((after_inv hrun).step d.boxWidth_pos hstep).2, if_neg]
  exact fun h => h.2 ⟨hat, hback⟩

variable (d keys)

/-- The box holds the text that is typed, after every key, exactly if no backspace is pressed with
the cursor at the left edge of the field while the text goes on to the left of it. -/
theorem after_text_iff :
    (∀ n st text, d.after (keys.take n) = .ok (st, text) →
      st.text = text ∧ st.scroll + st.inputX = st.text.length) ↔
    ∀ n st text key, d.after (keys.take n) = .ok (st, text) → keys[n]? = some key →
      Inputbox.Backspaces key → ¬st.AtLeftEdge := by
  constructor
  · intro h n st text key hrun hkey hback hat
    obtain ⟨htext, hplace⟩ := h n st text hrun
    obtain ⟨st', hstep, hkept⟩ := step_of_atLeftEdge hrun hback hat
    have hrun' : d.after (keys.take (n + 1)) = .ok (st', edit text key) := by
      rw [after_take_succ hkey]
      exact ⟨st, text, st', hrun, hstep, by rw [if_pos hat.1]⟩
    have htext' := (h (n + 1) st' _ hrun').1
    rw [hkept, htext, edit, if_pos hback] at htext'
    have hlen := congrArg List.length htext'
    rw [List.length_dropLast, ← htext, ← hplace, hat.2.1] at hlen
    have hscroll := hat.2.2
    omega
  · intro hedge n st text hrun
    exact ⟨after_text hedge n hrun, (after_inv hrun).place⟩

/-- A field of two columns with a text of three characters. -/
def narrow : Dialog where
  boxWidth := 2
  dialogInputResult := List.replicate (MAX_LEN + 1) 0
  init := [97, 98, 99]
  columns := le_rfl
  size := List.length_replicate
  noNul := by decide
  fits := by decide

/-- The second of two backspaces leaves the text as it is. -/
theorem narrow_after_text :
    ∃ st, narrow.after [KEY_BACKSPACE, KEY_BACKSPACE] = .ok (st, [97]) ∧ st.text = [97, 98] :=
  ⟨_, rfl, by decide +kernel⟩

end Dialog

end Grasshopper.Lxdialog
