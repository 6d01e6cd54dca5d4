import Grasshopper.Kconfig.Confdata.Normal
import Grasshopper.Kconfig.Conf.Moves
import Grasshopper.Kconfig.Menu.Submenus

/-! # Runs of `conf` that change nothing

Where every visible option has a user value and all values are computed, `conf` finds an answer to
each of its questions in what it knows already. It sets every option to the value it has, so no mark
is cleared and nothing is computed again.
-/

namespace Grasshopper.Kconfig.Conf

open Program

/-! ## Reading computed values -/

/-- A call that changes nothing in a state, and does not look at the user values. -/
def Looks {α : Type} (st : State) (f : State → α × State) : Prop :=
  ∀ X, f (st.withData X) = ((f st).1, st.withData X)

theorem Looks.self {α : Type} {st : State} {f : State → α × State} (h : Looks st f) :
    f st = ((f st).1, st) := h st.data

section Reading
variable {t : ParsedTree} {st : State} (h : st.Evaluated t)
include h

theorem optCalcValue_looks {e : Option Expr} (he : ∀ x ∈ optSyms e, t.InTable x) :
    Looks st (optCalcValue t.config (symCalcValue t.config) e) := by
  intro X
  have hX : ∀ x ∈ optSyms e, (st.withData X).valid x = true := fun x hx => h x (he x hx)
  rw [optCalcValue_again e hX, optCalcValue_again e fun x hx => h x (he x hx)]
  rfl

theorem firstActive_looks {ps : List Property}
    (hps : ∀ p ∈ ps, ∀ x ∈ optSyms p.visible, t.InTable x) :
    Looks st (firstActive t.config (symCalcValue t.config) ps) := by
  intro X
  induction ps with
  | nil => rfl
  | cons p ps ih =>
    rw [List.forall_mem_cons] at hps
    have hp := optCalcValue_looks h hps.1
    rw [firstActive, firstActive, hp X, hp.self]
    dsimp only
    split_ifs
    · rfl
    · exact ih hps.2

theorem symStringWithinRange_looks (s : Sym) (str : Text) :
    Looks st (symStringWithinRange t.config (symCalcValue t.config) s str) := by
  intro X
  have hrange := firstActive_looks h (t.ranges_inTable s) X
  unfold symStringWithinRange symGetRangeProp
  cases t.config.type s with
  | unknown | string => rfl
  | boolean | tristate =>
    dsimp only
    cases textTri str <;> rfl
  | int | hex =>
    dsimp only
    split_ifs
    · rfl
    · rw [hrange]

theorem calcPromptTri_looks {e : Entry} (he : e.Fits t.config) {p : Property}
    (hp : e.prompt = some p) : Looks st (calcPromptTri t.config e p) := by
  intro X
  unfold calcPromptTri
  cases hs : e.sym with
  | none => exact optCalcValue_looks h (he.syms p hp) X
  | some s =>
    have hv : st.valid s = true := h s (.inr (he.sym s hs))
    have hv' : (st.withData X).valid s = true := hv
    dsimp only
    rw [symCalcValue_of_valid hv, symCalcValue_of_valid hv']
    rfl

theorem entryIsVisible_looks {e : Entry} (he : e.Fits t.config) {below : State → Bool × State}
    (hb : Looks st below) : Looks st (entryIsVisible t.config e below) := by
  intro X
  unfold entryIsVisible
  cases hp : e.prompt with
  | none => rfl
  | some p =>
    have hlook := calcPromptTri_looks h he hp
    dsimp only
    rw [hlook X, hlook.self]
    dsimp only
    split_ifs
    · rfl
    · cases e.sym with
      | none => rfl
      | some s =>
        dsimp only
        by_cases hc : (st.curr s).tri = .no
        · have hc' : ((st.withData X).curr s).tri = .no := hc
          rw [if_pos hc, if_pos hc']
        · have hc' : ((st.withData X).curr s).tri ≠ .no := hc
          rw [if_neg hc, if_neg hc', hb X]

theorem anyIsVisible_looks {m : Menus} (hm : ∀ e ∈ m.preorder, e.Fits t.config) :
    Looks st (anyIsVisible t.config m) := by
  induction m with
  | nil => exact fun _ => rfl
  | node e l n ihl ihn =>
    simp only [Menus.preorder_node, List.forall_mem_cons, List.forall_mem_append] at hm
    have he := entryIsVisible_looks h hm.1 (ihl hm.2.1)
    intro X
    rw [anyIsVisible_node, anyIsVisible_node, he X, he.self]
    cases (entryIsVisible t.config e (anyIsVisible t.config l) st).1 with
    | true => rfl
    | false => exact ihn hm.2.2 X

theorem menuIsVisible_looks {m : Menus} (hm : ∀ e ∈ m.preorder, e.Fits t.config) :
    Looks st (menuIsVisible t.config m) := by
  cases m with
  | nil => exact fun _ => rfl
  | node e l n =>
    simp only [Menus.preorder_node, List.forall_mem_cons, List.forall_mem_append] at hm
    exact entryIsVisible_looks h hm.1 (anyIsVisible_looks h hm.2.1)

end Reading

/-! ## Setting what is there -/

/-- A prompt of the symbol is visible, or it is not `n`. -/
def Seen (cfg : Config) (st : State) (s : Sym) : Prop :=
  (∃ p ∈ cfg.prompts s, st.promptTri s p ≠ .no) ∨ (st.curr s).tri ≠ .no

/-- Everything is computed, and every value that can be seen is one that the user gave and could give
again. -/
structure Explicit (t : ParsedTree) (st : State) : Prop where
  evaluated : st.Evaluated t
  isNew : ∀ s, symIsChangable s st = true → st.isNew s = false
  text : ∀ s, (t.config.type s).isText = true → Seen t.config st s →
    ∃ v, (st.user s).val = .text v ∧ (st.curr s).val = .text v ∧ storedText (t.config.type s) v = v ∧
      (symStringWithinRange t.config (symCalcValue t.config) s v st).1 = true
  choice : ∀ c ∈ t.config.symbols, c.isChoice = true → (st.curr c).tri = .yes → st.isNew c = false ∧
    ∃ m, (st.curr c).val = .sym m ∧ t.config.choiceOf m = some c ∧ (st.curr m).tri = .yes ∧
      ∃ p ∈ t.config.prompts m, st.promptTri m p ≠ .no

/-- At most user values were changed since `st₀`: no `SYMBOL_NEW` was set, and no text. -/
structure Held (t : ParsedTree) (st₀ st : State) : Prop where
  same : ∃ X, st = st₀.withData X
  isNew : ∀ s, st.isNew s = true → st₀.isNew s = true
  text : ∀ s, (t.config.type s).isText = true → (st.user s).val = (st₀.user s).val

theorem Held.refl (t : ParsedTree) (st : State) : Held t st st := ⟨⟨st.data, rfl⟩, fun _ => id, fun _ _ => rfl⟩

section Setters
variable {t : ParsedTree} {st₀ st : State} {s : Sym}

theorem Looks.held {α : Type} {f : State → α × State} (h : Looks st₀ f) (hst : Held t st₀ st) :
    f st = ((f st₀).1, st) := by
  obtain ⟨X, rfl⟩ := hst.same
  exact h X

/-- A setter clears `SYMBOL_NEW` where it sets something. -/
theorem setTristateData_new {val : Tristate} {D : UserData} {u : Sym}
    (h : (setTristateData t.config s val D).isNew u = true) : D.isNew u = true := by
  by_cases hu : u ∈ touched t.config s val
  · by_cases hus : u = s
    · rw [hus, setTristateData_isNew] at h
      cases h
    · obtain ⟨rfl, hc⟩ := hu.resolve_left hus
      rw [(setTristateData_choice hc hus).2] at h
      cases h
  · rwa [(setTristateData_apart hu).2] at h

/-- It sets no text. -/
theorem setTristateData_val {val : Tristate} {D : UserData} {u : Sym} (hu : u.isChoice = false) :
    ((setTristateData t.config s val D).user u).val = (D.user u).val := by
  have hne : t.config.choiceOf s ≠ some u := fun hc => by
    simp [(isChoice_of_choiceOf hc).1] at hu
  by_cases hus : u = s
  · subst hus
    unfold setTristateData
    dsimp only
    split_ifs
    · cases hc : t.config.choiceOf u with
      | none => simp [UserData.setTri, UserData.setNew]
      | some c =>
        have huc : u ≠ c := fun h => hne (h ▸ hc)
        simp [UserData.setTri, UserData.setVal, UserData.setNew, huc]
    · simp [UserData.setTri, UserData.setNew]
  · rw [(setTristateData_apart fun h => h.elim hus fun h => hne h.2).1]

/-- A bool or tristate symbol is set to its value. -/
theorem Held.setTristate (h : Held t st₀ st) (hchoices : t.SimpleChoices) {val : Tristate}
    (hval : (st₀.curr s).tri = val) : (symSetTristateValue t.config s val st).1 = true ∧
      Held t st₀ (symSetTristateValue t.config s val st).2 := by
  obtain ⟨⟨X, rfl⟩, hnew, htext⟩ := h
  have hcurr : ((st₀.withData X).curr s).tri = val := hval
  have hset : symSetTristateValue t.config s val (st₀.withData X) =
      (true, st₀.withData (setTristateData t.config s val (st₀.withData X).data)) := by
    rw [symSetTristateValue, if_neg (fun hne => hne.1 hcurr)]
    dsimp only
    rw [if_neg (not_not.mpr hcurr)]
    rfl
  rw [hset]
  refine ⟨rfl, ⟨_, rfl⟩, fun u hu => ?_, fun u hu => ?_⟩
  · have hu' : (setTristateData t.config s val (st₀.withData X).data).isNew u = true := hu
    have hold : (st₀.withData X).data.isNew u = true := setTristateData_new hu'
    exact hnew u hold
  · exact (setTristateData_val (hchoices.not_isChoice hu)).trans (htext u hu)

/-- A text that is the user value is set again. -/
theorem Held.setString (h : Held t st₀ st) (hev : st₀.Evaluated t) {v : Text}
    (hty : (t.config.type s).isText = true) (huser : (st₀.user s).val = .text v)
    (hstored : storedText (t.config.type s) v = v)
    (hrange : (symStringWithinRange t.config (symCalcValue t.config) s v st₀).1 = true) :
    (symSetStringValue t.config s v st).1 = true ∧ Held t st₀ (symSetStringValue t.config s v st).2 := by
  have hlook := (symStringWithinRange_looks hev s v).held h
  rw [hrange] at hlook
  have huser' : (st.user s).val = .text v := (h.text s hty).trans huser
  have hset : symSetStringValue t.config s v st = (true, st.setNew s false) := by
    rw [symSetStringValue, if_neg (by simp [SymType.not_isLogic_of_isText hty]), hlook]
    exact if_pos ⟨hstored, huser'⟩
  rw [hset]
  obtain ⟨⟨X, rfl⟩, hnew, htext⟩ := h
  refine ⟨rfl, ⟨X.setNew s false, rfl⟩, fun u hu => ?_, htext⟩
  by_cases hus : u = s
  · simp [State.setNew, hus] at hu
  · exact hnew u (by simpa [State.setNew, hus] using hu)

end Setters

/-! ## Questions -/

/-- A walk comes to its end, and changes nothing but user values. -/
structure Unmoved (t : ParsedTree) (st₀ : State) (w w' : World) : Prop where
  held : Held t st₀ w'.st
  rest : w' = { w with st := w'.st }

/-- A walk in one of the modes `P` comes to its end, and changes nothing but user values. -/
def Rests (t : ParsedTree) (st₀ : State) (P : InputMode → Prop) (c : Walk Unit) : Prop :=
  ∀ w : World, Held t st₀ w.st → P w.inputMode → Halts c w fun _ w' => Unmoved t st₀ w w'

section Walks
variable {t : ParsedTree} {st₀ : State} {P : InputMode → Prop} {w : World}

theorem Unmoved.trans {w' w'' : World} (h : Unmoved t st₀ w w') (h' : Unmoved t st₀ w' w'') :
    Unmoved t st₀ w w'' := by
  refine ⟨h'.held, ?_⟩
  rw [h'.rest, h.rest]

theorem Unmoved.inputMode {w' : World} (h : Unmoved t st₀ w w') : w'.inputMode = w.inputMode := by
  rw [h.rest]

theorem Rests.pure : Rests t st₀ P (pure ()) := fun _ hw _ => .pure ⟨hw, rfl⟩

theorem Rests.seq {c c' : Walk Unit} (h : Rests t st₀ P c) (h' : Rests t st₀ P c') :
    Rests t st₀ P (c >>= fun _ => c') := by
  intro w hw hP
  refine .bind ((h w hw hP).mono fun _ w₁ h₁ => ?_)
  exact (h' w₁ h₁.held (h₁.inputMode.symm ▸ hP)).mono fun _ w₂ h₂ => h₁.trans h₂

/-- A call that only looks at the state. -/
theorem Looks.ends {α : Type} {f : State → α × State} (h : Looks st₀ f) (hw : Held t st₀ w.st)
    {Q : α → World → Prop} (hQ : Q (f st₀).1 w) : Halts (onState f) w Q := by
  refine .step ?_
  rw [h.held hw]
  exact hQ

/-- The modes in which `conf` asks for what is new at most. -/
def Silent (mode : InputMode) : Prop := mode = .askNew ∨ mode = .setDefault

theorem symIsChangable_held (hw : Held t st₀ w.st) (s : Sym) :
    symIsChangable s w.st = symIsChangable s st₀ := by
  obtain ⟨X, hX⟩ := hw.same
  rw [hX]
  rfl

theorem Held.isNew_false (hw : Held t st₀ w.st) {s : Sym} (h : st₀.isNew s = false) :
    w.st.isNew s = false := by
  by_contra hne
  rw [Bool.not_eq_false] at hne
  rw [hw.isNew s hne] at h
  cases h

theorem Held.curr (hw : Held t st₀ w.st) : w.st.curr = st₀.curr := by
  obtain ⟨X, hX⟩ := hw.same
  rw [hX]
  rfl

variable (hst : Explicit t st₀) (hchoices : t.SimpleChoices)
include hst

/-- Every question is answered with the end of a line. -/
theorem confAskvalue_halts (hw : Held t st₀ w.st) (hmode : Silent w.inputMode) (s : Sym) :
    Halts (confAskvalue t.config s) w fun line w' => line = ['\n'] ∧ w' = w := by
  refine .bind (.getState ?_)
  by_cases hc : symIsChangable s w.st = false
  · rw [if_pos hc]
    exact .pure ⟨rfl, rfl⟩
  rw [if_neg hc]
  rw [Bool.not_eq_false, symIsChangable_held hw] at hc
  have hnew : w.st.isNew s = false := hw.isNew_false (hst.isNew s hc)
  rcases hmode with hm | hm
  · simp only [hm, hnew, if_true]
    exact .pure ⟨rfl, rfl⟩
  · simp only [hm]
    exact .pure ⟨rfl, rfl⟩

theorem confString_rests {s : Sym} (hty : (t.config.type s).isText = true)
    (hs : Seen t.config st₀ s) : Rests t st₀ Silent (confString t.config s) := by
  intro w hw hP
  obtain ⟨v, huser, hval, hstored, hrange⟩ := hst.text s hty hs
  have hvalue : stringValue? t.config s w.st = some v := by
    have hval' : (w.st.curr s).val = .text v := by rw [hw.curr, hval]
    have hl := SymType.not_isLogic_of_isText hty
    simp [stringValue?, symGetStringValue, hl, hval', Val.toText]
  refine .bind (.getState (.bind (.report (.loop (.bind (.getState (.bind ?_)))))))
  refine (confAskvalue_halts hst hw hP s).mono fun line w' h => ?_
  obtain ⟨rfl, rfl⟩ := h
  have hset := hw.setString hst.evaluated hty huser hstored hrange
  simp only [stringAnswer, hvalue]
  refine .bind (.step ?_)
  rw [hset.1]
  exact .pure ⟨(), rfl, hset.2, rfl⟩

include hchoices

theorem confSym_rests (s : Sym) : Rests t st₀ Silent (confSym t.config s) := by
  intro w hw hP
  refine .bind (.getState (.bind (.report (.loop (.bind (.getState (.bind ?_)))))))
  refine (confAskvalue_halts hst hw hP s).mono fun line w' h => ?_
  obtain ⟨rfl, rfl⟩ := h
  have hline : strip ['\n'] = [] := by decide
  have hset := hw.setTristate hchoices (s := s) rfl
  rw [hline]
  simp only [symAnswer, hw.curr]
  refine .bind (.step ?_)
  rw [hset.1]
  exact .pure ⟨(), rfl, hset.2, rfl⟩

theorem confOption_rests {s : Sym} (hs : Seen t.config st₀ s) :
    Rests t st₀ Silent (confOption t.config s) := by
  unfold confOption
  split_ifs with hty
  · exact confString_rests hst hty hs
  · exact confSym_rests hst hchoices s

end Walks

/-! ## Choices -/

/-- The symbols of the visible children of a choice. -/
def childs (cfg : Config) (st : State) : Menus → List Sym
  | .nil => []
  | .node e l n =>
    match e.sym with
    | none => childs cfg st n
    | some s =>
      if (menuIsVisible cfg (.node e l n) st).1 then s :: childs cfg st n else childs cfg st n

section Childs
variable {t : ParsedTree} {st : State} (h : st.Evaluated t) {m : Menus}
  (hm : ∀ e ∈ m.preorder, e.Fits t.config)
include h hm

theorem countChilds_looks (defSym : Val) (cnt dflt : ℕ) :
    Looks st (countChilds t.config defSym m cnt dflt) := by
  induction m generalizing cnt dflt with
  | nil => exact fun _ => rfl
  | node e l n _ ihn =>
    have hv := menuIsVisible_looks h hm
    simp only [Menus.preorder_node, List.forall_mem_cons, List.forall_mem_append] at hm
    intro X
    rw [countChilds, countChilds, hv X, hv.self]
    cases (menuIsVisible t.config (.node e l n) st).1 with
    | false => exact ihn hm.2.2 _ _ X
    | true =>
      cases e.sym with
      | none => exact ihn hm.2.2 _ _ X
      | some s => exact ihn hm.2.2 _ _ X

theorem findChild_looks (pos : ℕ) (cnt : ℤ) : Looks st (findChild t.config m pos cnt) := by
  induction m generalizing pos cnt with
  | nil => exact fun _ => rfl
  | node e l n _ ihn =>
    have hv := menuIsVisible_looks h hm
    simp only [Menus.preorder_node, List.forall_mem_cons, List.forall_mem_append] at hm
    intro X
    unfold findChild
    cases e.sym with
    | none => exact ihn hm.2.2 _ _ X
    | some s =>
      dsimp only
      rw [hv X, hv.self]
      cases (menuIsVisible t.config (.node e l n) st).1 with
      | false => exact ihn hm.2.2 _ _ X
      | true =>
        dsimp only
        split_ifs
        · rfl
        · exact ihn hm.2.2 _ _ X

/-- The number of the selected child is its place among the visible ones. -/
theorem countChilds_value (x : Sym) (cnt dflt : ℕ) : ∃ k,
    (countChilds t.config (.sym x) m cnt dflt st).1 = (cnt + (childs t.config st m).length, k) ∧
      if x ∈ childs t.config st m then
        ∃ j, (childs t.config st m)[j]? = some x ∧ k = cnt + j + 1
      else k = dflt := by
  induction m generalizing cnt dflt with
  | nil => exact ⟨dflt, rfl, rfl⟩
  | node e l n _ ihn =>
    have hv := (menuIsVisible_looks h hm).self
    simp only [Menus.preorder_node, List.forall_mem_cons, List.forall_mem_append] at hm
    rw [countChilds, childs, hv]
    cases (menuIsVisible t.config (.node e l n) st).1 with
    | false => cases e.sym <;> exact ihn hm.2.2 cnt dflt
    | true =>
      cases e.sym with
      | none => exact ihn hm.2.2 cnt dflt
      | some s =>
        obtain ⟨k, hcount, hk⟩ := ihn hm.2.2 (cnt + 1) (if Val.sym x = .sym s then cnt + 1 else dflt)
        refine ⟨k, ?_, ?_⟩
        · dsimp only
          rw [hcount, if_pos rfl, List.length_cons, Nat.add_right_comm, Nat.add_assoc]
        change if x ∈ s :: childs t.config st n then
            ∃ j, (s :: childs t.config st n)[j]? = some x ∧ k = cnt + j + 1
          else k = dflt
        by_cases hin : x ∈ childs t.config st n
        · rw [if_pos hin] at hk
          obtain ⟨j, hj, rfl⟩ := hk
          rw [if_pos (List.mem_cons_of_mem s hin)]
          exact ⟨j + 1, hj, by omega⟩
        rw [if_neg hin] at hk
        by_cases hxs : x = s
        · subst hxs
          rw [if_pos rfl] at hk
          rw [if_pos List.mem_cons_self]
          exact ⟨0, rfl, by omega⟩
        · rw [if_neg (by simpa using hxs)] at hk
          rwa [if_neg (by simp [hin, hxs])]

/-- The loop after `conf_childs` finds the child with a number. -/
theorem findChild_value {j : ℕ} {x : Sym} (hx : (childs t.config st m)[j]? = some x) (pos : ℕ) :
    ∃ i, (findChild t.config m pos (j + 1 : ℕ) st).1 = some (i, x) := by
  induction m generalizing j pos with
  | nil => simp [childs] at hx
  | node e l n _ ihn =>
    have hv := (menuIsVisible_looks h hm).self
    simp only [Menus.preorder_node, List.forall_mem_cons, List.forall_mem_append] at hm
    unfold childs at hx
    unfold findChild
    cases hs : e.sym with
    | none =>
      rw [hs] at hx
      exact ihn hm.2.2 hx _
    | some s =>
      rw [hs] at hx
      dsimp only at hx ⊢
      rw [hv]
      cases hvis : (menuIsVisible t.config (.node e l n) st).1 with
      | false =>
        rw [hvis] at hx
        exact ihn hm.2.2 hx _
      | true =>
        rw [hvis, if_pos rfl] at hx
        dsimp only
        cases j with
        | zero =>
          rw [List.getElem?_cons_zero, Option.some.injEq] at hx
          exact ⟨pos, by simp [hx]⟩
        | succ j =>
          rw [List.getElem?_cons_succ] at hx
          obtain ⟨i, hi⟩ := ihn hm.2.2 hx (pos + 1)
          refine ⟨i, ?_⟩
          rw [if_neg (by push_cast; omega)]
          simpa using hi

end Childs

/-- Every prompt of a member is that of a child of the choice. -/
def HoldsMembers (cfg : Config) (c : Sym) (list : Menus) : Prop :=
  ∀ m ∈ cfg.symbols, cfg.choiceOf m = some c → ∀ p ∈ cfg.prompts m,
    ∃ e ∈ list.siblings, e.sym = some m ∧ e.prompt = some p

instance (cfg : Config) (c : Sym) (list : Menus) : Decidable (HoldsMembers cfg c list) :=
  inferInstanceAs (Decidable (∀ _ ∈ _, _))

/-- A member with a visible prompt is a visible child. -/
theorem mem_childs {t : ParsedTree} {st : State} (h : st.Evaluated t) {list : Menus}
    (hlist : ∀ e ∈ list.preorder, e.Fits t.config) {m : Sym} {p : Property}
    (hp : st.promptTri m p ≠ .no) (he : ∃ e ∈ list.siblings, e.sym = some m ∧ e.prompt = some p) :
    m ∈ childs t.config st list := by
  induction list with
  | nil => simp [Menus.siblings] at he
  | node e l n _ ihn =>
    simp only [Menus.preorder_node, List.forall_mem_cons, List.forall_mem_append] at hlist
    obtain ⟨e', he', hs, hprompt⟩ := he
    unfold childs
    rcases List.mem_cons.mp he' with rfl | he'
    · have hshown : (menuIsVisible t.config (.node e' l n) st).1 = true := by
        change (entryIsVisible t.config e' _ st).1 = true
        have hv : symCalcValue t.config m st = st :=
          symCalcValue_of_valid (h m (.inr (hlist.1.sym m hs)))
        simp [entryIsVisible, hprompt, calcPromptTri, hs, hv, hp]
      rw [hs]
      dsimp only
      rw [if_pos hshown]
      exact List.mem_cons_self
    · have hin := ihn hlist.2.2 ⟨e', he', hs, hprompt⟩
      cases e.sym with
      | none => exact hin
      | some s =>
        dsimp only
        split_ifs
        · exact List.mem_cons_of_mem s hin
        · exact hin

/-- A choice that has been asked for is answered with the number of the selected member. -/
theorem choiceAnswer_halts {w : World} (hmode : Silent w.inputMode) {isNew : Bool}
    (hnew : isNew = false) (cnt dflt : ℕ) : Halts (choiceAnswer isNew cnt dflt) w fun o w' =>
      o = some ((dflt : ℤ), ['0']) ∧ w' = w := by
  refine .bind (.getState ?_)
  rcases hmode with hm | hm
  · simp only [hm, hnew, if_true]
    exact .pure ⟨rfl, rfl⟩
  · simp only [hm]
    exact .pure ⟨rfl, rfl⟩

section Choice
variable {t : ParsedTree} {st₀ : State} (hst : Explicit t st₀) (hchoices : t.SimpleChoices)
  {list : Menus} (hlist : ∀ e ∈ list.preorder, e.Fits t.config) {below : List (Walk Unit)}
  (hbelow : ∀ c ∈ below, Rests t st₀ Silent c)
include hst hchoices hlist hbelow

/-- The child with the number of the selected member is set again. -/
theorem chooseChild_halts {w : World} (hw : Held t st₀ w.st) (hmode : Silent w.inputMode) {j : ℕ}
    {x : Sym} (hx : (childs t.config st₀ list)[j]? = some x) (hyes : (st₀.curr x).tri = .yes) :
    Halts (chooseChild t.config list below (j + 1 : ℕ) ['0']) w fun o w' =>
      ∃ a, o = some a ∧ Unmoved t st₀ w w' := by
  obtain ⟨i, hi⟩ := findChild_value hst.evaluated hlist hx 0
  refine .bind ((findChild_looks hst.evaluated hlist 0 _).ends hw ?_)
  rw [hi]
  dsimp only
  rw [if_neg (by decide)]
  have hset := hw.setTristate hchoices hyes
  refine .bind (.step (.bind ?_))
  have hchild : Rests t st₀ Silent (below.getD i (pure ())) := by
    rw [List.getD_eq_getElem?_getD]
    cases hb : below[i]? with
    | none => exact .pure
    | some c => exact hbelow c (List.mem_of_getElem? hb)
  have hrest := hchild { w with st := (symSetTristateValue t.config x .yes w.st).2 } hset.2 hmode
  refine hrest.mono fun _ w' h => ?_
  exact .pure ⟨(), rfl, h.held, h.rest⟩

theorem confChoice_rests {c : Sym} (hc : c.isChoice = true) (hin : c ∈ t.config.symbols)
    (hmembers : HoldsMembers t.config c list) :
    Rests t st₀ Silent (confChoice t.config c list below) := by
  intro w hw hmode
  have hcalc : Looks st₀ fun st => ((), symCalcValue t.config c st) := by
    intro X
    have hv : (st₀.withData X).valid c = true := hst.evaluated c (.inr hin)
    dsimp only
    rw [symCalcValue_of_valid hv]
  have hask : Rests t st₀ Silent (confSym t.config c >>= fun _ =>
      onState fun st => ((), symCalcValue t.config c st)) :=
    (confSym_rests hst hchoices c).seq fun w hw _ => hcalc.ends hw ⟨hw, rfl⟩
  have hfirst : Halts (when (symIsChangable c w.st) (confSym t.config c >>= fun _ =>
      onState fun st => ((), symCalcValue t.config c st))) w fun _ w' => Unmoved t st₀ w w' := by
    unfold when
    split_ifs
    · exact hask w hw hmode
    · exact .pure ⟨hw, rfl⟩
  refine .bind (.getState (.bind (hfirst.mono fun _ w₁ h₁ => .bind (.getState ?_))))
  unfold when
  split_ifs with hyes
  swap
  · exact .pure h₁
  rw [h₁.held.curr] at hyes
  obtain ⟨hnew, m, hsel, hof, hm, p, hp, hvis⟩ := hst.choice c hin hc hyes
  have hnew' : w.st.isNew c = false := hw.isNew_false hnew
  have hmin : m ∈ t.config.symbols :=
    t.mem_symbols_of_member (t.linked.link m c (isChoice_of_choiceOf hof).2.2).2.1
  have hmem := mem_childs hst.evaluated hlist hvis (hmembers m hmin hof p hp)
  obtain ⟨k, hcount, hk⟩ := countChilds_value hst.evaluated hlist m 0 0
  rw [if_pos hmem] at hk
  obtain ⟨j, hj, rfl⟩ := hk
  refine .bind (.report (.loop (.bind (.getState ?_))))
  rw [h₁.held.curr, hsel]
  refine .bind ((countChilds_looks hst.evaluated hlist _ 0 0).ends h₁.held ?_)
  rw [hcount]
  dsimp only
  have hchild (n : ℤ) (hn : n = (j + 1 : ℕ)) := hn ▸ chooseChild_halts hst hchoices hlist hbelow h₁.held
    (h₁.inputMode.symm ▸ hmode) hj hm
  have hdone {o : Option Unit} {w' : World} (h : ∃ a, o = some a ∧ Unmoved t st₀ w₁ w') :
      ∃ a, o = some a ∧ Unmoved t st₀ w w' := by
    obtain ⟨a, rfl, h⟩ := h
    exact ⟨a, rfl, h₁.trans h⟩
  split_ifs with hone
  · have hj0 : j = 0 := by
      have := (List.getElem?_eq_some_iff.mp hj).1
      omega
    exact (hchild 1 (by simp [hj0])).mono fun _ _ => hdone
  have hanswer := choiceAnswer_halts (h₁.inputMode.symm ▸ hmode) hnew'
    (0 + (childs t.config st₀ list).length) (0 + j + 1)
  refine .bind (hanswer.mono fun o w₂ h₂ => ?_)
  obtain ⟨rfl, rfl⟩ := h₂
  exact (hchild _ (by omega)).mono fun _ _ => hdone

end Choice

/-! ## Walks -/

/-- The members of each choice are its children. -/
def ChoicesHold (cfg : Config) : Menus → Prop
  | .nil => True
  | .node e l n => (∀ c ∈ e.sym, c.isChoice = true → HoldsMembers cfg c l) ∧
      ChoicesHold cfg l ∧ ChoicesHold cfg n

instance decidableChoicesHold (cfg : Config) : (m : Menus) → Decidable (ChoicesHold cfg m)
  | .nil => .isTrue trivial
  | .node _ l n =>
    have := decidableChoicesHold cfg l
    have := decidableChoicesHold cfg n
    inferInstanceAs (Decidable (_ ∧ _ ∧ _))

section Walks
variable {t : ParsedTree} {st₀ : State} (hst : Explicit t st₀)
include hst

/-- What is visible can be seen. -/
theorem seen_of_menuIsVisible {e : Entry} {l n : Menus} (he : e.Fits t.config)
    (hv : (menuIsVisible t.config (.node e l n) st₀).1 = true) {s : Sym} (hs : e.sym = some s) :
    Seen t.config st₀ s := by
  have hcalc : symCalcValue t.config s st₀ = st₀ :=
    symCalcValue_of_valid (hst.evaluated s (.inr (he.sym s hs)))
  have hv' : (entryIsVisible t.config e (anyIsVisible t.config l) st₀).1 = true := hv
  unfold entryIsVisible at hv'
  cases hp : e.prompt with
  | none => simp [hp] at hv'
  | some p =>
    simp only [hp, calcPromptTri, hs, hcalc] at hv'
    split_ifs at hv' with hne hno
    · exact .inl ⟨p, he.prompt s p hs hp, hne⟩
    · exact .inr hno

theorem conf_rests (hchoices : t.SimpleChoices) (check : ℕ → Menus → Walk Unit) {m : Menus}
    (hm : ∀ e ∈ m.preorder, e.Fits t.config) (hhold : ChoicesHold t.config m) :
    (∀ i, Rests t st₀ Silent (conf t.config check i m)) ∧
      (∀ i, Rests t st₀ Silent (confAll t.config check i m)) ∧
      ∀ i, ∀ c ∈ confBelow t.config check i m, Rests t st₀ Silent c := by
  induction m with
  | nil =>
    refine ⟨fun _ => ?_, fun _ => ?_, fun _ c hc => by simp [confBelow] at hc⟩
    · unfold conf
      exact .pure
    · unfold confAll
      exact .pure
  | node e l n ihl ihn =>
    have hvis := menuIsVisible_looks hst.evaluated hm
    simp only [Menus.preorder_node, List.forall_mem_cons, List.forall_mem_append] at hm
    obtain ⟨hfirst, hall, hbelow⟩ := ihl hm.2.1 hhold.2.1
    obtain ⟨-, hnext, hafter⟩ := ihn hm.2.2 hhold.2.2
    have hconf (i : ℕ) : Rests t st₀ Silent (conf t.config check i (.node e l n)) := by
      intro w hw hmode
      refine .bind (hvis.ends hw (.bind (.getState ?_)))
      have hnone : ¬(isMenu e = true ∧ w.inputMode = .askSilent ∧ w.rootEntry ≠ some i) := by
        rintro ⟨-, h, -⟩
        rcases hmode with hmode | hmode <;> cases hmode.symm.trans h
      rw [if_neg hnone]
      split_ifs with hv
      · exact .pure ⟨hw, rfl⟩
      rw [Bool.not_eq_false] at hv
      cases hs : e.sym with
      | none => exact hall _ w hw hmode
      | some s =>
        dsimp only
        split_ifs with hc
        · have hrest := confChoice_rests hst hchoices hm.2.1 (hbelow (i + 1)) hc (hm.1.sym s hs)
            (hhold.1 s hs hc)
          refine (hrest.seq fun w hw hmode => ?_) w hw hmode
          refine .bind (.getState ?_)
          unfold when
          split_ifs
          · exact hall _ w hw hmode
          · exact .pure ⟨hw, rfl⟩
        · have hrest := confOption_rests hst hchoices (seen_of_menuIsVisible hst hm.1 hv hs)
          exact hrest.seq (hall _) w hw hmode
    refine ⟨hconf, fun i => ?_, fun i c hc => ?_⟩
    · unfold confAll
      exact (hconf i).seq (hnext _)
    · unfold confBelow at hc
      rcases List.mem_cons.mp hc with rfl | hc
      · exact hfirst _
      · exact hafter _ c hc

/-- `check_conf` finds nothing to ask for. -/
theorem checkConf_rests (ask : ℕ → Menus → Walk Unit) {m : Menus}
    (hm : ∀ e ∈ m.preorder, e.Fits t.config) :
    (∀ parent i, Rests t st₀ (fun _ => True) (checkConf t.config ask parent i m)) ∧
      ∀ parent i, Rests t st₀ (fun _ => True) (checkAll t.config ask m parent i) := by
  induction m with
  | nil =>
    refine ⟨fun _ _ => ?_, fun _ _ => ?_⟩
    · unfold checkConf
      exact .pure
    · unfold checkAll
      exact .pure
  | node e l n ihl ihn =>
    have hvis := menuIsVisible_looks hst.evaluated hm
    simp only [Menus.preorder_node, List.forall_mem_cons, List.forall_mem_append] at hm
    have hcheck (parent : ℕ × Menus) (i : ℕ) :
        Rests t st₀ (fun _ => True) (checkConf t.config ask parent i (.node e l n)) := by
      intro w hw _
      refine .bind (hvis.ends hw ?_)
      by_cases hv : (menuIsVisible t.config (.node e l n) st₀).1 = false
      · rw [if_pos hv]
        exact .pure ⟨hw, rfl⟩
      rw [if_neg hv]
      dsimp only
      generalize (if isMenu e = true then (i, Menus.node e l n) else parent) = inner
      cases e.sym with
      | none => exact (ihl hm.2.1).2 _ _ w hw trivial
      | some s =>
        have hnone : ¬(symIsChangable s w.st = true ∧ w.st.isNew s = true) := by
          rintro ⟨hc, hnew⟩
          rw [symIsChangable_held hw] at hc
          rw [hw.isNew_false (hst.isNew s hc)] at hnew
          cases hnew
        refine .bind (.getState (.bind ?_))
        rw [when, if_neg hnone]
        refine .pure (.bind (.getState ?_))
        unfold when
        split_ifs
        · exact .pure ⟨hw, rfl⟩
        · exact (ihl hm.2.1).2 _ _ w hw trivial
    refine ⟨hcheck, fun parent i => ?_⟩
    unfold checkAll
    exact (hcheck parent i).seq ((ihn hm.2.2).2 parent _)

/-- `conf` comes to its end without reading a line, and changes nothing but user values. -/
theorem configure_halts (hchoices : t.SimpleChoices)
    (hhold : ChoicesHold t.config (rootMenu t.config)) {w : World} (hw : w.st = st₀)
    (hmode : w.inputMode = .askNew ∨ w.inputMode = .askSilent ∨ w.inputMode = .setDefault) :
    Halts (configure t.config) w fun _ w' => Held t st₀ w'.st ∧ w'.stdin = w.stdin := by
  have hfits := rootMenu_fits t
  have hloop {w : World} (hw : Held t st₀ w.st) :
      Halts (checkLoop t.config) w fun _ w' => Held t st₀ w'.st ∧ w'.stdin = w.stdin := by
    have hcheck := (checkConf_rests hst (confMenu t.config) hfits).1 (0, rootMenu t.config) 0
    refine .loop (.bind (.modifyState (.bind ?_)))
    refine (hcheck { w with confCnt := 0 } hw trivial).mono fun _ w' h => ?_
    have hcnt : w'.confCnt = 0 := by rw [h.rest]
    have hstdin : w'.stdin = w.stdin := by rw [h.rest]
    refine .bind (.getState (.pure ⟨(), if_pos hcnt, h.held, hstdin⟩))
  have hwalk (hmode : Silent w.inputMode) : Halts (configure t.config) w fun _ w' =>
      Held t st₀ w'.st ∧ w'.stdin = w.stdin := by
    have hne : w.inputMode ≠ .askSilent := by
      rintro h
      rcases hmode with hmode | hmode <;> cases hmode.symm.trans h
    have hne' : w.inputMode ≠ .askAll := by
      rintro h
      rcases hmode with hmode | hmode <;> cases hmode.symm.trans h
    have hconf := (conf_rests hst hchoices
      (fun i m => checkConf t.config (confAt t.config (t.config.menus.size + 1)) (i, m) i m) hfits
      hhold).1 0
    refine .bind (.getState (.bind ?_))
    rw [when, if_pos hne]
    refine .bind (.modifyState (.bind ?_))
    refine (hconf { w with rootEntry := some 0 } (hw ▸ .refl t st₀) hmode).mono fun _ w' h => ?_
    have hkeep : w'.inputMode = w.inputMode := by rw [h.rest]
    have hstdin : w'.stdin = w.stdin := by rw [h.rest]
    refine .modifyState ?_
    rw [if_neg (hkeep ▸ hne')]
    exact (hloop h.held).mono fun _ w'' h' => ⟨h'.1, h'.2.trans hstdin⟩
  rcases hmode with hm | hm | hm
  · exact hwalk (.inl hm)
  · refine .bind (.getState (.bind ?_))
    rw [when, if_neg (not_not.mpr hm)]
    exact .pure (hloop (hw ▸ .refl t st₀))
  · exact hwalk (.inr hm)

end Walks

end Grasshopper.Kconfig.Conf
