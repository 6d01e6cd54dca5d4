import Grasshopper.Kconfig.Confdata.Reload

/-! # Choices in a session

A choice that is not `n` has exactly one member that is `y`, at any time. A member that was selected
is selected again whenever it is visible, until another one is selected or a file is read.
-/

namespace Grasshopper.Kconfig

theorem isChoice_of_choiceOf {t : ParsedTree} {s c : Sym} (h : t.config.choiceOf s = some c) :
    c.isChoice = true ∧ s.isChoice = false ∧ t.config.link s = some c := by
  unfold Config.choiceOf at h
  split_ifs at h with hs
  exact ⟨(t.linked.link s c h).1, by simpa using hs, h⟩

/-- The choices that are bool or tristate, with members of their own that have no defaults. -/
structure ParsedTree.SimpleChoices (t : ParsedTree) : Prop where
  choice : ∀ k, t.config.type (.choice k) ≠ .unknown → (t.config.type (.choice k)).isLogic = true
  member : ∀ m, t.config.isChoiceValue m = true →
    (t.config.type m).isLogic = true ∧ t.config.defaults m = []
  own : ∀ k, t.config.type (.choice k) ≠ .unknown →
    ∀ m ∈ t.config.candidates (.choice k), t.config.link m = some (.choice k)

/-- It is enough to look at the symbols of the table. -/
theorem ParsedTree.simpleChoices_of_symbols {t : ParsedTree}
    (h : ∀ s ∈ t.config.symbols, (s.isChoice = true → t.config.type s ≠ .unknown →
        (t.config.type s).isLogic = true ∧ ∀ m ∈ t.config.candidates s, t.config.link m = some s) ∧
      (t.config.isChoiceValue s = true →
        (t.config.type s).isLogic = true ∧ t.config.defaults s = [])) : t.SimpleChoices where
  choice k hk := ((h _ (ParsedTree.mem_symbols_of_typed (t.linked.typed _ hk) hk)).1 rfl hk).1
  own k hk := ((h _ (ParsedTree.mem_symbols_of_typed (t.linked.typed _ hk) hk)).1 rfl hk).2
  member m hm := by
    obtain ⟨c, hc⟩ := Option.isSome_iff_exists.mp hm
    exact (h m (t.mem_symbols_of_member (t.linked.link m c hc).2.1)).2 hm

/-! ## The values of a choice and its members -/

namespace ParsedTree.SimpleChoices
variable {t : ParsedTree} {D : UserData} {ρ : Sym → SymbolValue} {c m : Sym}
  (hchoices : t.SimpleChoices) (hρ : Dependency.Solution (currOf t.config D) ρ) (ht : t.Regular)
  (hmod : D.modulesVal = .no)

include hchoices hρ

omit hρ in
/-- No symbol with a text is a choice. -/
theorem not_isChoice (h : (t.config.type c).isText = true) : c.isChoice = false := by
  cases c with
  | choice k =>
    have hl := SymType.not_isLogic_of_isText h
    rw [hchoices.choice k fun hu => by simp [hu, SymType.isText] at h] at hl
    cases hl
  | _ => rfl

/-- A choice that is `n` has not selected a member. -/
theorem val_of_off (hc : c.isChoice = true) (hoff : (ρ c).tri = .no) : (ρ c).val ≠ .sym m := by
  have hst : c.isStatic = false := by cases c <;> simp_all [Sym.isChoice, Sym.isStatic]
  have hcurr := hρ c
  by_cases hty : t.config.type c = .unknown
  · rw [hcurr, currOf, if_neg (by simp [hst]), if_pos hty]
    cases c.name? <;> simp
  rw [currOf_dynamic hst hty] at hcurr
  split_ifs at hcurr with hl
  · unfold logicCurr at hcurr
    split_ifs at hcurr
    · cases hsel : selected t.config D ρ c with
      | none => simp [hcurr, hsel]
      | some x => simp [hcurr, hsel] at hoff
    · simp [hcurr]
  · cases c with
    | choice k => exact absurd (hchoices.choice k hty) hl
    | _ => simp [Sym.isChoice] at hc

/-- A hidden member is `n`. -/
theorem member_hidden (hm : t.config.choiceOf m = some c)
    (hv : visibleTri t.config D ρ m = .no) : (ρ m).tri = .no := by
  obtain ⟨-, hmc, hlink⟩ := isChoice_of_choiceOf hm
  have hmember : t.config.isChoiceValue m = true := by simp [Config.isChoiceValue, hlink]
  obtain ⟨hl, hdefaults⟩ := hchoices.member m hmember
  have hno : logicTri t.config D ρ m = .no := by
    rw [logicTri_hidden (by simp [hv, reverseTri, hmember]), if_neg (by simp [hmc])]
    simp [activeDefault, hdefaults, defaultValue]
  rw [tri_of_solution hρ hmc hl, newTri, hno]
  exact if_neg (by simp)

include hmod

/-- A visible member is `y` exactly if its choice has selected it. -/
theorem member_shown (hm : t.config.choiceOf m = some c)
    (hv : visibleTri t.config D ρ m ≠ .no) :
    (ρ m).tri = if (ρ c).val = .sym m then .yes else .no := by
  obtain ⟨-, hmc, hlink⟩ := isChoice_of_choiceOf hm
  have hmember : t.config.isChoiceValue m = true := by simp [Config.isChoiceValue, hlink]
  have hl := (hchoices.member m hmember).1
  have hlogic : logicTri t.config D ρ m = if (ρ c).val = .sym m then .yes else .no := by
    rw [logicTri_member ⟨hmember, visibleTri_yes hmod hv⟩, hm]
    simp
  rw [tri_of_solution hρ hmc hl, newTri, hlogic]
  split_ifs <;> simp_all

include ht

/-- A choice that is not `n` has selected a visible member. -/
theorem exists_selected (hD : D.Candidates t.config) (hc : c.isChoice = true)
    (hon : (ρ c).tri ≠ .no) :
    ∃ m, selected t.config D ρ c = some m ∧ ρ c = ⟨.sym m, .yes⟩ ∧
      t.config.choiceOf m = some c ∧ visibleTri t.config D ρ m ≠ .no := by
  obtain ⟨hl, hnew, htri⟩ := newTri_of_choice hmod hρ hc hon
  have hst : c.isStatic = false := by cases c <;> simp_all [Sym.isChoice, Sym.isStatic]
  have hty : t.config.type c ≠ .unknown := fun hu => by simp [hu, SymType.isLogic] at hl
  have hcurr := hρ c
  rw [currOf_dynamic hst hty, if_pos hl, logicCurr, if_pos ⟨hc, hnew⟩] at hcurr
  cases hsel : selected t.config D ρ c with
  | none =>
    rw [hsel] at hcurr
    exact absurd (by rw [hcurr]) hon
  | some m =>
    rw [hsel] at hcurr
    have hvis : visibleTri t.config D (selecting ρ c) m ≠ .no := by
      simpa using List.find?_some hsel
    rw [visibleTri_selecting hl htri] at hvis
    have hcand : m ∈ t.config.candidates c :=
      mem_candidates_of_preferred hD hc (List.mem_of_find?_eq_some hsel)
    have hlink : t.config.link m = some c := by
      cases c with
      | choice k => exact hchoices.own k hty m hcand
      | _ => simp [Sym.isChoice] at hc
    have hmc : m.isChoice = false := by
      cases m with
      | choice k => simp [ht.single k] at hlink
      | _ => rfl
    exact ⟨m, rfl, hcurr, by simp [Config.choiceOf, hmc, hlink], hvis⟩

omit ht in
/-- The members of a choice that has selected one. -/
theorem member_of_selected (hm : t.config.choiceOf m = some c) (hcurr : ρ c = ⟨.sym m, .yes⟩)
    (hv : visibleTri t.config D ρ m ≠ .no) : (ρ m).tri = .yes ∧
      ∀ x, t.config.choiceOf x = some c → x ≠ m → (ρ x).tri = .no := by
  refine ⟨?_, fun x hx hne => ?_⟩
  · rw [member_shown hchoices hρ hmod hm hv, hcurr, if_pos rfl]
  · by_cases hvx : visibleTri t.config D ρ x = .no
    · exact member_hidden hchoices hρ hx hvx
    · rw [member_shown hchoices hρ hmod hx hvx, hcurr, if_neg]
      exact fun heq => hne (Val.sym.inj heq).symm

end ParsedTree.SimpleChoices

/-! ## At any time -/

section Session
variable {t : ParsedTree} {st st₁ st₂ : State} {c m : Sym} {order : List Sym} (ht : t.Regular)
  (hm : t.config.type modulesSym = .unknown) (hchoices : t.SimpleChoices)
  (ho : ∀ s, s ∈ order ↔ s ∈ t.config.symbols)
include ht hm hchoices ho

/-- After a recalculation a choice that is not `n` has selected the first that is visible of: the
member that the user has selected, the defaults whose conditions hold, the members. -/
theorem choice_selects_first (h : Session t True st) (hc : c.isChoice = true)
    (hin : c ∈ t.config.symbols) :
    let st' := calcAll t.config order (symClearAllValid t.config st)
    (st'.curr c).tri ≠ .no → ∃ m, st'.curr c = ⟨.sym m, .yes⟩ ∧
      (userChoice (st.user c).val ++
        ((t.config.defaults c).filter fun p => conditionTri t.config st'.curr p ≠ .no).filterMap
          (·.getSymbol) ++ t.config.members c).find? (fun x => st'.visible x ≠ .no) = some m := by
  have hsane := h.sane ht.toTidy ht.typed hm
  obtain ⟨ρ, hρ⟩ := ht.toTidy.exists_solution hsane.data.own.candidates
  obtain ⟨hsettled, -⟩ := ht.toTidy.recalculate hm hsane.toProper hsane.data.own ho hρ
  have hmod : st.data.modulesVal = .no := hsane.data.modulesVal
  have hcurr {x : Sym} (hx : t.InTable x) :
      (calcAll t.config order (symClearAllValid t.config st)).curr x = ρ x := by
    refine hsettled.good.curr ?_ (Set.notMem_empty x)
    exact hx.elim (hsettled.good.static x) (hsettled.valid x)
  dsimp only
  rw [hcurr (.inr hin)]
  intro hon
  obtain ⟨m, hsel, hval, -, -⟩ := hchoices.exists_selected hρ ht hmod hsane.data.own.candidates hc hon
  obtain ⟨hl, -, htri⟩ := newTri_of_choice hmod hρ hc hon
  refine ⟨m, hval, ?_⟩
  have hcond : ∀ p ∈ t.config.defaults c, conditionTri t.config
      (calcAll t.config order (symClearAllValid t.config st)).curr p =
        conditionTri t.config (selecting ρ c) p := by
    intro p hp
    rw [conditionTri_selecting hl htri]
    exact conditionTri_congr fun x hx =>
      hcurr ((t.props_inTable (List.mem_filter.mp hp).1).1 x hx)
  have hvis : ∀ x ∈ preferred t.config st.data (selecting ρ c) c,
      (calcAll t.config order (symClearAllValid t.config st)).visible x =
        visibleTri t.config st.data (selecting ρ c) x := by
    intro x hx
    have hcand := mem_candidates_of_preferred hsane.data.own.candidates hc hx
    have hlink : t.config.link x = some c := by
      cases c with
      | choice k => exact hchoices.own k (fun hu => by simp [hu, SymType.isLogic] at hl) x hcand
      | _ => simp [Sym.isChoice] at hc
    have hlx := (hchoices.member x (by simp [Config.isChoiceValue, hlink])).1
    have hty : t.config.type x ≠ .unknown := fun hu => by simp [hu, SymType.isLogic] at hlx
    have hdone := hsettled.good.done x
      (hsettled.valid x (ParsedTree.mem_symbols_of_typed (t.linked.typed x hty) hty))
      (Set.notMem_empty x)
    rw [(hdone.known hty).visible, visibleTri_selecting hl htri]
  rw [← hsel, selected, ← List.head?_filter, ← List.head?_filter]
  have hlist : userChoice (st.user c).val ++ ((t.config.defaults c).filter fun p => conditionTri
      t.config (calcAll t.config order (symClearAllValid t.config st)).curr p ≠ .no).filterMap
        (·.getSymbol) ++ t.config.members c = preferred t.config st.data (selecting ρ c) c := by
    unfold preferred
    rw [List.filter_congr fun p hp => by rw [hcond p hp]]
    rfl
  rw [hlist, List.filter_congr fun x hx => by rw [hvis x hx]]

end Session

/-! ## What the user has selected -/

/-- What a session does that selects no member of `c` but `m`. -/
inductive Keeping (t : ParsedTree) (c m : Sym) (st : State) : State → Prop
  | refl : Keeping t c m st st
  | evaluate {st' : State} {s : Sym} (h : Keeping t c m st st') (hs : s ∈ t.config.symbols) :
      Keeping t c m st (symCalcValue t.config s st')
  | setTristate {st' : State} {s : Sym} (h : Keeping t c m st st') (hs : s ∈ t.config.symbols)
      (val : Tristate) (hother : t.config.choiceOf s = some c → val = .yes → s = m) :
      Keeping t c m st (symSetTristateValue t.config s val st').2
  | setString {st' : State} {s : Sym} (h : Keeping t c m st st') (hs : s ∈ t.config.symbols)
      (newval : Text) (hother : t.config.choiceOf s = some c → textTri newval = some .yes → s = m) :
      Keeping t c m st (symSetStringValue t.config s newval st').2
  | write {st' : State} (h : Keeping t c m st st') : Keeping t c m st (confWrite t.config st').2

theorem Keeping.session {t : ParsedTree} {st st' : State} {c m : Sym} (h : Session t True st)
    (hk : Keeping t c m st st') : Session t True st' := by
  induction hk with
  | refl => exact h
  | evaluate _ hs ih => exact ih.evaluate hs
  | setTristate _ hs val _ ih => exact ih.setTristate hs val
  | setString _ hs newval _ ih => exact ih.setString hs newval
  | write _ ih => exact ih.write trivial

theorem Keeping.calcAll {t : ParsedTree} {st st' : State} {c m : Sym} (hk : Keeping t c m st st')
    (order : List Sym) (ho : ∀ s ∈ order, s ∈ t.config.symbols) :
    Keeping t c m st (calcAll t.config order st') := by
  induction order generalizing st' with
  | nil => exact hk
  | cons s order ih =>
    rw [List.forall_mem_cons] at ho
    exact ih (hk.evaluate ho.1) ho.2

theorem symClearAllValid_user (cfg : Config) (st : State) :
    (symClearAllValid cfg st).user = st.user := (symCalcValue_keeps modulesSym _).user

section Remembers
variable {t : ParsedTree} {st st' : State} {c m s : Sym}

/-- A choice remembers the member that is set to `y`. -/
theorem setTristateData_remembered (hc : c.isChoice = true) (val : Tristate) (D : UserData) :
    ((setTristateData t.config s val D).user c).val =
      if t.config.choiceOf s = some c ∧ val = .yes then .sym s else (D.user c).val := by
  split_ifs with hsel
  · obtain ⟨hchoice, rfl⟩ := hsel
    have hne : c ≠ s := by
      rintro rfl
      simp [(isChoice_of_choiceOf hchoice).2.1] at hc
    rw [(setTristateData_choice hchoice hne).1]
  · by_cases hcs : c = s
    · subst hcs
      simp [setTristateData, Config.choiceOf, hc, UserData.setTri, UserData.setNew]
    · rw [(setTristateData_apart fun hin => hin.elim hcs fun hin => hsel hin.symm).1]

theorem symSetTristateValue_user (cfg : Config) (s : Sym) (val : Tristate) (st : State) :
    (symSetTristateValue cfg s val st).2.user =
      if (symSetTristateValue cfg s val st).1 then (setTristateData cfg s val st.data).user
      else st.user := by
  unfold symSetTristateValue
  dsimp only
  by_cases hreject : (st.curr s).tri ≠ val ∧ (!symTristateWithinRange cfg s val st) = true
  · rw [if_pos hreject]
    rfl
  · rw [if_neg hreject]
    by_cases hsame : (st.curr s).tri ≠ val
    · rw [if_pos hsame]
      exact symClearAllValid_user cfg _
    · rw [if_neg hsame]
      rfl

/-- A setter lets a choice remember its member, or what it remembered before. -/
theorem symSetTristateValue_remembers (hc : c.isChoice = true) (val : Tristate)
    (hother : t.config.choiceOf s = some c → val = .yes → s = m)
    (h : (st.user c).val = .sym m) :
    ((symSetTristateValue t.config s val st).2.user c).val = .sym m := by
  rw [symSetTristateValue_user]
  split_ifs
  · rw [setTristateData_remembered hc]
    split_ifs with hsel
    · rw [hother hsel.1 hsel.2]
    · exact h
  · exact h

variable (ht : t.Regular) (hm : t.config.type modulesSym = .unknown) (hchoices : t.SimpleChoices)
include ht hm hchoices

theorem symSetStringValue_remembers (hsession : Session t True st) (hc : c.isChoice = true)
    (newval : Text) (hother : t.config.choiceOf s = some c → textTri newval = some .yes → s = m)
    (h : (st.user c).val = .sym m) :
    ((symSetStringValue t.config s newval st).2.user c).val = .sym m := by
  unfold symSetStringValue
  split_ifs with hl
  · cases htri : textTri newval with
    | none => exact h
    | some val =>
      exact symSetTristateValue_remembers hc val
        (fun hsel hval => hother hsel (by rw [htri, hval])) h
  by_cases htext : (t.config.type s).isText = true
  · obtain ⟨D, ρ, htracks, -⟩ := hsession.traced ht.toTidy ht.typed hm
    have hreads := (symStringWithinRange_reads (htracks.semantics ht.toTidy hm) htext
      (t.ranges_inTable s) newval htracks.good).1
    have huser := hreads.ext.choose_spec.user
    generalize symStringWithinRange t.config (symCalcValue t.config) s newval st = r at huser
    obtain ⟨ok, st₁⟩ := r
    have hold : (st₁.user c).val = .sym m := (congrArg (fun user => (user c).val) huser).trans h
    have hcs : c ≠ s := by
      rintro rfl
      cases c with
      | choice k =>
        refine hl (hchoices.choice k fun hu => ?_)
        simp [hu, SymType.isText] at htext
      | _ => simp [Sym.isChoice] at hc
    cases ok with
    | false => exact hold
    | true =>
      dsimp only
      split_ifs
      · exact hold
      · rw [symClearAllValid_user]
        simpa [State.withData, State.data, UserData.setNew, UserData.setVal, hcs] using hold
  · have hty : t.config.type s = .unknown := by
      cases hty : t.config.type s <;> simp_all [SymType.isText, SymType.isLogic]
    simpa [symStringWithinRange, hty] using h

theorem Keeping.remembers (hsession : Session t True st) (hc : c.isChoice = true)
    (h : (st.user c).val = .sym m) (hk : Keeping t c m st st') : (st'.user c).val = .sym m := by
  induction hk with
  | refl => exact h
  | @evaluate st' s _ _ ih => rwa [(symCalcValue_keeps s st').user]
  | setTristate _ _ val hother ih => exact symSetTristateValue_remembers hc val hother ih
  | setString hk _ newval hother ih =>
    exact symSetStringValue_remembers ht hm hchoices (hk.session hsession) hc newval hother ih
  | @write st' _ ih =>
    have hwalk : Keeps ∅ (writeStart t.config st') (walked t.config st') :=
      writeLines_keeps _ fun _ hin => hin.elim
    rw [confWrite_state, hwalk.user]
    unfold writeStart
    split_ifs
    · rwa [symClearAllValid_user]
    · exact ih

end Remembers

/-! ## Two members -/

/-- A member of the choice is set. -/
def selectedState (m : Sym) : State :=
  (symSetTristateValue choiceTree.config m .yes
    (calcAll choiceTree.config choiceTree.config.symbols .initial)).2

theorem selectedState_session : Session choiceTree True (selectedState (named ['L'])) :=
  (Session.parsed.calcAll _ fun _ => id).setTristate (by decide) .yes

theorem choiceTree_simpleChoices : choiceTree.SimpleChoices :=
  ParsedTree.simpleChoices_of_symbols (by decide)

end Grasshopper.Kconfig
