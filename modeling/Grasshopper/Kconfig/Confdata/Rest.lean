import Grasshopper.Kconfig.Confdata.Load
import Grasshopper.Kconfig.Menu.Shown

/-! # States at rest

`conf_read`, the setters and the evaluations in between never leave a symbol that is marked
`SYMBOL_VALID` with a visibility that is not final. This holds of every tree without cycles in which
a choice selects only symbols with a type.
-/

namespace Grasshopper.Kconfig

namespace ParsedTree
variable (t : ParsedTree)

theorem orderly (hac : Dependency.Acyclic t.config.uses) (hty : t.TypedChoices) :
    Orderly t.config where
  acyclic := hac
  table := t.uses_inTable
  listed s hs := mem_symbols_of_typed (t.linked.typed s hs) hs
  dynamic := t.symbols_not_static
  typed s hs ht m hm := by
    cases s with
    | choice k => exact hty k ht m hm
    | _ => simp [Sym.isChoice] at hs

theorem entry_fits : ∀ e ∈ t.config.menus.preorder, e.Fits t.config := by
  intro e he
  obtain ⟨⟨γ, e'⟩, hx, hR⟩ := t.finalized_placed.1.exists_of_mem e he
  have hprop {p : Property} (hp : e.prompt = some p) : p ∈ e.props ∧ p.text.isSome = true :=
    List.mem_filter.mp (List.mem_of_getLast? hp)
  refine ⟨fun s hs => ?_, fun s p hs hp => ?_, fun p hp x hx => ?_⟩
  · obtain ⟨hin, hst⟩ := t.entry_inTable e' (Menus.mem_preorder_of_contexts hx) s (hR.sym ▸ hs)
    exact hin.resolve_left (by simp [hst])
  · refine List.mem_filter.mpr ⟨?_, (hprop hp).2⟩
    refine List.mem_append_right _ (List.mem_flatMap.mpr ⟨e, ?_, (hprop hp).1⟩)
    exact List.mem_filter.mpr ⟨he, by simp [hs]⟩
  · obtain ⟨q, -, -, hin⟩ := hR.of_mem p (hprop hp).1
    exact (hin.syms x hx).1

end ParsedTree

/-- What is true of a state between two calls. -/
structure State.Sound (t : ParsedTree) (st : State) : Prop where
  rest : st.AtRest t.config
  own : st.data.OwnMembers t.config

variable {t : ParsedTree} {st st' : State} {s : Sym}

theorem Later.sound (h : Later t.config st st') (hst : st.Sound t) : st'.Sound t := by
  refine ⟨h.atRest, fun k m hm => hst.own k m ?_⟩
  have hu : st'.data.user = st.data.user := h.went.keeps.user
  rwa [← hu]

/-- All marks are cleared. -/
theorem atRest_of_cleared (ord : Orderly t.config) (st : State)
    (hv : ∀ s ∈ t.config.symbols, st.valid s = false)
    (hs : ∀ s, s.isStatic = true → st.valid s = true) (hr : st.data.OwnMembers t.config) :
    st.Sound t where
  rest :=
    { known := fun f hf => by
        rcases hf with hf | ⟨-, hty, hu, -⟩
        · exact hf.elim
        · rw [hv _ (ord.listed _ hty)] at hu
          cases hu
      static := hs
      remembered := hr.candidates }
  own := hr

section Setters
variable (ord : Orderly t.config)
include ord

theorem symClearAllValid_sound (hs : ∀ s, s.isStatic = true → st.valid s = true)
    (hr : st.data.OwnMembers t.config) : (symClearAllValid t.config st).Sound t := by
  have hclear := atRest_of_cleared ord { st with
      valid := fun s => st.valid s && !decide (s ∈ t.config.symbols)
      changeCount := st.changeCount + 1 } (fun s hs => by simp [hs])
    (fun s hst => by
      have hnot : s ∉ t.config.symbols := fun hmem => by simp [ord.dynamic s hmem] at hst
      simp [hs s hst, hnot]) hr
  exact (symCalcValue_later ord hclear.rest t.modulesSym_mem).1.sound hclear

omit ord in
/-- User values that are set without a recalculation. -/
theorem State.Sound.withData (h : st.Sound t) {D : UserData} (hD : D.OwnMembers t.config) :
    (st.withData D).Sound t where
  rest :=
    { known := fun f hf => by
        have hk := h.rest.known f hf
        exact hk.keep (fun x hx => (hk.closed x hx).2) (fun _ h => h) (fun _ _ => rfl)
          (fun _ => rfl) ⟨rfl, rfl, rfl⟩
      static := h.rest.static
      remembered := hD.candidates }
  own := hD

omit ord in
theorem setTristateData_own {D : UserData} (h : D.OwnMembers t.config) (s : Sym) (val : Tristate) :
    (setTristateData t.config s val D).OwnMembers t.config := by
  intro k m hm
  have htri (D : UserData) : ((D.setTri s val).user (.choice k)).val = (D.user (.choice k)).val := by
    by_cases hk : .choice k = s <;> simp_all [UserData.setTri]
  unfold setTristateData at hm
  dsimp only at hm
  rw [htri] at hm
  split_ifs at hm with hc
  · cases hl : t.config.choiceOf s with
    | none =>
      rw [hl] at hm
      exact h k m hm
    | some c =>
      have hlink : t.config.link s = some c := by
        unfold Config.choiceOf at hl
        split_ifs at hl
        exact hl
      rw [hl] at hm
      by_cases hk : .choice k = c
      · subst hk
        have hsm : s = m := by simpa [UserData.setVal, UserData.setNew] using hm
        exact hsm ▸ hlink
      · exact h k m (by simpa [UserData.setVal, UserData.setNew, Function.update_apply, hk] using hm)
  · exact h k m hm

theorem symSetTristateValue_sound (h : st.Sound t) (val : Tristate) :
    (symSetTristateValue t.config s val st).2.Sound t := by
  have hD : (setTristateData t.config s val st.data).OwnMembers t.config :=
    setTristateData_own h.own s val
  unfold symSetTristateValue
  dsimp only
  split_ifs
  · exact h
  · exact symClearAllValid_sound ord h.rest.static hD
  · exact h.withData hD

theorem symStringWithinRange_later (h : st.AtRest t.config) (s : Sym) (str : Text) :
    Later t.config st (symStringWithinRange t.config (symCalcValue t.config) s str st).2 := by
  have hrange : Later t.config st (symGetRangeProp t.config (symCalcValue t.config) s st).2 :=
    firstActive_later ord h (t.ranges_inTable s)
  unfold symStringWithinRange
  split
  · exact .refl h
  · split_ifs
    · exact .refl h
    · exact hrange
  · split_ifs
    · exact .refl h
    · exact hrange
  · split <;> exact .refl h
  · split <;> exact .refl h
  · exact .refl h

theorem symSetStringValue_sound (h : st.Sound t) (newval : Text) :
    (symSetStringValue t.config s newval st).2.Sound t := by
  have hl := symStringWithinRange_later ord h.rest s newval
  unfold symSetStringValue
  split_ifs
  · split
    · exact symSetTristateValue_sound ord h _
    · exact h
  · generalize symStringWithinRange t.config (symCalcValue t.config) s newval st = r at hl
    obtain ⟨ok, st₁⟩ := r
    have h₁ : st₁.Sound t := hl.sound h
    cases ok with
    | false => exact h₁
    | true =>
      dsimp only
      split_ifs
      · have hset : (st₁.data.setNew s false).OwnMembers t.config := h₁.own
        exact h₁.withData hset
      · refine symClearAllValid_sound ord h₁.rest.static fun k m hm => h₁.own k m ?_
        by_cases hk : .choice k = s
        · subst hk
          simp [State.withData, State.data, UserData.setVal] at hm
        · simpa [State.withData, State.data, UserData.setVal, UserData.setNew,
            Function.update_apply, hk] using hm

/-! ## `conf_read` -/

omit ord in
theorem State.Sound.setNew (h : st.Sound t) (s : Sym) (b : Bool) : (st.setNew s b).Sound t :=
  have hset : (st.data.setNew s b).OwnMembers t.config := h.own
  h.withData hset

theorem readSymbol_sound (h : st.Sound t) (hs : s ∈ t.config.symbols) :
    (readSymbol t.config st s).Sound t := by
  have hcalc := (symCalcValue_later ord h.rest hs).1.sound h
  have hown : (readOwn t.config s (symCalcValue t.config s st)).Sound t := by
    generalize symCalcValue t.config s st = st₁ at hcalc
    have hvis : (if st₁.visible s = .no then st₁.setNew s true else st₁).Sound t := by
      split_ifs
      · exact hcalc.setNew s true
      · exact hcalc
    unfold readOwn
    by_cases hu : !st₁.isNew s ∧ !t.config.isChoiceValue s
    · rw [if_pos hu]
      dsimp only
      by_cases hty : (t.config.type s).isText = true
      · rw [if_pos hty]
        generalize (if st₁.visible s = .no then st₁.setNew s true else st₁) = st₂ at hvis
        have hr := (symStringWithinRange_later ord hvis.rest s (st₂.user s).val.toText).sound hvis
        split_ifs
        · exact hr.setNew s true
        · exact hr
      · rwa [if_neg hty]
    · rwa [if_neg hu]
  unfold readSymbol readMembers
  split_ifs
  · exact hown.setNew s _
  · exact hown

/-- `conf_read` leaves a state at rest. -/
theorem confRead_sound {file : Text} (h : confRead t.config file State.initial = .ok st) :
    st.Sound t := by
  unfold confRead at h
  cases hD : readData t.config file State.initial.data with
  | error e => simp [hD, bind, Except.bind] at h
  | ok D =>
    rw [hD] at h
    obtain rfl := Except.ok.inj h
    have hown : D.OwnMembers t.config := (fileData_sane hD).own
    have hclear := atRest_of_cleared ord { State.initial.withData D with
        valid := fun s => State.initial.valid s && !decide (s ∈ t.config.symbols) }
      (fun s hs => by simp [hs])
      (fun s hst => by
        have hnot : s ∉ t.config.symbols := fun hmem => by simp [ord.dynamic s hmem] at hst
        simp [State.initial, hst, hnot]) hown
    have hmod := (symCalcValue_later ord hclear.rest t.modulesSym_mem).1.sound hclear
    have main (l : List Sym) (hl : ∀ s ∈ l, s ∈ t.config.symbols) {st : State} (h : st.Sound t) :
        (l.foldl (readSymbol t.config) st).Sound t := by
      induction l generalizing st with
      | nil => exact h
      | cons s l ih =>
        rw [List.forall_mem_cons] at hl
        exact ih hl.2 (readSymbol_sound ord h hl.1)
    have hlast := main t.config.symbols (fun _ hs => hs) hmod
    refine ⟨{ hlast.rest with known := fun f hf => ?_ }, hlast.own⟩
    have hk := hlast.rest.known f hf
    exact hk.keep (fun x hx => (hk.closed x hx).2) (fun _ h => h) (fun _ _ => rfl) (fun _ => rfl)
      ⟨rfl, rfl, rfl⟩

end Setters

end Grasshopper.Kconfig
