import Grasshopper.Kconfig.Confdata.Session

/-! # Reading a file in a session

What `conf_read` leaves depends on the file alone, whatever was read, set or written before. It is
not always stable: `SYMBOL_NEW` is set after the values are computed, and decides about the next
ones.
-/

namespace Grasshopper.Kconfig

/-! ## The flags are determined -/

section Flags
variable {cfg : Config} {D : UserData} {ρ : Sym → SymbolValue} {f g : Sym → Bool}

/-- The members of a choice come before it, so their flags decide about its own. -/
theorem LoadedNew.unique (hf : LoadedNew cfg D ρ f) (hg : LoadedNew cfg D ρ g)
    (hbefore : ∀ {l l' c m}, c.isChoice = true → cfg.symbols = l ++ c :: l' →
      m ∈ cfg.members c → m ∈ l) : f = g := by
  have main (l l' : List Sym) (hl : cfg.symbols = l ++ l') : ∀ s ∈ l, f s = g s := by
    induction l using List.reverseRecOn generalizing l' with
    | nil => exact List.forall_mem_nil _
    | append_singleton l s ih =>
      rw [List.append_assoc, List.singleton_append] at hl
      have hdone : ∀ u ∈ l, f u = g u := ih (s :: l') hl
      simp only [List.forall_mem_append, List.forall_mem_singleton]
      refine ⟨hdone, ?_⟩
      have hs : s ∈ cfg.symbols := by simp [hl]
      rw [hf.symbol s hs, hg.symbol s hs]
      by_cases hc : s.isChoice = true
      · have hany : ((cfg.members s).any fun m => shown cfg D ρ m && f m) =
            (cfg.members s).any fun m => shown cfg D ρ m && g m := by
          rw [Bool.eq_iff_iff, List.any_eq_true, List.any_eq_true]
          refine exists_congr fun m => and_congr_right fun hm => ?_
          rw [hdone m (hbefore hc hl hm)]
        rw [hany]
      · simp [hc]
  ext s
  by_cases hs : s ∈ cfg.symbols
  · exact main cfg.symbols [] (by simp) s hs
  · rw [hf.outside s hs, hg.outside s hs]

end Flags

/-! ## Two states after the same file -/

section Forget
variable {t : ParsedTree} {D : UserData} {ρ : Sym → SymbolValue} {st st' st₁ st₁' st₂ : State}

/-- The values of a state that has been loaded. -/
theorem Loaded.curr (h : Loaded t.config D ρ st st') (hst : st.Sane t.config)
    (hty : t.TypedChoices) (hD : D.Sane t.config) {s : Sym} (hs : t.InTable s) :
    st'.curr s = if s.isStatic then State.initial.curr s else ρ s := by
  rcases hs with hs | hs
  · rw [if_pos hs]
    exact ((h.sane hst hD hty.typedCandidates t.symbols_not_static).static s hs).2
  · rw [if_neg (by simp [t.symbols_not_static s hs])]
    exact h.settled.good.curr (h.settled.valid s hs) (Set.notMem_empty s)

theorem Loaded.visible (h : Loaded t.config D ρ st st') (hst : st.Sane t.config)
    (hty : t.TypedChoices) (hD : D.Sane t.config) (s : Sym) :
    st'.visible s = if t.config.type s = .unknown then .no else visibleTri t.config D ρ s := by
  split_ifs with htyped
  · exact (h.sane hst hD hty.typedCandidates t.symbols_not_static).untyped s htyped
  · have hs : s ∈ t.config.symbols := ParsedTree.mem_symbols_of_typed (t.linked.typed s htyped) htyped
    have hd := h.settled.good.done s (h.settled.valid s hs) (Set.notMem_empty s)
    exact (hd.known htyped).visible

theorem Session.sane {saves : Prop} (ht : t.Tidy) (hty : t.TypedChoices)
    (hm : t.config.type modulesSym = .unknown) (h : Session t saves st) : st.Sane t.config :=
  (h.traced ht hty hm).choose_spec.choose_spec.1.sane

end Forget

/-! ## The next evaluation -/

section Hidden
variable {cfg : Config} {D D' : UserData} {ρ : Sym → SymbolValue} {s : Sym}

theorem selected_of_user (huser : D'.user s = D.user s) (hmod : D'.modulesVal = D.modulesVal) :
    selected cfg D' ρ s = selected cfg D ρ s := by
  have hvis (u : Sym) : visibleTri cfg D' (selecting ρ s) u = visibleTri cfg D (selecting ρ s) u :=
    visibleTri_of_modulesVal hmod _ u
  simp only [selected, preferred, huser, hvis]

/-- The user value of a hidden symbol decides nothing. -/
theorem newTri_of_hidden (hmod : D'.modulesVal = D.modulesVal) (hv : visibleTri cfg D ρ s = .no) :
    newTri cfg D' ρ s = newTri cfg D ρ s := by
  have hvis : visibleTri cfg D' ρ s = visibleTri cfg D ρ s := visibleTri_of_modulesVal hmod ρ s
  have hlogic : logicTri cfg D' ρ s = logicTri cfg D ρ s := by
    unfold logicTri
    rw [hvis, hv, reverseTri_of_modulesVal hmod]
    simp only [Tristate.min_no_right]
  rw [newTri, newTri, hlogic, knownType, knownType, hvis, hmod]

theorem textVal_of_hidden (hmod : D'.modulesVal = D.modulesVal) (hv : visibleTri cfg D ρ s = .no) :
    textVal cfg D' ρ s = textVal cfg D ρ s := by
  rw [textVal, textVal, visibleTri_of_modulesVal hmod, if_neg (by simp [hv]), if_neg (by simp [hv])]

/-- `SYMBOL_NEW` of a hidden symbol decides nothing. -/
theorem currOf_of_hidden (huser : D'.user s = D.user s) (hmod : D'.modulesVal = D.modulesVal)
    (hv : visibleTri cfg D ρ s = .no) : currOf cfg D' ρ s = currOf cfg D ρ s := by
  unfold currOf logicCurr
  rw [newTri_of_hidden hmod hv, selected_of_user huser hmod, textVal_of_hidden hmod hv]

end Hidden

/-- The next evaluation of a visible symbol does not look at what the file says about it: its flag
is set, and a default or a reverse dependency does not say the same. -/
def Drops (cfg : Config) (D : UserData) (st : State) (s : Sym) : Prop :=
  D.isNew s = false ∧ st.isNew s = true ∧ st.visible s ≠ .no ∧
    if (cfg.type s).isText then (D.user s).val ≠ defaultText st.curr (activeDefault cfg st.curr s)
    else s.isChoice = true ∧ cfg.isChoiceValue s = false ∧ st.revTri s = .no ∧
      (D.user s).tri ≠ .no

section Stable
variable {t : ParsedTree} {D : UserData} {ρ : Sym → SymbolValue} {st st' : State} {s : Sym}

/-- A choice with a visible member is not `n`. -/
theorem ParsedTree.Tidy.choice_on (ht : t.Tidy) (hρ : Dependency.Solution (currOf t.config D) ρ)
    {c m : Sym} (hlink : t.config.link m = some c) (hv : visibleTri t.config D ρ m ≠ .no) :
    (ρ c).tri ≠ .no := by
  obtain ⟨p, hp, hcond⟩ := exists_prompt_of_visible hv
  obtain ⟨v, hpv, hg⟩ := ht.guarded hlink hp
  have hle := hg.value_le (t.standard_of_solution hρ)
  rw [conditionTri, hpv] at hcond
  exact fun hno => hcond ((Tristate.le_no_iff _).mp (hno ▸ hle))

/-- What is visible and no member has its own value, or that of its reverse dependency. -/
theorem newTri_of_shown (hmod : D.modulesVal = .no) (hl : (t.config.type s).isLogic = true)
    (hmember : t.config.isChoiceValue s = false) (hv : visibleTri t.config D ρ s ≠ .no) :
    newTri t.config D ρ s =
      if max (ownTri t.config D ρ s) (reverseTri t.config D ρ s) = .no then .no else .yes := by
  have hyes := visibleTri_yes hmod hv
  have hlogic : logicTri t.config D ρ s =
      max (ownTri t.config D ρ s) (reverseTri t.config D ρ s) := by
    rw [logicTri_shown (by simp [hmember]) (by rw [hyes]; simp), hyes, Tristate.min_yes_right]
  rw [newTri, hlogic, knownType_boolean hmod hl]
  cases max (ownTri t.config D ρ s) (reverseTri t.config D ρ s) <;> rfl

/-- After a file is read, the next evaluation of a symbol gives its value exactly if it does not
drop what the file says. -/
theorem Loaded.currOf_eq_iff (hty : t.TypedChoices) (hst : st.Sane t.config)
    (hD : D.Sane t.config) (hρ : Dependency.Solution (currOf t.config D) ρ)
    (h : Loaded t.config D ρ st st') (hs : s ∈ t.config.symbols) :
    currOf t.config st'.data ρ s = currOf t.config D ρ s ↔ ¬Drops t.config D st' s := by
  have huser : st'.data.user s = D.user s := by rw [State.data, h.user]
  have hmod : st'.data.modulesVal = D.modulesVal := h.settled.good.modulesVal
  have hDmod : D.modulesVal = .no := hD.modulesVal
  have hstatic : s.isStatic = false := t.symbols_not_static s hs
  have hvisible := h.visible hst hty hD s
  by_cases htyped : t.config.type s = .unknown
  · rw [if_pos htyped] at hvisible
    refine iff_of_true ?_ fun hd => hd.2.2.1 hvisible
    simp [currOf, hstatic, htyped]
  rw [if_neg htyped] at hvisible
  by_cases hsame : st'.isNew s = D.isNew s
  · refine iff_of_true (currOf_of_data huser hsame hmod) fun hd => ?_
    have hset := hd.2.1
    rw [hsame, hd.1] at hset
    cases hset
  -- so the flag was set after the evaluation
  have hflag := h.isNew.symbol s hs
  have hold : D.isNew s = false := by
    by_contra hne
    rw [Bool.not_eq_false] at hne
    rw [keptNew, hne, Bool.true_or, Bool.true_or] at hflag
    exact hsame (hflag.trans hne.symm)
  have hset : st'.isNew s = true := by
    rw [hold] at hsame
    simpa using hsame
  by_cases hv : visibleTri t.config D ρ s = .no
  · refine iff_of_true (currOf_of_hidden huser hmod hv) fun hd => hd.2.2.1 ?_
    rw [hvisible, hv]
  have hshown : shown t.config D ρ s = true := by simp [shown, htyped, hv]
  have hold' : ∀ x ∈ t.config.uses s, st'.curr x = ρ x := by
    intro x hx
    have hin := t.uses_inTable s x hx
    rw [h.curr hst hty hD hin]
    split_ifs with hxs
    · exact ((hρ x).trans (if_pos hxs)).symm
    · rfl
  unfold Drops
  rw [hvisible, currOf_dynamic hstatic htyped, currOf_dynamic hstatic htyped]
  by_cases htext : (t.config.type s).isText = true
  · have hl := SymType.not_isLogic_of_isText htext
    have hown := (h.sane hst hD hty.typedCandidates t.symbols_not_static).data.own.candidates
    have hdefault : textVal t.config st'.data ρ s =
        defaultText st'.curr (activeDefault t.config st'.curr s) := by
      have hrespects := currOf_respects hown st'.curr ρ s hold'
      rw [currOf_dynamic hstatic htyped, currOf_dynamic hstatic htyped, if_neg (by simp [hl]),
        if_neg (by simp [hl])] at hrespects
      have hval : textVal t.config st'.data st'.curr s = textVal t.config st'.data ρ s :=
        congrArg SymbolValue.val hrespects
      exact hval.symm.trans (if_neg (by simp [State.data, hset]))
    have huser' : textVal t.config D ρ s = (D.user s).val := if_pos (by simp [hv, hold])
    rw [if_neg (by simp [hl]), if_neg (by simp [hl]), if_pos htext, hdefault, huser',
      SymbolValue.mk.injEq, eq_comm]
    simp [hold, hset, hv]
  have hl : (t.config.type s).isLogic = true := by
    cases hτ : t.config.type s <;> simp_all [SymType.isLogic, SymType.isText]
  -- the flag of a visible option that is no text does not change
  have hc : s.isChoice = true := by
    by_contra hne
    rw [hset, keptNew, hold, hshown] at hflag
    simp [htext, hne] at hflag
  rw [if_pos hl, if_pos hl, if_neg htext]
  by_cases hmember : t.config.isChoiceValue s = true
  · have hyes := visibleTri_yes hDmod hv
    have hno {E : UserData} (hE : E.modulesVal = D.modulesVal) : newTri t.config E ρ s = .no := by
      have hlogic : logicTri t.config E ρ s = .no := by
        rw [logicTri_member ⟨hmember, by rw [visibleTri_of_modulesVal hE, hyes]⟩]
        simp [Config.choiceOf, hc]
      simp [newTri, hlogic]
    refine iff_of_true ?_ (by simp [hmember])
    simp [logicCurr, hno hmod, hno rfl]
  rw [Bool.not_eq_true] at hmember
  have hrev : st'.revTri s = reverseTri t.config D ρ s :=
    ((h.settled.good.done s (h.settled.valid s hs) (Set.notMem_empty s)).known htyped).reverse
  have hbefore := newTri_of_shown hDmod hl hmember hv
  have hafter := newTri_of_shown (hmod.trans hDmod) hl hmember
    (by rwa [visibleTri_of_modulesVal hmod])
  have hown : ownTri t.config D ρ s = (D.user s).tri := if_pos (by simp [hold])
  have hown' : ownTri t.config st'.data ρ s = .no := by simp [ownTri, State.data, hset, hc]
  rw [hown] at hbefore
  rw [hown', reverseTri_of_modulesVal hmod, Tristate.max_no_left] at hafter
  unfold logicCurr
  rw [hrev, hbefore, hafter, selected_of_user huser hmod]
  by_cases hr : reverseTri t.config D ρ s = .no
  · by_cases hu : (D.user s).tri = .no
    · refine iff_of_true ?_ (by simp [hu])
      simp [hr, hu]
    · refine iff_of_false ?_ (not_not.mpr ⟨hold, hset, hv, hc, hmember, hr, hu⟩)
      rw [hr, Tristate.max_no_right, if_neg hu, if_pos rfl, if_neg (by simp), if_pos ⟨hc, rfl⟩]
      cases selected t.config D ρ s <;> simp
  · have hmax : max (D.user s).tri (reverseTri t.config D ρ s) ≠ .no := fun hno =>
      hr ((Tristate.le_no_iff _).mp (hno ▸ le_max_right _ _))
    refine iff_of_true ?_ (by simp [hr])
    rw [if_neg hmax, if_neg hr]

instance (cfg : Config) (D : UserData) (st : State) (s : Sym) : Decidable (Drops cfg D st s) :=
  inferInstanceAs (Decidable (_ ∧ _ ∧ _ ∧ ite _ _ _))

end Stable

/-! ## An optional choice -/

/-- An optional choice with two members. -/
def optionalTree : ParsedTree where
  block := .choice 0 [.prompt ['c'] none, .optional]
    (boolOption ['A'] [] (boolOption ['B'] [] .nil nameB.free) nameA.free) .nil
  choices_nodup := by decide
  named := by decide

theorem optionalTree_regular : optionalTree.Regular :=
  ParsedTree.regular_of_symbols
    (fun s => if s.isStatic then 0 else if s.isChoice then 1 else 2)
    (by decide) (by decide) (by decide) (by decide)

/-- A file that names one of the members. -/
def oneMember : Text := ['A', '=', 'y', '\n']

end Grasshopper.Kconfig
