import Grasshopper.Kconfig.Symbol.Spec

/-! # What a part of an evaluation leaves alone

`sym_calc_value` marks a symbol `SYMBOL_VALID` before it computes it. A nested call changes no
value of a symbol that is marked, and no visibility that is already worth what the marked symbols
say it is.
-/

namespace Grasshopper.Kconfig

/-- What a choice may select has a type. -/
def Config.TypedCandidates (cfg : Config) : Prop :=
  ∀ s, s.isChoice = true → cfg.type s ≠ .unknown → ∀ m ∈ cfg.candidates s, cfg.type m ≠ .unknown

/-- No choice is a member of a choice. -/
def Config.FlatChoices (cfg : Config) : Prop :=
  ∀ s, s.isChoice = true → cfg.isChoiceValue s = false

/-- All symbols of a list are marked. -/
def State.Computed (st : State) (xs : List Sym) : Prop := ∀ x ∈ xs, st.valid x = true

section Frame
variable (cfg : Config) (D : UserData) (ρ : Sym → SymbolValue)

/-- Between two states, the symbols of `N` were marked and those of `W` got `SYMBOL_WRITE`. A choice
that is a member keeps an old `SYMBOL_WRITE`, and one without a type is computed only as a
candidate. -/
structure Frame (N W : Set Sym) (st st' : State) : Prop where
  fresh : ∀ u ∈ N, st.valid u = false
  table : ∀ u ∈ N, u ∈ cfg.symbols
  valid : ∀ u, st'.valid u = true ↔ st.valid u = true ∨ u ∈ N
  curr : ∀ u, st.valid u = true → st'.curr u = st.curr u
  prompt : ∀ u, ∀ p ∈ cfg.prompts u, st.Computed (optSyms p.visible) →
    st.promptTri u p = conditionTri cfg st.curr p → st'.promptTri u p = st.promptTri u p
  visible : ∀ u, st.Computed (cfg.promptSyms u) →
    st.visible u = visibleTri cfg D st.curr u → st'.visible u = st.visible u
  reverse : ∀ u, st.Computed (cfg.visSyms u) →
    st.revTri u = reverseTri cfg D st.curr u → st'.revTri u = st.revTri u
  user : st'.user = st.user
  isNew : st'.isNew = st.isNew
  modulesVal : st'.modulesVal = st.modulesVal
  changeCount : st'.changeCount = st.changeCount
  untyped : cfg.TypedCandidates → ∀ u, cfg.type u = .unknown → st'.visible u = st.visible u
  memberRev : ∀ u, cfg.isChoiceValue u = true → st'.revTri u = st.revTri u
  write : cfg.FlatChoices → ∀ u, st'.write u = true ↔ (st.write u = true ∧
    (u ∈ N → cfg.isChoiceValue u = true ∨ cfg.type u = .unknown)) ∨ u ∈ W

/-- The symbols that get `SYMBOL_WRITE` when those of `N` are computed. -/
def given (N : Set Sym) : Set Sym :=
  {u | ∃ c ∈ N, cfg.type c ≠ .unknown ∧ writes cfg D ρ c = true ∧
    (u = c ∨ c.isChoice = true ∧ u ∈ cfg.members c)}

/-- What calls of `sym_calc_value` do to the state. -/
def Ext (st st' : State) : Prop := ∃ N, Frame cfg D N (given cfg D ρ N) st st'

end Frame

variable {cfg : Config} {D : UserData} {ρ : Sym → SymbolValue}

namespace Frame
variable {N W : Set Sym} {st st' : State}

theorem computed (h : Frame cfg D N W st st') {xs : List Sym} (hx : st.Computed xs) :
    st'.Computed xs := fun x hxs => (h.valid x).mpr (.inl (hx x hxs))

theorem curr_eq (h : Frame cfg D N W st st') {xs : List Sym} (hx : st.Computed xs) :
    ∀ x ∈ xs, st.curr x = st'.curr x := fun x hxs => (h.curr x (hx x hxs)).symm

theorem refl (st : State) : Frame cfg D ∅ ∅ st st := by
  constructor <;> simp

theorem trans {N' W' : Set Sym} {st'' : State} (h : Frame cfg D N W st st')
    (h' : Frame cfg D N' W' st' st'')
    (hW : ∀ u ∈ W, u ∈ N' → cfg.isChoiceValue u = true ∨ cfg.type u = .unknown) :
    Frame cfg D (N ∪ N') (W ∪ W') st st'' where
  fresh u hu := by
    rcases hu with hu | hu
    · exact h.fresh u hu
    · have hv := h'.fresh u hu
      by_contra hne
      rw [(h.valid u).mpr (.inl (by simpa using hne))] at hv
      cases hv
  table u hu := hu.elim (h.table u) (h'.table u)
  valid u := by rw [h'.valid, h.valid, Set.mem_union, or_assoc]
  curr u hu := by rw [h'.curr u ((h.valid u).mpr (.inl hu)), h.curr u hu]
  prompt u p hp hx he := by
    have he' := h.prompt u p hp hx he
    rw [← he']
    refine h'.prompt u p hp (h.computed hx) ?_
    rw [he', he, conditionTri_congr (h.curr_eq hx)]
  visible u hx he := by
    have he' := h.visible u hx he
    rw [← he']
    refine h'.visible u (h.computed hx) ?_
    rw [he', he, visibleTri_congr (h.curr_eq hx)]
  reverse u hx he := by
    have he' := h.reverse u hx he
    rw [← he']
    refine h'.reverse u (h.computed hx) ?_
    rw [he', he, reverseTri_congr (h.curr_eq hx)]
  user := h'.user.trans h.user
  isNew := h'.isNew.trans h.isNew
  modulesVal := h'.modulesVal.trans h.modulesVal
  changeCount := h'.changeCount.trans h.changeCount
  untyped ht u hu := (h'.untyped ht u hu).trans (h.untyped ht u hu)
  memberRev u hu := (h'.memberRev u hu).trans (h.memberRev u hu)
  write hflat u := by
    have := hW u
    rw [h'.write hflat, h.write hflat]
    simp only [Set.mem_union]
    tauto

end Frame

theorem given_union (N N' : Set Sym) :
    given cfg D ρ (N ∪ N') = given cfg D ρ N ∪ given cfg D ρ N' := by
  ext u
  simp only [given, Set.mem_ofPred_eq, Set.mem_union, or_and_right, exists_or]

theorem given_empty : given cfg D ρ ∅ = ∅ := by
  ext u
  simp [given]

/-- A symbol that is given `SYMBOL_WRITE` is one of those computed, or a choice member. -/
theorem mem_or_of_given (hm : ∀ c m, m ∈ cfg.members c → cfg.isChoiceValue m = true)
    {N : Set Sym} {u : Sym} (hu : u ∈ given cfg D ρ N) : u ∈ N ∨ cfg.isChoiceValue u = true := by
  obtain ⟨c, hc, -, -, rfl | ⟨-, hu⟩⟩ := hu
  · exact .inl hc
  · exact .inr (hm c u hu)

namespace Ext
variable {st st' st'' : State}

theorem refl (st : State) : Ext cfg D ρ st st := ⟨∅, by rw [given_empty]; exact .refl st⟩

theorem valid (h : Ext cfg D ρ st st') {u : Sym} (hu : st.valid u = true) :
    st'.valid u = true := (h.choose_spec.valid u).mpr (.inl hu)

theorem computed (h : Ext cfg D ρ st st') {xs : List Sym} (hx : st.Computed xs) :
    st'.Computed xs := h.choose_spec.computed hx

theorem curr (h : Ext cfg D ρ st st') {u : Sym} (hu : st.valid u = true) :
    st'.curr u = st.curr u := h.choose_spec.curr u hu

theorem trans (hm : ∀ c m, m ∈ cfg.members c → cfg.isChoiceValue m = true)
    (h : Ext cfg D ρ st st') (h' : Ext cfg D ρ st' st'') : Ext cfg D ρ st st'' := by
  obtain ⟨N, h⟩ := h
  obtain ⟨N', h'⟩ := h'
  refine ⟨N ∪ N', ?_⟩
  rw [given_union]
  refine h.trans h' fun u hu hu' => ?_
  rcases mem_or_of_given hm hu with hN | hc
  · have hv := h'.fresh u hu'
    rw [(h.valid u).mpr (.inr hN)] at hv
    cases hv
  · exact .inl hc

end Ext

end Grasshopper.Kconfig
