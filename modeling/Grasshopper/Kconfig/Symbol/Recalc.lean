import Grasshopper.Kconfig.Menu.Structure
import Grasshopper.Kconfig.Symbol.Evaluate

/-! # Recalculating all symbols -/

namespace Grasshopper.Kconfig

/-- The trees for which the evaluation has one result. -/
structure ParsedTree.Tidy (t : ParsedTree) : Prop where
  /-- The use relation has no cycle. -/
  acyclic : Dependency.Acyclic t.config.uses
  /-- The prompts of a choice member are in entries of its choice. -/
  inside : ∀ m c, t.config.link m = some c → ∀ x ∈ t.places, x.2.sym = some m →
    (∃ p ∈ x.2.props, p.text.isSome) → x.1 = some c

/-- No default of a choice names a symbol without a type. -/
def ParsedTree.TypedChoices (t : ParsedTree) : Prop :=
  ∀ k, t.config.type (.choice k) ≠ .unknown →
    ∀ m ∈ t.config.candidates (.choice k), t.config.type m ≠ .unknown

/-- The trees for which it also gives `SYMBOL_WRITE` in one way, and looks only at what has a type. -/
structure ParsedTree.Regular (t : ParsedTree) : Prop extends t.Tidy where
  /-- No choice is a member of a choice. -/
  single : ∀ k, t.config.link (.choice k) = none
  /-- What a choice may select has a type. -/
  typed : ∀ k, t.config.type (.choice k) ≠ .unknown →
    ∀ m ∈ t.config.candidates (.choice k), t.config.type m ≠ .unknown

namespace ParsedTree
variable {t : ParsedTree}

/-- Whatever is evaluated is in the symbol table. -/
theorem uses_inTable (t : ParsedTree) (s : Sym) : ∀ x ∈ t.config.uses s, t.InTable x := by
  have hprop {s : Sym} {p : Property} (hp : p ∈ t.config.props s) := t.props_inTable hp
  have hvis (s : Sym) : ∀ x ∈ t.config.visSyms s, t.InTable x := by
    intro x hx
    simp only [Config.visSyms, Config.promptSyms, Config.prompts, List.mem_append,
      List.mem_flatMap, List.mem_filter] at hx
    rcases hx with ⟨p, ⟨hp, -⟩, hx⟩ | hx
    · exact (hprop hp).1 x hx
    · split_ifs at hx
      · simp at hx
      · exact t.linked.revDep s x hx
  intro x hx
  have hdef {p : Property} (hp : p ∈ t.config.defaults s) (hx : x ∈ t.config.defaultSyms s p) :
      t.InTable x := by
    have hp := hprop (List.mem_filter.mp hp).1
    rcases List.mem_append.mp hx with hx | hx
    · exact hp.1 x hx
    · refine hp.2 x ?_
      split at hx
      · rename_i e he
        split_ifs at hx
        · simp at hx
        · rwa [he]
      · simp at hx
  by_cases h : s.isStatic = true ∨ t.config.type s = .unknown
  · simp [Config.uses, h] at hx
  rw [Config.uses, if_neg h] at hx
  simp only [List.mem_append, List.mem_flatMap, Option.mem_toList] at hx
  rcases hx with ((hx | hx) | ⟨p, hp, hx⟩) | hx
  · exact hvis s x hx
  · unfold Config.choiceOf at hx
    split_ifs at hx
    exact (t.linked.link s x hx).2.2
  · exact hdef hp hx
  · split_ifs at hx
    · obtain ⟨m, -, hx⟩ := List.mem_flatMap.mp (List.mem_filter.mp hx).1
      exact hvis m x hx
    · simp at hx

/-- A symbol that uses others is in the symbol table. -/
theorem mem_symbols_of_uses (t : ParsedTree) {s : Sym} (h : t.config.uses s ≠ []) :
    s ∈ t.config.symbols := by
  have hs : ¬(s.isStatic = true ∨ t.config.type s = .unknown) := fun h' => h (if_pos h')
  rw [not_or] at hs
  exact (t.linked.typed s hs.2).resolve_left hs.1

/-- The values that solve the equations are those of the constants where there is one. -/
theorem standard_of_solution (t : ParsedTree) {D : UserData} {ρ : Sym → SymbolValue}
    (h : Dependency.Solution (currOf t.config D) ρ) : Standard t.config.type ρ := by
  have hstatic {s : Sym} (hs : s.isStatic = true) : ρ s = State.initial.curr s :=
    (h s).trans (if_pos hs)
  have hstring {s : Sym} (hs : s.isStatic = true) (hc : s.isConst = true) :
      symGetStringValue t.config.type ρ s = (State.initial.curr s).val.toText := by
    rw [symGetStringValue, t.type_const hc, hstatic hs]
    rfl
  refine ⟨by rw [hstatic rfl]; rfl, by rw [hstatic rfl]; rfl, by rw [hstatic rfl]; rfl,
    hstring rfl rfl, hstring rfl rfl, hstring rfl rfl, fun n => ?_⟩
  rw [symGetStringValue, t.type_const rfl, if_neg (by simp [SymType.isLogic]), h (.const n), currOf,
    if_neg (by simp [Sym.isStatic]), if_pos (t.type_const rfl)]
  rfl

theorem Tidy.wellFounded (h : t.Tidy) : WellFounded fun x s => x ∈ t.config.uses s :=
  h.acyclic.wellFounded t.config.symbols fun _ => t.mem_symbols_of_uses

theorem Tidy.exists_solution (h : t.Tidy) {D : UserData} (hD : D.Candidates t.config) :
    ∃ ρ, Dependency.Solution (currOf t.config D) ρ :=
  have : Nonempty SymbolValue := ⟨.no⟩
  Dependency.exists_solution h.wellFounded (currOf_respects hD)

theorem Tidy.solution_unique (h : t.Tidy) {D : UserData} (hD : D.Candidates t.config)
    {ρ ρ' : Sym → SymbolValue} (hρ : Dependency.Solution (currOf t.config D) ρ)
    (hρ' : Dependency.Solution (currOf t.config D) ρ') : ρ = ρ' :=
  hρ.unique h.wellFounded (currOf_respects hD) hρ'

/-- A prompt of a choice member has the choice as an operand of its condition. -/
theorem Tidy.guarded (h : t.Tidy) {m c : Sym} (hc : t.config.link m = some c) {p : Property}
    (hp : p ∈ t.config.prompts m) : ∃ v, p.visible = some v ∧ Guarded c v := by
  obtain ⟨hp, htext⟩ := List.mem_filter.mp hp
  rcases t.mem_props hp with hp | ⟨γ, e, hx, hs, q, hq, hpq, hin⟩
  · have hnone : p.text = none := by
      rcases List.mem_append.mp hp with hp | hp <;> exact (initDefault_facts hp).2.1
    simp [hnone] at htext
  · have hγ : γ = some c := h.inside m c hc (γ, e) hx hs ⟨q, hq, by rw [hpq] at htext; exact htext⟩
    exact (hin.guard c hγ).2

/-- A choice member that is visible reads its choice. -/
theorem Tidy.reads (h : t.Tidy) {D : UserData} {ρ : Sym → SymbolValue}
    (hρ : Dependency.Solution (currOf t.config D) ρ) {m c : Sym}
    (hc : t.config.choiceOf m = some c) (hv : visibleTri t.config D ρ m = .yes) :
    c ∈ t.config.visSyms m := by
  have hlink : t.config.link m = some c := by
    unfold Config.choiceOf at hc
    split_ifs at hc
    exact hc
  by_contra hno
  have hzero : ∀ p ∈ t.config.prompts m, conditionTri t.config ρ p = .no := by
    intro p hp
    obtain ⟨v, hv, hg⟩ := h.guarded hlink hp
    have hmem := hg.guard.mem_or_no (t.standard_of_solution hρ)
    rw [conditionTri, hv]
    refine hmem.resolve_left fun hmem => hno ?_
    exact t.config.mem_visSyms_of_prompt (t.config.mem_promptSyms hp (by rw [hv]; exact hmem))
  have hmax : maxValue ((t.config.prompts m).map (conditionTri t.config ρ)) = .no := by
    rw [← Tristate.le_no_iff]
    refine maxValue_le fun w hw => ?_
    obtain ⟨p, hp, rfl⟩ := List.mem_map.mp hw
    rw [hzero p hp]
  simp [visibleTri, hmax] at hv

theorem Tidy.semantics (h : t.Tidy) {D : UserData} (hD : D.Candidates t.config)
    {ρ : Sym → SymbolValue} (hρ : Dependency.Solution (currOf t.config D) ρ)
    (hm : t.config.type modulesSym ≠ .unknown → (ρ modulesSym).tri = D.modulesVal) :
    Semantics t.config D ρ where
  acyclic := h.acyclic
  solution := hρ
  table := t.uses_inTable
  static s hs := t.type_const (by cases s <;> simp_all [Sym.isStatic, Sym.isConst])
  remembered := hD
  members c m hm := (t.linked.members c m hm).1
  reads m c := h.reads hρ
  modules := hm

theorem TypedChoices.typedCandidates (h : t.TypedChoices) : t.config.TypedCandidates := by
  intro s hs hty
  cases s with
  | choice k => exact h k hty
  | _ => simp [Sym.isChoice] at hs

theorem Regular.typedChoices (h : t.Regular) : t.TypedChoices := h.typed

theorem Regular.typedCandidates (h : t.Regular) : t.config.TypedCandidates :=
  h.typedChoices.typedCandidates

/-- It is enough to look at the symbols of the table. -/
theorem regular_of_symbols (rank : Sym → ℕ)
    (hrank : ∀ s ∈ t.config.symbols, ∀ x ∈ t.config.uses s, rank x < rank s)
    (hsingle : ∀ s ∈ t.config.symbols, s.isChoice = true → t.config.link s = none)
    (hinside : ∀ m ∈ t.config.symbols, ∀ x ∈ t.places, x.2.sym = some m →
      (∃ p ∈ x.2.props, p.text.isSome = true) → t.config.link m = none ∨ x.1 = t.config.link m)
    (htyped : ∀ s ∈ t.config.symbols, s.isChoice = true → t.config.type s ≠ .unknown →
      ∀ m ∈ t.config.candidates s, t.config.type m ≠ .unknown) : t.Regular where
  acyclic := by
    refine Dependency.acyclic_of_rank rank fun s x hx => ?_
    exact hrank s (t.mem_symbols_of_uses fun hnil => by simp [hnil] at hx) x hx
  single k := by
    by_contra hne
    obtain ⟨c, hc⟩ := Option.ne_none_iff_exists'.mp hne
    exact hne (hsingle _ (t.mem_symbols_of_member (t.linked.link _ c hc).2.1) rfl)
  inside m c hc x hx hs hp := by
    have hin := t.mem_symbols_of_member (t.linked.link m c hc).2.1
    rw [← hc]
    exact (hinside m hin x hx hs hp).resolve_left (by simp [hc])
  typed k hk := htyped _ ((t.linked.typed _ hk).resolve_left (by simp [Sym.isStatic])) rfl hk

end ParsedTree

/-! ## The state after a recalculation -/

/-- What is true of every state of a configuration: static symbols keep their values, nothing else
is marked outside the symbol table, and no choice member has a reverse dependency. -/
structure State.Proper (cfg : Config) (st : State) : Prop where
  static : ∀ s, s.isStatic = true → st.valid s = true ∧ st.curr s = State.initial.curr s
  table : ∀ s, st.valid s = true → s.isStatic = true ∨ s ∈ cfg.symbols
  memberRev : ∀ s, cfg.isChoiceValue s = true → st.revTri s = .no

theorem State.initial_proper (cfg : Config) : State.initial.Proper cfg where
  static _ hs := ⟨hs, rfl⟩
  table _ hs := .inl hs
  memberRev _ _ := rfl

/-- All symbols are computed. -/
structure Settled (cfg : Config) (D : UserData) (ρ : Sym → SymbolValue) (st : State) : Prop where
  good : Good cfg D ρ ∅ st
  valid : ∀ s ∈ cfg.symbols, st.valid s = true

section Recalculate
variable {cfg : Config} {D : UserData} {ρ : Sym → SymbolValue} {st : State}

theorem symCalcValue_reads (sem : Semantics cfg D ρ) (h : Good cfg D ρ ∅ st) {s : Sym}
    (hs : s ∈ cfg.symbols) : Reads cfg D ρ ∅ st [s] (symCalcValue cfg s st) := by
  refine symCalcValueAux_contract sem cfg.symbols.length ∅ st s ⟨h, fun x hx => ?_, ?_⟩
  · obtain rfl := List.mem_singleton.mp hx
    exact .inr ⟨hs, by simp⟩
  · exact List.countP_le_length

theorem calcAll_reads (sem : Semantics cfg D ρ) (order : List Sym)
    (ho : ∀ s ∈ order, s ∈ cfg.symbols) (h : Good cfg D ρ ∅ st) :
    Reads cfg D ρ ∅ st order (calcAll cfg order st) := by
  unfold calcAll
  induction order generalizing st with
  | nil => exact h.reads_nil
  | cons s order ih =>
    rw [List.forall_mem_cons] at ho
    have hs := symCalcValue_reads sem h ho.1
    exact hs.then sem (ih ho.2 hs.good)

/-- The marks are cleared. -/
def clearValid (cfg : Config) (st : State) : State :=
  { st with
    valid := fun s => st.valid s && !decide (s ∈ cfg.symbols)
    changeCount := st.changeCount + 1 }

theorem clearValid_good (sem : Semantics cfg D ρ) (h : st.Proper cfg) (hD : st.data = D)
    (htable : ∀ s ∈ cfg.symbols, s.isStatic = false) : Good cfg D ρ ∅ (clearValid cfg st) := by
  subst hD
  refine ⟨fun u hu _ => ?_, fun u hu => ?_, fun _ _ => rfl, fun _ _ => rfl, rfl, h.memberRev⟩
  · have hu' : st.valid u = true ∧ u ∉ cfg.symbols := by simpa [clearValid] using hu
    have hst := (h.table u hu'.1).resolve_right hu'.2
    have hρ : ρ u = State.initial.curr u := (sem.solution u).trans (if_pos hst)
    exact ⟨(h.static u hst).2.trans hρ.symm, fun ht => absurd (sem.static u hst) ht,
      fun σ _ => (if_pos hst).trans hρ.symm⟩
  · have hnot : u ∉ cfg.symbols := fun hmem => by simp [htable u hmem] at hu
    simp [clearValid, (h.static u hu).1, hnot]

/-- `sym_clear_all_valid` and then `sym_calc_value` on some symbols. -/
theorem recalculate_reads (sem : Semantics cfg D ρ) (h : st.Proper cfg) (hD : st.data = D)
    (htable : ∀ s ∈ cfg.symbols, s.isStatic = false) (hm : modulesSym ∈ cfg.symbols)
    {order : List Sym} (ho : ∀ s ∈ order, s ∈ cfg.symbols) :
    Reads cfg D ρ ∅ (clearValid cfg st) (modulesSym :: order)
      (calcAll cfg order (symClearAllValid cfg st)) := by
  have hmod := symCalcValue_reads sem (clearValid_good sem h hD htable) hm
  exact hmod.then sem (calcAll_reads sem order ho hmod.good)

end Recalculate

/-! ## A tree -/

section Tree
variable {t : ParsedTree}

theorem ParsedTree.symbols_not_static (t : ParsedTree) :
    ∀ s ∈ t.config.symbols, s.isStatic = false := fun s hs => ((t.mem_symbols s).mp hs).2

/-- A choice remembers only members of its own as the user's. -/
def UserData.OwnMembers (cfg : Config) (D : UserData) : Prop :=
  ∀ k m, (D.user (.choice k)).val = .sym m → cfg.link m = some (.choice k)

theorem UserData.OwnMembers.candidates {D : UserData} (h : D.OwnMembers t.config) :
    D.Candidates t.config := by
  intro s hs m hm
  cases s with
  | choice k =>
    refine List.mem_append_left _ (t.linked.link m _ (h k m ?_)).2.1
    unfold userChoice at hm
    split at hm
    · rename_i x hx
      obtain rfl := List.mem_singleton.mp hm
      exact hx
    · simp at hm
  | _ => simp [Sym.isChoice] at hs

/-- What is computed for the symbols of a recalculated tree. -/
theorem ParsedTree.Tidy.recalculate (h : t.Tidy) (hm : t.config.type modulesSym = .unknown)
    {st : State} (hst : st.Proper t.config) (hD : st.data.OwnMembers t.config) {order : List Sym}
    (ho : ∀ s, s ∈ order ↔ s ∈ t.config.symbols) {ρ : Sym → SymbolValue}
    (hρ : Dependency.Solution (currOf t.config st.data) ρ) :
    Settled t.config st.data ρ (calcAll t.config order (symClearAllValid t.config st)) ∧
      Ext t.config st.data ρ (clearValid t.config st)
        (calcAll t.config order (symClearAllValid t.config st)) := by
  have sem := h.semantics hD.candidates hρ fun hty => absurd hm hty
  have hr := recalculate_reads sem hst rfl t.symbols_not_static t.modulesSym_mem
    (fun s hs => (ho s).mp hs)
  exact ⟨⟨hr.good, fun s hs => hr.computed s (List.mem_cons_of_mem _ ((ho s).mpr hs))⟩, hr.ext⟩

end Tree

end Grasshopper.Kconfig
