import Grasshopper.Kconfig.Confdata.Save
import Grasshopper.Kconfig.Symbol.Update

/-! # Sessions

A program that has parsed a tree reads files, sets and evaluates symbols, and writes files, in any
order. What it has computed may be older than the user values: `conf_read` sets `SYMBOL_NEW` last,
and a setter that sees no change does not clear the marks.
-/

namespace Grasshopper.Kconfig

/-- The states of a program that has parsed a tree; `saves` says whether it writes files too. -/
inductive Session (t : ParsedTree) (saves : Prop) : State → Prop
  | parsed : Session t saves .initial
  | read {st st' : State} {file : Text} (h : Session t saves st)
      (hread : confRead t.config file st = .ok st') : Session t saves st'
  | evaluate {st : State} {s : Sym} (h : Session t saves st) (hs : s ∈ t.config.symbols) :
      Session t saves (symCalcValue t.config s st)
  | setTristate {st : State} {s : Sym} (h : Session t saves st) (hs : s ∈ t.config.symbols)
      (val : Tristate) : Session t saves (symSetTristateValue t.config s val st).2
  | setString {st : State} {s : Sym} (h : Session t saves st) (hs : s ∈ t.config.symbols)
      (newval : Text) : Session t saves (symSetStringValue t.config s newval st).2
  | write {st : State} (h : Session t saves st) (hw : saves) :
      Session t saves (confWrite t.config st).2

theorem Session.calcAll {t : ParsedTree} {saves : Prop} {st : State} (h : Session t saves st)
    (order : List Sym) (ho : ∀ s ∈ order, s ∈ t.config.symbols) :
    Session t saves (calcAll t.config order st) := by
  induction order generalizing st with
  | nil => exact h
  | cons s order ih =>
    rw [List.forall_mem_cons] at ho
    exact ih (h.evaluate ho.1) ho.2

/-! ## What is computed, and from which user values -/

/-- The user values `D`, where a symbol is computed, and `X` elsewhere. -/
def UserData.mix (valid : Sym → Bool) (D X : UserData) : UserData where
  user u := if valid u then D.user u else X.user u
  isNew u := if valid u then D.isNew u else X.isNew u
  modulesVal := D.modulesVal

/-- What is computed was computed from the user values `D`. -/
structure State.Tracks (t : ParsedTree) (D : UserData) (ρ : Sym → SymbolValue) (st : State) :
    Prop where
  sane : st.Sane t.config
  own : D.OwnMembers t.config
  solution : Dependency.Solution (currOf t.config D) ρ
  good : Good t.config D ρ ∅ st

section General
variable {cfg : Config} {D D' : UserData} {ρ ρ' : Sym → SymbolValue} {P : Set Sym} {st st' : State}

/-- The invariant does not read `SYMBOL_WRITE`, nor the user values of computed symbols. -/
theorem Good.of_eq (h : Good cfg D ρ P st) (hvalid : st'.valid = st.valid)
    (hcurr : st'.curr = st.curr) (hvis : st'.visible = st.visible) (hrev : st'.revTri = st.revTri)
    (hprompt : st'.promptTri = st.promptTri) (hmod : st'.modulesVal = st.modulesVal)
    (hdata : ∀ u, st.valid u = false → st'.user u = D.user u ∧ st'.isNew u = D.isNew u) :
    Good cfg D ρ P st' where
  done u hu hP := by
    rw [hvalid] at hu
    have hd := h.done u hu hP
    refine ⟨by rw [hcurr, hd.curr], fun ht => ?_, fun σ hσ => hd.stable σ (by rwa [hvalid] at hσ)⟩
    have hk := hd.known ht
    exact ⟨by rw [hvalid]; exact hk.closed, by rw [hvis, hk.visible], by rw [hrev, hk.reverse],
      by rw [hprompt]; exact hk.prompts⟩
  static u hu := by rw [hvalid, h.static u hu]
  user u hu := (hdata u (by rwa [hvalid] at hu)).1
  isNew u hu := (hdata u (by rwa [hvalid] at hu)).2
  modulesVal := hmod.trans h.modulesVal
  memberRev u hu := by rw [hrev, h.memberRev u hu]

/-- Two solutions agree on the computed symbols if the user values do. -/
theorem Good.solution_eq (hwf : WellFounded fun x s => x ∈ cfg.uses s)
    (h : Good cfg D ρ ∅ st) (hρ' : Dependency.Solution (currOf cfg D') ρ')
    (hsame : ∀ u, st.valid u = true → D'.user u = D.user u ∧ D'.isNew u = D.isNew u)
    (hmod : D'.modulesVal = D.modulesVal) {u : Sym} (hu : st.valid u = true) : ρ' u = ρ u := by
  induction u using hwf.induction with
  | _ u ih =>
    have hd := h.done u hu (Set.notMem_empty u)
    obtain ⟨huser, hnew⟩ := hsame u hu
    rw [hρ' u, currOf_of_data huser hnew hmod]
    exact hd.stable ρ' fun x hx hv _ => ih x hx hv

/-- User values are changed; those of the computed symbols were `D` when they were computed. -/
theorem Good.withData (hwf : WellFounded fun x s => x ∈ cfg.uses s)
    (h : Good cfg D ρ ∅ st) (hρ' : Dependency.Solution (currOf cfg D') ρ')
    (hsame : ∀ u, st.valid u = true → D'.user u = D.user u ∧ D'.isNew u = D.isNew u)
    (hmod : D'.modulesVal = D.modulesVal) {X : UserData}
    (hdata : ∀ u, st.valid u = false → X.user u = D'.user u ∧ X.isNew u = D'.isNew u) :
    Good cfg D' ρ' ∅ (st.withData X) where
  done u hu hP := by
    have hd := h.done u hu hP
    have heq {x : Sym} (hx : st.valid x = true) : ρ' x = ρ x :=
      h.solution_eq hwf hρ' hsame hmod hx
    refine ⟨hd.curr.trans (heq hu).symm, fun ht => ?_, fun σ hσ => ?_⟩
    · have hk := hd.known ht
      have hvis : ∀ x ∈ cfg.visSyms u, ρ x = ρ' x := fun x hx => (heq (hk.closed x hx).1).symm
      refine ⟨hk.closed, hk.visible.trans ?_, hk.reverse.trans ?_, fun p hp =>
        (hk.prompts p hp).trans ?_⟩
      · rw [visibleTri_of_modulesVal hmod.symm,
          visibleTri_congr fun x hx => hvis x (cfg.mem_visSyms_of_prompt hx)]
      · rw [reverseTri_of_modulesVal hmod.symm, reverseTri_congr hvis]
      · rw [conditionTri_congr fun x hx =>
          hvis x (cfg.mem_visSyms_of_prompt (cfg.mem_promptSyms hp hx))]
    · obtain ⟨huser, hnew⟩ := hsame u hu
      rw [currOf_of_data huser hnew hmod, heq hu]
      exact hd.stable σ fun x hx hv hP => (hσ x hx hv hP).trans (heq hv)
  static := h.static
  user u hu := (hdata u hu).1
  isNew u hu := (hdata u hu).2
  modulesVal := h.modulesVal.trans hmod.symm
  memberRev := h.memberRev

/-- Only static symbols stay marked when the marks are cleared. -/
theorem State.Sane.static_of_cleared (hst : st.Sane cfg) {s : Sym}
    (hs : (st.valid s && !decide (s ∈ cfg.symbols)) = true) : s.isStatic = true := by
  rw [Bool.and_eq_true, Bool.not_eq_true', decide_eq_false_iff_not] at hs
  exact (hst.table s hs.1).resolve_right hs.2

/-- Evaluations keep what is true of every state. -/
theorem State.Sane.of_ext (hst : st.Sane cfg) (h : Ext cfg D ρ st st') (ht : cfg.TypedCandidates) :
    st'.Sane cfg := by
  obtain ⟨N, hf⟩ := h
  refine ⟨⟨fun s hs => ?_, fun s hs => ?_, fun s hs => ?_⟩, ?_, fun s hs => ?_⟩
  · have hold := hst.static s hs
    exact ⟨(hf.valid s).mpr (.inl hold.1), (hf.curr s hold.1).trans hold.2⟩
  · rcases (hf.valid s).mp hs with hv | hN
    · exact hst.table s hv
    · exact .inr (hf.table s hN)
  · exact (hf.memberRev s hs).trans (hst.memberRev s hs)
  · rw [State.data_eq hf.user hf.isNew hf.modulesVal]
    exact hst.data
  · exact (hf.untyped ht s hs).trans (hst.untyped s hs)

end General

namespace State.Tracks
variable {t : ParsedTree} {D X : UserData} {ρ : Sym → SymbolValue} {st st' : State}

theorem data_sane (h : st.Tracks t D ρ) : st.data.Sane t.config := h.sane.data

theorem modulesVal (h : st.Tracks t D ρ) : D.modulesVal = .no :=
  h.good.modulesVal.symm.trans h.sane.data.modulesVal

theorem setWrite (h : st.Tracks t D ρ) (s : Sym) (b : Bool) : (st.setWrite s b).Tracks t D ρ where
  sane := ⟨{ h.sane.toProper with }, h.sane.data, h.sane.untyped⟩
  own := h.own
  solution := h.solution
  good := h.good.of_eq rfl rfl rfl rfl rfl rfl fun u hu => ⟨h.good.user u hu, h.good.isNew u hu⟩

theorem setChangeCount (h : st.Tracks t D ρ) (n : ℕ) :
    ({ st with changeCount := n } : State).Tracks t D ρ where
  sane := ⟨{ h.sane.toProper with }, h.sane.data, h.sane.untyped⟩
  own := h.own
  solution := h.solution
  good := h.good.of_eq rfl rfl rfl rfl rfl rfl fun u hu => ⟨h.good.user u hu, h.good.isNew u hu⟩

section Steps
variable (ht : t.Tidy) (hty : t.TypedChoices) (hm : t.config.type modulesSym = .unknown)

include hty in
theorem reads (h : st.Tracks t D ρ) {xs : List Sym} (hr : Reads t.config D ρ ∅ st xs st') :
    st'.Tracks t D ρ :=
  ⟨h.sane.of_ext hr.ext hty.typedCandidates, h.own, h.solution, hr.good⟩

include ht hm

theorem semantics (h : st.Tracks t D ρ) : Semantics t.config D ρ :=
  ht.semantics h.own.candidates h.solution fun hty => absurd hm hty

theorem evaluate_reads (h : st.Tracks t D ρ) {s : Sym} (hs : s ∈ t.config.symbols) :
    Reads t.config D ρ ∅ st [s] (symCalcValue t.config s st) :=
  symCalcValue_reads (h.semantics ht hm) h.good hs

include hty in
theorem evaluate (h : st.Tracks t D ρ) {s : Sym} (hs : s ∈ t.config.symbols) :
    (symCalcValue t.config s st).Tracks t D ρ := h.reads hty (h.evaluate_reads ht hm hs)

/-- The value of a symbol, whether it was computed before or not. -/
theorem curr_evaluate (h : st.Tracks t D ρ) {s : Sym} (hs : s ∈ t.config.symbols) :
    (symCalcValue t.config s st).curr s = ρ s := by
  have hr := h.evaluate_reads ht hm hs
  exact hr.good.curr (hr.computed s (List.mem_singleton_self s)) (Set.notMem_empty s)

theorem visible_evaluate (h : st.Tracks t D ρ) {s : Sym} (hs : s ∈ t.config.symbols)
    (htyped : t.config.type s ≠ .unknown) :
    (symCalcValue t.config s st).visible s = visibleTri t.config D ρ s := by
  have hr := h.evaluate_reads ht hm hs
  have hd := hr.good.done s (hr.computed s (List.mem_singleton_self s)) (Set.notMem_empty s)
  exact (hd.known htyped).visible

end Steps

/-! ## Changes of the user values -/

theorem initial (ht : t.Tidy) : ∃ ρ, State.initial.Tracks t State.initial.data ρ := by
  have hsane := State.initial_sane t.config
  obtain ⟨ρ, hρ⟩ := ht.exists_solution hsane.data.own.candidates
  refine ⟨ρ, hsane, hsane.data.own, hρ, ?_⟩
  refine ⟨fun u hu _ => ?_, fun u hu => hu, fun _ _ => rfl, fun _ _ => rfl, rfl, fun _ _ => rfl⟩
  have hst : u.isStatic = true := hu
  have hval : ρ u = State.initial.curr u := (hρ u).trans (if_pos hst)
  refine ⟨hval.symm, fun hty => absurd (t.type_const ?_) hty, fun σ _ => (if_pos hst).trans hval.symm⟩
  cases u <;> simp_all [Sym.isStatic, Sym.isConst]

/-- All marks are cleared: what is computed then is computed from the user values of the state. -/
theorem clearValid (ht : t.Tidy) (hm : t.config.type modulesSym = .unknown)
    (hst : st.Sane t.config) {ρ : Sym → SymbolValue}
    (hρ : Dependency.Solution (currOf t.config st.data) ρ) :
    (clearValid t.config st).Tracks t st.data ρ where
  sane :=
    { static := fun s hs => by
        have hout : s ∉ t.config.symbols := fun hmem => by
          simp [t.symbols_not_static s hmem] at hs
        exact ⟨by simp [Kconfig.clearValid, (hst.static s hs).1, hout], (hst.static s hs).2⟩
      table := fun s hs => hst.table s (by simp_all [Kconfig.clearValid])
      memberRev := hst.memberRev
      data := hst.data
      untyped := hst.untyped }
  own := hst.data.own
  solution := hρ
  good :=
    have sem := ht.semantics hst.data.own.candidates hρ fun hty => absurd hm hty
    clearValid_good sem hst.toProper rfl t.symbols_not_static

theorem clear (ht : t.Tidy) (hty : t.TypedChoices) (hm : t.config.type modulesSym = .unknown)
    (hst : st.Sane t.config) {ρ : Sym → SymbolValue}
    (hρ : Dependency.Solution (currOf t.config st.data) ρ) :
    (symClearAllValid t.config st).Tracks t st.data ρ :=
  (clearValid ht hm hst hρ).evaluate ht hty hm t.modulesSym_mem

theorem withData_sane (hst : st.Sane t.config) (hX : X.Sane t.config) :
    (st.withData X).Sane t.config ∧ (st.withData X).data = X := by
  have hdata : (st.withData X).data = X :=
    State.withData_data (hX.modulesVal.trans hst.data.modulesVal.symm)
  exact ⟨⟨{ hst.toProper with }, hdata ▸ hX, hst.untyped⟩, hdata⟩

/-- User values are changed, and the marks stay. -/
theorem withData (h : st.Tracks t D ρ) (ht : t.Tidy) (hX : X.Sane t.config) :
    ∃ ρ', (st.withData X).Tracks t (D.mix st.valid X) ρ' ∧
      ∀ u, st.valid u = true → ρ' u = ρ u := by
  have hown : (D.mix st.valid X).OwnMembers t.config := by
    intro k m hk
    unfold UserData.mix at hk
    dsimp only at hk
    split_ifs at hk
    · exact h.own k m hk
    · exact hX.own k m hk
  obtain ⟨ρ', hρ'⟩ := ht.exists_solution hown.candidates
  have hsame : ∀ u, st.valid u = true → (D.mix st.valid X).user u = D.user u ∧
      (D.mix st.valid X).isNew u = D.isNew u := fun u hu => by simp [UserData.mix, hu]
  refine ⟨ρ', ⟨(withData_sane h.sane hX).1, hown, hρ', ?_⟩,
    fun u hu => h.good.solution_eq ht.wellFounded hρ' hsame rfl hu⟩
  refine h.good.withData ht.wellFounded hρ' hsame rfl fun u hu => ?_
  simp [UserData.mix, hu]

end State.Tracks

/-! ## `SYMBOL_WRITE` -/

/-- A symbol that is visible, or a bool or tristate one that is selected. -/
def Present (cfg : Config) (D : UserData) (ρ : Sym → SymbolValue) (c : Sym) : Prop :=
  visibleTri cfg D ρ c ≠ .no ∨ (cfg.type c).isLogic = true ∧ reverseTri cfg D ρ c ≠ .no

/-- A present symbol that is computed has `SYMBOL_WRITE`, and so have the members of a choice, except
for the symbols of `W`. -/
def State.Flags (cfg : Config) (D : UserData) (ρ : Sym → SymbolValue) (W : Set Sym) (st : State) :
    Prop :=
  ∀ c, cfg.type c ≠ .unknown → ((cfg.type c).isLogic = true → cfg.isChoiceValue c = false) →
    st.valid c = true → Present cfg D ρ c →
    ∀ u, u ∉ W → u = c ∨ c.isChoice = true ∧ u ∈ cfg.members c → st.write u = true

theorem SymType.not_isLogic_of_isText {τ : SymType} (h : τ.isText = true) : τ.isLogic = false := by
  cases τ <;> simp_all [isText, isLogic]

/-- What is present is written, unless it is a member. -/
theorem Present.writes {cfg : Config} {D : UserData} {ρ : Sym → SymbolValue} {c : Sym}
    (h : Present cfg D ρ c) (hmember : (cfg.type c).isLogic = true → cfg.isChoiceValue c = false) :
    writes cfg D ρ c = true := by
  unfold Kconfig.writes
  split_ifs with hl hm hmax
  · simp [hmember hl] at hm
  · rfl
  · rw [not_not] at hmax
    rcases h with hv | ⟨-, hr⟩
    · exact absurd ((Tristate.le_no_iff _).mp (hmax ▸ le_max_left _ _)) hv
    · exact absurd ((Tristate.le_no_iff _).mp (hmax ▸ le_max_right _ _)) hr
  · have hv := h.resolve_right fun hr => hl hr.1
    simp [hv]

namespace State.Flags
variable {cfg : Config} {D X : UserData} {ρ ρ' : Sym → SymbolValue} {W : Set Sym} {st st' : State}

theorem of_static (hcfg : ∀ s, s.isStatic = true → cfg.type s = .unknown)
    (hvalid : ∀ s, st.valid s = true → s.isStatic = true) : st.Flags cfg D ρ W := by
  intro c hc _ hv
  exact absurd (hcfg c (hvalid c hv)) hc

theorem of_ext (h : st.Flags cfg D ρ W) (hflat : cfg.FlatChoices)
    (hm : ∀ c m, m ∈ cfg.members c → cfg.isChoiceValue m = true) (hext : Ext cfg D ρ st st') :
    st'.Flags cfg D ρ W := by
  obtain ⟨N, hf⟩ := hext
  intro c hc hmember hv hshown u hu hcu
  rw [hf.write hflat u]
  rcases (hf.valid c).mp hv with hold | hN
  · refine .inl ⟨h c hc hmember hold hshown u hu hcu, fun huN => ?_⟩
    rcases hcu with rfl | ⟨-, hcu⟩
    · simp [hf.fresh u huN] at hold
    · exact .inl (hm c u hcu)
  · exact .inr ⟨c, hN, hc, hshown.writes hmember, hcu⟩

theorem mono {W' : Set Sym} (h : st.Flags cfg D ρ W) (hW : W ⊆ W') : st.Flags cfg D ρ W' :=
  fun c hc hmember hv hshown u hu => h c hc hmember hv hshown u fun hin => hu (hW hin)

/-- `SYMBOL_WRITE` is taken from a symbol. -/
theorem setWrite (h : st.Flags cfg D ρ W) (s : Sym) : (st.setWrite s false).Flags cfg D ρ (insert s W) := by
  intro c hc hmember hv hshown u hu hcu
  rw [Set.mem_insert_iff, not_or] at hu
  have hold := h c hc hmember hv hshown u hu.2 hcu
  simpa [State.setWrite, hu.1] using hold

end State.Flags

/-! ## The calls -/

theorem setTristateData_sane {t : ParsedTree} {D : UserData} (h : D.Sane t.config) {s : Sym}
    (hs : s ∈ t.config.symbols) (val : Tristate) :
    (setTristateData t.config s val D).Sane t.config := by
  have hnew := h.setNew hs false
  unfold setTristateData
  dsimp only
  refine UserData.Sane.setTri ?_ hs val
  split_ifs with hc
  · cases hl : t.config.choiceOf s with
    | none => exact hnew
    | some c =>
      have hlink : t.config.link s = some c := by
        unfold Config.choiceOf at hl
        split_ifs at hl
        exact hl
      obtain ⟨hcs, -⟩ := ParsedTree.choice_of_link hlink
      refine (hnew.setVal hcs ?_).setNew hcs false
      rintro k m - hm
      exact Val.sym.inj hm ▸ hlink
  · exact hnew

/-- What is true of a state in a session. -/
def State.Traced (t : ParsedTree) (st : State) : Prop :=
  ∃ D ρ, st.Tracks t D ρ ∧ (t.config.FlatChoices → st.changeCount ≠ 0 → st.Flags t.config D ρ ∅)

theorem confWrite_state (cfg : Config) (st : State) :
    (confWrite cfg st).2 = { walked cfg st with changeCount := 0 } := by
  simp only [confWrite, writeEntries_eq_flatten]
  rfl

section Calls
variable {t : ParsedTree} {D X : UserData} {ρ : Sym → SymbolValue} {st st' : State} {s : Sym}
  (ht : t.Tidy) (hty : t.TypedChoices) (hm : t.config.type modulesSym = .unknown)

theorem ParsedTree.type_of_isStatic (t : ParsedTree) (s : Sym) (hs : s.isStatic = true) :
    t.config.type s = .unknown := t.type_const (by cases s <;> simp_all [Sym.isStatic, Sym.isConst])

theorem ParsedTree.isChoiceValue_of_member (t : ParsedTree) (c m : Sym)
    (h : m ∈ t.config.members c) : t.config.isChoiceValue m = true := (t.linked.members c m h).1

include ht in
theorem initial_traced : State.initial.Traced t := by
  obtain ⟨ρ, h⟩ := State.Tracks.initial ht
  exact ⟨_, ρ, h, fun _ _ => .of_static t.type_of_isStatic fun _ hs => hs⟩

include hty in
theorem State.Traced.reads (h : st.Tracks t D ρ)
    (hf : t.config.FlatChoices → st.changeCount ≠ 0 → st.Flags t.config D ρ ∅)
    {xs : List Sym} (hr : Reads t.config D ρ ∅ st xs st') : st'.Traced t := by
  refine ⟨D, ρ, h.reads hty hr, fun hflat hc => ?_⟩
  rw [hr.ext.choose_spec.changeCount] at hc
  exact (hf hflat hc).of_ext hflat t.isChoiceValue_of_member hr.ext

/-- What is present after a file is read has `SYMBOL_WRITE`. -/
theorem Loaded.flags (h : Loaded t.config D ρ st st') (hst : st.Sane t.config)
    (hflat : t.config.FlatChoices) : st'.Flags t.config D ρ ∅ := by
  have hreset : (resetState t.config D st).Flags t.config D ρ ∅ :=
    .of_static t.type_of_isStatic fun _ hs => hst.static_of_cleared hs
  exact fun c hc hmember hv hs =>
    hreset.of_ext hflat t.isChoiceValue_of_member h.ext c hc hmember hv hs

include ht hty hm

theorem symCalcValue_traced (h : st.Traced t) (hs : s ∈ t.config.symbols) :
    (symCalcValue t.config s st).Traced t := by
  obtain ⟨D, ρ, h, hf⟩ := h
  exact .reads hty h hf (h.evaluate_reads ht hm hs)

theorem symClearAllValid_traced (hst : st.Sane t.config) :
    (symClearAllValid t.config st).Traced t := by
  obtain ⟨ρ, hρ⟩ := ht.exists_solution hst.data.own.candidates
  have hclear := State.Tracks.clearValid ht hm hst hρ
  have hflags : (clearValid t.config st).Flags t.config st.data ρ ∅ :=
    .of_static t.type_of_isStatic fun _ hs => hst.static_of_cleared hs
  exact symCalcValue_traced ht hty hm ⟨_, ρ, hclear, fun _ _ => hflags⟩ t.modulesSym_mem

omit hty hm in
/-- User values are changed, and the marks stay. -/
theorem State.Traced.withData (h : st.Traced t) (hX : X.Sane t.config) :
    (st.withData X).Traced t := by
  obtain ⟨D, ρ, h, hf⟩ := h
  obtain ⟨ρ', h', hsame⟩ := h.withData ht hX
  refine ⟨_, ρ', h', fun hflat hc u hty hmember hv hshown => hf hflat hc u hty hmember hv ?_⟩
  have hk := (h.good.done u hv (Set.notMem_empty u)).known hty
  have hsyms : ∀ x ∈ t.config.visSyms u, ρ' x = ρ x := fun x hx => hsame x (hk.closed x hx).1
  have hvis : visibleTri t.config (D.mix st.valid X) ρ' u = visibleTri t.config D ρ u :=
    (visibleTri_congr fun x hx => hsyms x (t.config.mem_visSyms_of_prompt hx)).trans
      (visibleTri_of_modulesVal rfl ρ u)
  have hrev : reverseTri t.config (D.mix st.valid X) ρ' u = reverseTri t.config D ρ u :=
    (reverseTri_congr hsyms).trans (reverseTri_of_modulesVal rfl ρ u)
  rwa [Present, hvis, hrev] at hshown

theorem symSetTristateValue_traced (h : st.Traced t) (hs : s ∈ t.config.symbols) (val : Tristate) :
    (symSetTristateValue t.config s val st).2.Traced t := by
  have hsane : st.Sane t.config := h.choose_spec.choose_spec.1.sane
  have hX : (setTristateData t.config s val st.data).Sane t.config :=
    setTristateData_sane hsane.data hs val
  unfold symSetTristateValue
  dsimp only
  split_ifs
  · exact h
  · exact symClearAllValid_traced ht hty hm (State.Tracks.withData_sane hsane hX).1
  · exact h.withData ht hX

theorem symSetStringValue_traced (h : st.Traced t) (hs : s ∈ t.config.symbols) (newval : Text) :
    (symSetStringValue t.config s newval st).2.Traced t := by
  unfold symSetStringValue
  split_ifs with hl
  · split
    · exact symSetTristateValue_traced ht hty hm h hs _
    · exact h
  have hrange : (symStringWithinRange t.config (symCalcValue t.config) s newval st).2.Traced t := by
    by_cases htext : (t.config.type s).isText = true
    · obtain ⟨D, ρ, h, hf⟩ := h
      exact .reads hty h hf (symStringWithinRange_reads (h.semantics ht hm) htext
        (t.ranges_inTable s) newval h.good).1
    · have hty : t.config.type s = .unknown := by
        cases hty : t.config.type s <;> simp_all [SymType.isText, SymType.isLogic]
      simpa [symStringWithinRange, hty] using h
  generalize symStringWithinRange t.config (symCalcValue t.config) s newval st = r at hrange
  obtain ⟨ok, st₁⟩ := r
  have hsane : st₁.Sane t.config := hrange.choose_spec.choose_spec.1.sane
  cases ok with
  | false => exact hrange
  | true =>
    have hnew : (st₁.data.setNew s false).Sane t.config := hsane.data.setNew hs false
    dsimp only
    split_ifs
    · exact hrange.withData ht hnew
    · refine symClearAllValid_traced ht hty hm (State.Tracks.withData_sane hsane ?_).1
      exact hnew.setVal hs fun k m _ hv => by cases hv

theorem confRead_traced (h : st.Traced t) {file : Text} (hread : confRead t.config file st = .ok st') :
    st'.Traced t := by
  have hsane : st.Sane t.config := h.choose_spec.choose_spec.1.sane
  cases hD : fileData t.config file with
  | error e =>
    rw [confRead_error hsane hD] at hread
    cases hread
  | ok D =>
    have hDsane := fileData_sane hD
    obtain ⟨ρ, hρ⟩ := ht.exists_solution hDsane.own.candidates
    obtain ⟨st₁, hread₁, hl⟩ := ht.confRead hty hm hsane hD hρ
    obtain rfl : st₁ = st' := Except.ok.inj (hread₁.symm.trans hread)
    have hsane₁ := hl.sane hsane hDsane hty.typedCandidates t.symbols_not_static
    exact ⟨D, ρ, ⟨hsane₁, hDsane.own, hρ, hl.settled.good⟩, fun hflat _ => hl.flags hsane hflat⟩

/-- A round of the walk evaluates, may take `SYMBOL_WRITE` from the symbol of its entry, and then
evaluates again. -/
theorem writeEntry_reads (h : st.Tracks t D ρ) {e : Entry} (he : e.Fits t.config) :
    ∃ xs st', Reads t.config D ρ ∅ st xs st' ∧ ((writeEntry t.config e st).2 = st' ∨
      ∃ s ys, e.sym = some s ∧ s.isChoice = false ∧
        Reads t.config D ρ ∅ (st'.setWrite s false) ys (writeEntry t.config e st).2) := by
  have hnone : Reads t.config D ρ ∅ st [] st := ⟨h.good, .refl st, fun x hx => by simp at hx⟩
  cases hs : e.sym with
  | none =>
    rw [writeEntry_title hs]
    cases hp : e.prompt with
    | none => exact ⟨_, st, hnone, .inl rfl⟩
    | some p =>
      have hcan := h.good.can (he.syms p hp)
      exact ⟨_, _, (optCalcValue_reads (h.semantics ht hm)
        (symCalcValue_contract (h.semantics ht hm)) p.visible hcan).1, .inl rfl⟩
  | some s =>
    by_cases hc : s.isChoice = true
    · rw [writeEntry_choice hs hc]
      exact ⟨_, st, hnone, .inl rfl⟩
    rw [Bool.not_eq_true] at hc
    have hcalc := h.evaluate_reads ht hm (he.sym s hs)
    refine ⟨_, symCalcValue t.config s st, hcalc, ?_⟩
    rw [writeEntry_symbol hs hc]
    by_cases hw : (symCalcValue t.config s st).write s = true
    · rw [if_pos hw]
      have htake := (h.reads hty hcalc).setWrite s false
      refine .inr ⟨s, ?_⟩
      dsimp only [written]
      split_ifs
      · exact ⟨_, rfl, hc, htake.evaluate_reads ht hm t.modulesSym_mem⟩
      · exact ⟨[], rfl, hc, htake.good, .refl _, fun x hx => by simp at hx⟩
    · rw [if_neg hw]
      exact .inl rfl

theorem writeEntry_tracks (h : st.Tracks t D ρ) {e : Entry} (he : e.Fits t.config) :
    (writeEntry t.config e st).2.Tracks t D ρ := by
  obtain ⟨xs, st', hreads, hlast | ⟨s, ys, -, -, hagain⟩⟩ := writeEntry_reads ht hty hm h he
  · rw [hlast]
    exact h.reads hty hreads
  · exact ((h.reads hty hreads).setWrite s false).reads hty hagain

theorem writeLines_tracks (h : st.Tracks t D ρ) (es : List Entry)
    (hes : ∀ e ∈ es, e.Fits t.config) : (writeLines t.config es st).2.Tracks t D ρ := by
  induction es generalizing st with
  | nil => exact h
  | cons e es ih =>
    rw [List.forall_mem_cons] at hes
    exact ih (writeEntry_tracks ht hty hm h hes.1) hes.2

/-- Where the walk begins, what is computed was computed from some user values, and is written if it
is present. -/
theorem writeStart_tracks (h : st.Traced t) : ∃ D ρ, (writeStart t.config st).Tracks t D ρ ∧
    (t.config.FlatChoices → (writeStart t.config st).Flags t.config D ρ ∅) := by
  have hstart : (writeStart t.config st).Traced t := by
    unfold writeStart
    split_ifs
    · exact symClearAllValid_traced ht hty hm h.choose_spec.choose_spec.1.sane
    · exact h
  obtain ⟨D, ρ, htracks, hflags⟩ := hstart
  exact ⟨D, ρ, htracks, fun hflat => hflags hflat (writeStart_changeCount st)⟩

theorem confWrite_traced (h : st.Traced t) : (confWrite t.config st).2.Traced t := by
  obtain ⟨D, ρ, hstart, -⟩ := writeStart_tracks ht hty hm h
  have hlast := writeLines_tracks ht hty hm hstart t.config.menus.preorder t.entry_fits
  rw [confWrite_state]
  exact ⟨D, ρ, hlast.setChangeCount 0, fun _ hc => absurd rfl hc⟩

/-- In every state of a session, what is computed was computed from some user values. -/
theorem Session.traced {saves : Prop} (h : Session t saves st) : st.Traced t := by
  induction h with
  | parsed => exact initial_traced ht
  | read _ hread ih => exact confRead_traced ht hty hm ih hread
  | evaluate _ hs ih => exact symCalcValue_traced ht hty hm ih hs
  | setTristate _ hs val ih => exact symSetTristateValue_traced ht hty hm ih hs val
  | setString _ hs newval ih => exact symSetStringValue_traced ht hty hm ih hs newval
  | write _ _ ih => exact confWrite_traced ht hty hm ih

end Calls

end Grasshopper.Kconfig
