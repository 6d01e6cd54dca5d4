import Grasshopper.Kconfig.Symbol.Frame

/-! # `sym_calc_value` finds the solution

While a symbol is computed it is already marked, and a nested call that reads it would see an old
value. Without cycles no nested call does, apart from the candidates of a choice that selects one
of them. `P` is the set of the symbols that are being computed.
-/

namespace Grasshopper.Kconfig

section Definitions
variable (cfg : Config) (D : UserData) (ρ : Sym → SymbolValue)

/-- What the configuration has to be for the evaluation to have one result, and that result. -/
structure Semantics : Prop where
  acyclic : Dependency.Acyclic cfg.uses
  solution : Dependency.Solution (currOf cfg D) ρ
  table : ∀ s, ∀ x ∈ cfg.uses s, x.isStatic = true ∨ x ∈ cfg.symbols
  static : ∀ s, s.isStatic = true → cfg.type s = .unknown
  remembered : D.Candidates cfg
  members : ∀ c m, m ∈ cfg.members c → cfg.isChoiceValue m = true
  /-- A member that is visible was not before its choice was computed. -/
  reads : ∀ m c, cfg.choiceOf m = some c → visibleTri cfg D ρ m = .yes → c ∈ cfg.visSyms m
  modules : cfg.type modulesSym ≠ .unknown → (ρ modulesSym).tri = D.modulesVal

/-- The visibility of a symbol is known, and is final: nothing it is computed from is in `P`. -/
structure Known (P : Set Sym) (st : State) (u : Sym) : Prop where
  closed : ∀ x ∈ cfg.visSyms u, st.valid x = true ∧ x ∉ P
  visible : st.visible u = visibleTri cfg D ρ u
  reverse : st.revTri u = reverseTri cfg D ρ u
  prompts : ∀ p ∈ cfg.prompts u, st.promptTri u p = conditionTri cfg ρ p

/-- A symbol has its value. What was not looked at does not matter for it. -/
structure Done (P : Set Sym) (st : State) (u : Sym) : Prop where
  curr : st.curr u = ρ u
  known : cfg.type u ≠ .unknown → Known cfg D ρ P st u
  stable : ∀ σ, (∀ x ∈ cfg.uses u, st.valid x = true → x ∉ P → σ x = ρ x) →
    currOf cfg D σ u = ρ u

/-- The invariant of the evaluation. -/
structure Good (P : Set Sym) (st : State) : Prop where
  done : ∀ u, st.valid u = true → u ∉ P → Done cfg D ρ P st u
  static : ∀ u, u.isStatic = true → st.valid u = true
  user : ∀ u, st.valid u = false → st.user u = D.user u
  isNew : ∀ u, st.valid u = false → st.isNew u = D.isNew u
  modulesVal : st.modulesVal = D.modulesVal
  memberRev : ∀ u, cfg.isChoiceValue u = true → st.revTri u = .no

/-- The symbols that a computation still has to mark. -/
def remaining (st : State) : ℕ := cfg.symbols.countP fun u => !st.valid u

/-- A symbol that may be evaluated while those of `P` are being computed. -/
def Evaluable (P : Set Sym) (st : State) (x : Sym) : Prop :=
  st.valid x = true ∨ x ∈ cfg.symbols ∧ ∀ p ∈ P, Dependency.Below cfg.uses p x

/-- Some symbols may be evaluated. -/
structure Can (P : Set Sym) (n : ℕ) (st : State) (xs : List Sym) : Prop where
  good : Good cfg D ρ P st
  evaluable : ∀ x ∈ xs, Evaluable cfg P st x
  fuel : remaining cfg st ≤ n

/-- Some symbols were evaluated. -/
structure Reads (P : Set Sym) (st : State) (xs : List Sym) (st' : State) : Prop where
  good : Good cfg D ρ P st'
  ext : Ext cfg D ρ st st'
  computed : st'.Computed xs

/-- What is expected of a nested call. -/
def Contract (n : ℕ) (eval : Sym → State → State) : Prop :=
  ∀ P st x, Can cfg D ρ P n st [x] → Reads cfg D ρ P st [x] (eval x st)

end Definitions

variable {cfg : Config} {D : UserData} {ρ : Sym → SymbolValue} {P : Set Sym}

theorem Good.curr {st : State} (h : Good cfg D ρ P st) {x : Sym} (hx : st.valid x = true)
    (hP : x ∉ P) : st.curr x = ρ x := (h.done x hx hP).curr

theorem Known.curr {st : State} {u : Sym} (h : Known cfg D ρ P st u) (hg : Good cfg D ρ P st) :
    ∀ x ∈ cfg.visSyms u, st.curr x = ρ x := fun x hx =>
  hg.curr (h.closed x hx).1 (h.closed x hx).2

theorem remaining_le_of_valid {st st' : State}
    (h : ∀ u, st.valid u = true → st'.valid u = true) : remaining cfg st' ≤ remaining cfg st := by
  refine List.countP_mono_left fun u _ hu => ?_
  have := h u
  simp only [Bool.not_eq_true'] at hu ⊢
  by_contra hne
  rw [this (by simpa using hne)] at hu
  cases hu

theorem remaining_setValid {st : State} {s : Sym} (hs : s ∈ cfg.symbols)
    (hv : st.valid s = false) : remaining cfg (st.setValid s) < remaining cfg st := by
  have hle (l : List Sym) : l.countP (fun u => !(st.setValid s).valid u) ≤
      l.countP fun u => !st.valid u :=
    List.countP_mono_left fun u _ hu => by
      by_cases hus : u = s
      · subst hus; simpa using hv
      · simpa [State.setValid, hus] using hu
  obtain ⟨l, l', hl⟩ := List.append_of_mem hs
  have h1 := hle l
  have h2 := hle l'
  unfold remaining
  rw [hl, List.countP_append, List.countP_append, List.countP_cons, List.countP_cons]
  simp only [hv, State.setValid, Function.update_self] at h1 h2 ⊢
  simp only [Bool.not_false, Bool.not_true, if_true]
  simp only [Bool.false_eq_true, if_false]
  omega

/-! ## Evaluating several symbols -/

section Reads
variable (sem : Semantics cfg D ρ) {n : ℕ} {st st' st'' : State} {xs ys : List Sym}

theorem Good.reads_nil (h : Good cfg D ρ P st) : Reads cfg D ρ P st [] st :=
  ⟨h, .refl st, by simp [State.Computed]⟩

theorem Can.left (h : Can cfg D ρ P n st (xs ++ ys)) : Can cfg D ρ P n st xs :=
  ⟨h.good, fun x hx => h.evaluable x (List.mem_append_left _ hx), h.fuel⟩

theorem Can.again (h : Can cfg D ρ P n st xs) (hr : Reads cfg D ρ P st ys st') :
    Can cfg D ρ P n st' xs where
  good := hr.good
  evaluable x hx := (h.evaluable x hx).imp_left hr.ext.valid
  fuel := (remaining_le_of_valid fun _ => hr.ext.valid).trans h.fuel

theorem Can.mono (h : Can cfg D ρ P n st ys) (hs : ∀ x ∈ xs, x ∈ ys) : Can cfg D ρ P n st xs :=
  ⟨h.good, fun x hx => h.evaluable x (hs x hx), h.fuel⟩

theorem Can.then (h : Can cfg D ρ P n st (xs ++ ys)) (hr : Reads cfg D ρ P st xs st') :
    Can cfg D ρ P n st' ys :=
  (h.again hr).mono fun _ hy => List.mem_append_right _ hy

include sem in
theorem Reads.then (h : Reads cfg D ρ P st xs st') (h' : Reads cfg D ρ P st' ys st'') :
    Reads cfg D ρ P st (xs ++ ys) st'' where
  good := h'.good
  ext := h.ext.trans sem.members h'.ext
  computed x hx := by
    rcases List.mem_append.mp hx with hx | hx
    · exact h'.ext.valid (h.computed x hx)
    · exact h'.computed x hx

/-- What was computed before keeps its value. -/
theorem Reads.curr_eq (h : Reads cfg D ρ P st ys st') (hx : st.Computed xs) :
    ∀ x ∈ xs, st.curr x = st'.curr x := fun x hxs => (h.ext.curr (hx x hxs)).symm

theorem Reads.nil (h : Reads cfg D ρ P st xs st') : Reads cfg D ρ P st [] st' :=
  ⟨h.good, h.ext, by simp [State.Computed]⟩

/-- A valuation has the values that were computed of some symbols. -/
def State.Agrees (st : State) (xs : List Sym) (σ : Sym → SymbolValue) : Prop :=
  ∀ x ∈ xs, st.valid x = true → σ x = st.curr x

theorem State.Agrees.before {σ : Sym → SymbolValue} (h : st'.Agrees xs σ)
    (he : Ext cfg D ρ st st') : st.Agrees xs σ := fun x hx hv =>
  (h x hx (he.valid hv)).trans (he.curr hv)

/-- A visibility that is known stays so. -/
theorem Known.reads {u : Sym} (hk : Known cfg D ρ P st u) (hg : Good cfg D ρ P st)
    (h : Reads cfg D ρ P st xs st') : Known cfg D ρ P st' u := by
  obtain ⟨N, hf⟩ := h.ext
  have hcomp : st.Computed (cfg.visSyms u) := fun x hx => (hk.closed x hx).1
  have hpcomp : st.Computed (cfg.promptSyms u) := fun x hx =>
    hcomp x (cfg.mem_visSyms_of_prompt hx)
  have hcurr := hk.curr hg
  refine ⟨fun x hx => ⟨h.ext.valid (hk.closed x hx).1, (hk.closed x hx).2⟩, ?_, ?_, ?_⟩
  · rw [← hk.visible]
    refine hf.visible u hpcomp ?_
    rw [hk.visible, visibleTri_congr fun x hx => hcurr x (cfg.mem_visSyms_of_prompt hx)]
  · rw [← hk.reverse]
    refine hf.reverse u hcomp ?_
    rw [hk.reverse, reverseTri_congr hcurr]
  · intro p hp
    rw [← hk.prompts p hp]
    refine hf.prompt u p hp (fun x hx => hpcomp x (cfg.mem_promptSyms hp hx)) ?_
    rw [hk.prompts p hp, conditionTri_congr fun x hx =>
      hcurr x (cfg.mem_visSyms_of_prompt (cfg.mem_promptSyms hp hx))]

end Reads

/-! ## Expressions and properties -/

section Expressions
variable (sem : Semantics cfg D ρ) {n : ℕ} {eval : Sym → State → State}
  (call : Contract cfg D ρ n eval)
include sem call

theorem exprCalcValue_reads (e : Expr) {st : State} (h : Can cfg D ρ P n st e.syms) :
    Reads cfg D ρ P st e.syms (exprCalcValue cfg eval e st).2 ∧
      (exprCalcValue cfg eval e st).1 =
        e.value cfg.type (exprCalcValue cfg eval e st).2.curr := by
  induction e generalizing st with
  | symbol s => exact ⟨call P st s h, rfl⟩
  | not e ih =>
    obtain ⟨hr, hv⟩ := ih h
    exact ⟨hr, by simp only [exprCalcValue, Expr.value, hv]⟩
  | and l r ihl ihr | or l r ihl ihr =>
    obtain ⟨hl, hvl⟩ := ihl h.left
    obtain ⟨hr, hvr⟩ := ihr (h.then hl)
    refine ⟨hl.then sem hr, ?_⟩
    simp only [exprCalcValue, Expr.value]
    rw [hvr, hvl, Expr.value_congr l (hr.curr_eq hl.computed)]
  | equal a b | unequal a b =>
    have ha := call P st a (h.mono (by simp [Expr.syms]))
    have h' : Can cfg D ρ P n st ([a] ++ [b]) := h
    have hb := call P _ b (h'.then ha)
    exact ⟨ha.then sem hb, rfl⟩

theorem optCalcValue_reads (e : Option Expr) {st : State} (h : Can cfg D ρ P n st (optSyms e)) :
    Reads cfg D ρ P st (optSyms e) (optCalcValue cfg eval e st).2 ∧
      (optCalcValue cfg eval e st).1 =
        optValue cfg.type (optCalcValue cfg eval e st).2.curr e := by
  cases e with
  | none => exact ⟨h.good.reads_nil, rfl⟩
  | some e => exact exprCalcValue_reads sem call e h

/-- The first property whose condition holds. Some of the conditions may not have been looked
at. -/
theorem firstActive_reads {xs : List Sym} (ps : List Property)
    (hps : ∀ p ∈ ps, ∀ x ∈ optSyms p.visible, x ∈ xs) {st : State} (h : Can cfg D ρ P n st xs) :
    Reads cfg D ρ P st [] (firstActive cfg eval ps st).2 ∧
      ∀ σ, (firstActive cfg eval ps st).2.Agrees xs σ →
        (firstActive cfg eval ps st).1 = ps.find? fun p => conditionTri cfg σ p ≠ .no := by
  induction ps generalizing st with
  | nil => exact ⟨h.good.reads_nil, fun _ _ => rfl⟩
  | cons p ps ih =>
    rw [List.forall_mem_cons] at hps
    obtain ⟨hp, hv⟩ := optCalcValue_reads sem call p.visible (h.mono hps.1)
    have hcond {σ} (hσ : (optCalcValue cfg eval p.visible st).2.Agrees xs σ) :
        conditionTri cfg σ p = (optCalcValue cfg eval p.visible st).1 := by
      rw [hv]
      exact optValue_congr _ fun x hx => hσ x (hps.1 x hx) (hp.computed x hx)
    unfold firstActive
    by_cases hno : (optCalcValue cfg eval p.visible st).1 = .no
    · obtain ⟨hr, hf⟩ := ih hps.2 (h.again hp)
      simp only [hno, ne_eq, not_true_eq_false, if_false]
      refine ⟨(hp.then sem hr).nil, fun σ hσ => ?_⟩
      rw [List.find?_cons_of_neg (by simp [hcond (hσ.before hr.ext), hno])]
      exact hf σ hσ
    · simp only [ne_eq, hno, not_false_eq_true, if_true]
      refine ⟨hp.nil, fun σ hσ => ?_⟩
      rw [List.find?_cons_of_pos (by simp [hcond hσ, hno])]

end Expressions

/-! ## Visibility -/

/-- The visibility of a symbol is what the values computed so far make it. -/
structure Seen (cfg : Config) (D : UserData) (st : State) (m : Sym) : Prop where
  visible : st.visible m = visibleTri cfg D st.curr m
  reverse : st.revTri m = reverseTri cfg D st.curr m
  prompts : ∀ p ∈ cfg.prompts m, st.promptTri m p = conditionTri cfg st.curr p

section Setters
variable {st : State} {m : Sym}

theorem Good.setPromptTri (h : Good cfg D ρ P st) {p : Property} (hp : p ∈ cfg.prompts m)
    (hx : st.Computed (optSyms p.visible)) :
    Reads cfg D ρ P st [] (st.setPromptTri m p (conditionTri cfg st.curr p)) where
  good :=
    { h with
      done u hu hP := by
        refine ⟨(h.done u hu hP).curr, fun ht => ?_, (h.done u hu hP).stable⟩
        have hk := (h.done u hu hP).known ht
        refine { hk with prompts := fun q hq => ?_ }
        by_cases hu' : u = m ∧ q = p
        · obtain ⟨rfl, rfl⟩ := hu'
          simp only [State.setPromptTri, Function.update_self]
          exact conditionTri_congr fun x hx =>
            hk.curr h x (cfg.mem_visSyms_of_prompt (cfg.mem_promptSyms hq hx))
        · rw [← hk.prompts q hq]
          simp only [State.setPromptTri, Function.update_apply]
          split_ifs <;> simp_all }
  ext := by
    refine ⟨∅, ?_⟩
    rw [given_empty]
    refine { Frame.refl st with prompt := fun u q hq hx he => ?_ }
    by_cases hu : u = m ∧ q = p
    · obtain ⟨rfl, rfl⟩ := hu
      simp [State.setPromptTri, he]
    · simp only [State.setPromptTri, Function.update_apply]
      split_ifs <;> simp_all
  computed := by simp [State.Computed]

theorem Good.setVisible (h : Good cfg D ρ P st)
    (hm : cfg.TypedCandidates → cfg.type m ≠ .unknown)
    (hx : st.Computed (cfg.promptSyms m)) :
    Reads cfg D ρ P st [] (st.setVisible m (visibleTri cfg D st.curr m)) where
  good :=
    { h with
      done u hu hP := by
        refine ⟨(h.done u hu hP).curr, fun ht => ?_, (h.done u hu hP).stable⟩
        have hk := (h.done u hu hP).known ht
        refine { hk with visible := ?_ }
        by_cases hu' : u = m
        · subst hu'
          simp only [State.setVisible, Function.update_self]
          exact visibleTri_congr fun x hx => hk.curr h x (cfg.mem_visSyms_of_prompt hx)
        · simpa [State.setVisible, hu'] using hk.visible }
  ext := by
    refine ⟨∅, ?_⟩
    rw [given_empty]
    refine { Frame.refl st with visible := fun u hx he => ?_, untyped := fun ht u hu => ?_ }
    · by_cases hu : u = m
      · subst hu; simp [State.setVisible, he]
      · simp [State.setVisible, hu]
    · have hne : u ≠ m := by rintro rfl; exact hm ht hu
      simp [State.setVisible, hne]
  computed := by simp [State.Computed]

theorem Good.setRevTri (h : Good cfg D ρ P st) (hm : cfg.isChoiceValue m = false)
    (hx : st.Computed (cfg.visSyms m)) :
    Reads cfg D ρ P st [] (st.setRevTri m (reverseTri cfg D st.curr m)) where
  good :=
    { h with
      done u hu hP := by
        refine ⟨(h.done u hu hP).curr, fun ht => ?_, (h.done u hu hP).stable⟩
        have hk := (h.done u hu hP).known ht
        refine { hk with reverse := ?_ }
        by_cases hu' : u = m
        · subst hu'
          simp only [State.setRevTri, Function.update_self]
          exact reverseTri_congr (hk.curr h)
        · simpa [State.setRevTri, hu'] using hk.reverse
      memberRev u hu := by
        have hne : u ≠ m := by rintro rfl; simp [hm] at hu
        simpa [State.setRevTri, hne] using h.memberRev u hu }
  ext := by
    refine ⟨∅, ?_⟩
    rw [given_empty]
    refine { Frame.refl st with reverse := fun u hx he => ?_, memberRev := fun u hu => ?_ }
    · by_cases hu : u = m
      · subst hu; simp [State.setRevTri, he]
      · simp [State.setRevTri, hu]
    · have hne : u ≠ m := by rintro rfl; simp [hm] at hu
      simp [State.setRevTri, hne]
  computed := by simp [State.Computed]

end Setters

section Visibility
variable (sem : Semantics cfg D ρ) {n : ℕ} {eval : Sym → State → State}
  (call : Contract cfg D ρ n eval)
include sem call

theorem calcPrompts_reads (m : Sym) (ps : List Property) (hps : ∀ p ∈ ps, p ∈ cfg.prompts m)
    (tri : Tristate) {st : State} (h : Can cfg D ρ P n st (ps.flatMap fun p => optSyms p.visible)) :
    Reads cfg D ρ P st (ps.flatMap fun p => optSyms p.visible)
        (calcPrompts cfg eval m ps tri st).2 ∧
      (calcPrompts cfg eval m ps tri st).1 =
        max tri (maxValue (ps.map (conditionTri cfg (calcPrompts cfg eval m ps tri st).2.curr))) ∧
      ∀ p ∈ ps, (calcPrompts cfg eval m ps tri st).2.promptTri m p =
        conditionTri cfg (calcPrompts cfg eval m ps tri st).2.curr p := by
  induction ps generalizing tri st with
  | nil => exact ⟨h.good.reads_nil, by simp [calcPrompts], by simp⟩
  | cons p ps ih =>
    rw [List.forall_mem_cons] at hps
    have h' : Can cfg D ρ P n st
        (optSyms p.visible ++ ps.flatMap fun p => optSyms p.visible) := h
    obtain ⟨hp, hv⟩ := optCalcValue_reads sem call p.visible h'.left
    have hset := hp.good.setPromptTri hps.1 hp.computed
    have hfirst := hp.then sem hset
    rw [List.append_nil] at hfirst
    obtain ⟨hr, hmax, hall⟩ := ih hps.2 (max tri (optCalcValue cfg eval p.visible st).1)
      (h.then hfirst)
    have hcond : conditionTri cfg (optCalcValue cfg eval p.visible st).2.curr p =
        (optCalcValue cfg eval p.visible st).1 := hv.symm
    rw [hcond] at hset hfirst hr hmax hall
    unfold calcPrompts
    have hcurr : ∀ x ∈ optSyms p.visible, _ := hr.curr_eq hfirst.computed
    refine ⟨hfirst.then sem hr, ?_, ?_⟩
    · rw [hmax, List.map_cons, maxValue_cons, max_assoc, ← conditionTri_congr hcurr]
      exact congrArg (max tri) (congrArg (max · _) hv)
    · rw [List.forall_mem_cons]
      refine ⟨?_, hall⟩
      obtain ⟨N, hf⟩ := hr.ext
      rw [← conditionTri_congr hcurr, hf.prompt m p hps.1 hfirst.computed]
      · simp [State.setPromptTri, hv, conditionTri]
      · simp [State.setPromptTri, hv, conditionTri]

theorem calcRevDep_reads {m : Sym} (hm : cfg.isChoiceValue m = false) {st : State}
    (h : Can cfg D ρ P n st (optSyms (cfg.revDep m))) (hx : st.Computed (cfg.promptSyms m))
    (hv : st.visible m = visibleTri cfg D st.curr m) :
    Reads cfg D ρ P st (optSyms (cfg.revDep m)) (calcRevDep cfg eval m st) ∧
      (calcRevDep cfg eval m st).revTri m = reverseTri cfg D (calcRevDep cfg eval m st).curr m := by
  have main (tri : Tristate) {st' : State}
      (hr : Reads cfg D ρ P st (optSyms (cfg.revDep m)) st')
      (htri : tri = revValue cfg.type st'.curr (cfg.revDep m)) :
      (if tri = .mod ∧ cfg.symGetType st' m = .boolean then Tristate.yes else tri) =
        reverseTri cfg D st'.curr m ∧
      Reads cfg D ρ P st (optSyms (cfg.revDep m))
        (st'.setRevTri m (reverseTri cfg D st'.curr m)) := by
    obtain ⟨N, hf⟩ := hr.ext
    have hvis : st'.visible m = visibleTri cfg D st'.curr m := by
      rw [hf.visible m hx hv, hv, visibleTri_congr (hr.curr_eq hx)]
    refine ⟨?_, ?_⟩
    · have hk : cfg.symGetType st' m = knownType cfg D st'.curr m := by
        rw [Config.symGetType, hvis, hr.good.modulesVal, knownType]
      rw [htri, hk]
      exact (if_neg (by simp [hm])).symm
    · have hcomp : st'.Computed (cfg.visSyms m) := by
        intro x hxm
        rcases List.mem_append.mp hxm with hxm | hxm
        · exact hr.ext.valid (hx x hxm)
        · exact hr.computed x (by simpa [hm] using hxm)
      have hset := hr.then sem (hr.good.setRevTri hm hcomp)
      rwa [List.append_nil] at hset
  unfold calcRevDep
  cases he : cfg.revDep m with
  | none =>
    rw [he] at h main
    obtain ⟨h1, h2⟩ := main .no h.good.reads_nil rfl
    dsimp only
    rw [h1]
    exact ⟨h2, by simp [State.setRevTri]⟩
  | some e =>
    rw [he] at h main
    obtain ⟨hr, hval⟩ := exprCalcValue_reads sem call e h
    obtain ⟨h1, h2⟩ := main _ hr hval
    dsimp only
    rw [h1]
    exact ⟨h2, by simp [State.setRevTri]⟩

theorem symCalcVisibility_reads {m : Sym} (hm : cfg.TypedCandidates → cfg.type m ≠ .unknown)
    {st : State}
    (h : Can cfg D ρ P n st (cfg.visSyms m)) :
    Reads cfg D ρ P st (cfg.visSyms m) (symCalcVisibility cfg eval m st) ∧
      Seen cfg D (symCalcVisibility cfg eval m st) m := by
  have hprompts : Can cfg D ρ P n st (cfg.promptSyms m) :=
    h.mono fun x hx => List.mem_append_left _ hx
  obtain ⟨hp, hmax, hall⟩ :=
    calcPrompts_reads sem call m (cfg.prompts m) (fun _ hp => hp) .no hprompts
  rw [Tristate.max_no_left] at hmax
  have hset := hp.good.setVisible hm hp.computed
  have hfirst := hp.then sem hset
  rw [List.append_nil] at hfirst
  have hval : (if (calcPrompts cfg eval m (cfg.prompts m) .no st).1 = .mod ∧
        (cfg.type m ≠ .tristate ∨
          (calcPrompts cfg eval m (cfg.prompts m) .no st).2.modulesVal = .no)
      then Tristate.yes else (calcPrompts cfg eval m (cfg.prompts m) .no st).1) =
      visibleTri cfg D (calcPrompts cfg eval m (cfg.prompts m) .no st).2.curr m := by
    simp only [visibleTri, hmax, hp.good.modulesVal]
  unfold symCalcVisibility
  dsimp only
  rw [hval]
  generalize hst : (calcPrompts cfg eval m (cfg.prompts m) .no st).2 = st' at *
  have hseen : (st'.setVisible m (visibleTri cfg D st'.curr m)).visible m =
      visibleTri cfg D st'.curr m := by simp [State.setVisible]
  split_ifs with hc
  · have hsyms : cfg.visSyms m = cfg.promptSyms m := by simp [Config.visSyms, hc]
    rw [hsyms]
    refine ⟨hfirst, hseen, ?_, hall⟩
    rw [hfirst.good.memberRev m hc, reverseTri, if_pos hc]
  · replace hc : cfg.isChoiceValue m = false := by simpa using hc
    have hsyms : cfg.visSyms m = cfg.promptSyms m ++ optSyms (cfg.revDep m) := by
      simp [Config.visSyms, hc]
    rw [hsyms] at h ⊢
    obtain ⟨hr, hrev⟩ := calcRevDep_reads sem call hc (h.then hfirst) hfirst.computed hseen
    obtain ⟨N, hf⟩ := hr.ext
    have hcurr := hr.curr_eq hfirst.computed
    refine ⟨hfirst.then sem hr, ?_, hrev, fun p hp' => ?_⟩
    · rw [hf.visible m hfirst.computed hseen, hseen]
      exact visibleTri_congr hcurr
    · have hcurr' : ∀ x ∈ optSyms p.visible, _ := fun x hx => hcurr x (cfg.mem_promptSyms hp' hx)
      have hold : (st'.setVisible m (visibleTri cfg D st'.curr m)).promptTri m p =
          conditionTri cfg st'.curr p := hall p hp'
      rw [hf.prompt m p hp' (fun x hx => hfirst.computed x (cfg.mem_promptSyms hp' hx)) hold, hold]
      exact conditionTri_congr hcurr'

/-! ## The member of a choice -/

theorem firstVisible_reads {xs : List Sym} (ms : List Sym)
    (hms : ∀ m ∈ ms, (cfg.TypedCandidates → cfg.type m ≠ .unknown) ∧ ∀ x ∈ cfg.visSyms m, x ∈ xs) {st : State}
    (h : Can cfg D ρ P n st xs) :
    Reads cfg D ρ P st [] (firstVisible cfg eval ms st).2 ∧
      ∀ σ, (firstVisible cfg eval ms st).2.Agrees xs σ →
        (firstVisible cfg eval ms st).1 = ms.find? fun m => visibleTri cfg D σ m ≠ .no := by
  induction ms generalizing st with
  | nil => exact ⟨h.good.reads_nil, fun _ _ => rfl⟩
  | cons m ms ih =>
    rw [List.forall_mem_cons] at hms
    obtain ⟨hm, hs⟩ := symCalcVisibility_reads sem call hms.1.1 (h.mono hms.1.2)
    have hvis {σ} (hσ : (symCalcVisibility cfg eval m st).Agrees xs σ) :
        visibleTri cfg D σ m = (symCalcVisibility cfg eval m st).visible m := by
      rw [hs.visible]
      exact visibleTri_congr fun x hx => hσ x (hms.1.2 x (cfg.mem_visSyms_of_prompt hx))
        (hm.computed x (cfg.mem_visSyms_of_prompt hx))
    unfold firstVisible
    by_cases hno : (symCalcVisibility cfg eval m st).visible m = .no
    · obtain ⟨hr, hf⟩ := ih hms.2 (h.again hm)
      simp only [hno, ne_eq, not_true_eq_false, if_false]
      refine ⟨(hm.then sem hr).nil, fun σ hσ => ?_⟩
      rw [List.find?_cons_of_neg (by simp [hvis (hσ.before hr.ext), hno])]
      exact hf σ hσ
    · simp only [ne_eq, hno, not_false_eq_true, if_true]
      refine ⟨hm.nil, fun σ hσ => ?_⟩
      rw [List.find?_cons_of_pos (by simp [hvis hσ, hno])]

theorem firstVisibleDefault_reads {xs : List Sym} (ps : List Property)
    (hps : ∀ p ∈ ps, (∀ x ∈ optSyms p.visible, x ∈ xs) ∧ ∀ m, p.getSymbol = some m →
      (cfg.TypedCandidates → cfg.type m ≠ .unknown) ∧ ∀ x ∈ cfg.visSyms m, x ∈ xs) {st : State}
    (h : Can cfg D ρ P n st xs) :
    Reads cfg D ρ P st [] (firstVisibleDefault cfg eval ps st).2 ∧
      ∀ σ, (firstVisibleDefault cfg eval ps st).2.Agrees xs σ →
        (firstVisibleDefault cfg eval ps st).1 =
          ((ps.filter fun p => conditionTri cfg σ p ≠ .no).filterMap (·.getSymbol)).find?
            fun m => visibleTri cfg D σ m ≠ .no := by
  induction ps generalizing st with
  | nil => exact ⟨h.good.reads_nil, fun _ _ => rfl⟩
  | cons p ps ih =>
    rw [List.forall_mem_cons] at hps
    obtain ⟨hp, hv⟩ := optCalcValue_reads sem call p.visible (h.mono hps.1.1)
    have hcond {σ} (hσ : (optCalcValue cfg eval p.visible st).2.Agrees xs σ) :
        conditionTri cfg σ p = (optCalcValue cfg eval p.visible st).1 := by
      rw [hv]
      exact optValue_congr _ fun x hx => hσ x (hps.1.1 x hx) (hp.computed x hx)
    unfold firstVisibleDefault
    by_cases hno : (optCalcValue cfg eval p.visible st).1 = .no
    · obtain ⟨hr, hf⟩ := ih hps.2 (h.again hp)
      simp only [hno, if_true]
      refine ⟨(hp.then sem hr).nil, fun σ hσ => ?_⟩
      rw [List.filter_cons_of_neg (by simp [hcond (hσ.before hr.ext), hno])]
      exact hf σ hσ
    · simp only [hno, if_false]
      cases hg : p.getSymbol with
      | none =>
        obtain ⟨hr, hf⟩ := ih hps.2 (h.again hp)
        refine ⟨(hp.then sem hr).nil, fun σ hσ => ?_⟩
        rw [List.filter_cons_of_pos (by simp [hcond (hσ.before hr.ext), hno]),
          List.filterMap_cons_none hg]
        exact hf σ hσ
      | some m =>
        obtain ⟨hty, hxs⟩ := hps.1.2 m hg
        obtain ⟨hm, hs⟩ := symCalcVisibility_reads sem call hty ((h.again hp).mono hxs)
        have hfirst := (hp.then sem hm).nil
        have hvis {σ} (hσ : (symCalcVisibility cfg eval m
            (optCalcValue cfg eval p.visible st).2).Agrees xs σ) :
            visibleTri cfg D σ m = (symCalcVisibility cfg eval m
              (optCalcValue cfg eval p.visible st).2).visible m := by
          rw [hs.visible]
          exact visibleTri_congr fun x hx => hσ x (hxs x (cfg.mem_visSyms_of_prompt hx))
            (hm.computed x (cfg.mem_visSyms_of_prompt hx))
        dsimp only
        by_cases hno' : (symCalcVisibility cfg eval m
            (optCalcValue cfg eval p.visible st).2).visible m = .no
        · obtain ⟨hr, hf⟩ := ih hps.2 (h.again hfirst)
          simp only [hno', ne_eq, not_true_eq_false, if_false]
          refine ⟨(hfirst.then sem hr).nil, fun σ hσ => ?_⟩
          rw [List.filter_cons_of_pos
              (by simp [hcond ((hσ.before hr.ext).before hm.ext), hno]),
            List.filterMap_cons_some hg,
            List.find?_cons_of_neg (by simp [hvis (hσ.before hr.ext), hno'])]
          exact hf σ hσ
        · simp only [ne_eq, hno', not_false_eq_true, if_true]
          refine ⟨hfirst, fun σ hσ => ?_⟩
          rw [List.filter_cons_of_pos (by simp [hcond (hσ.before hm.ext), hno]),
            List.filterMap_cons_some hg,
            List.find?_cons_of_pos (by simp [hvis hσ, hno'])]

theorem symCalcChoice_reads {xs : List Sym} {s : Sym} (hs : s.isChoice = true)
    (hty : cfg.type s ≠ .unknown)
    (hcand : ∀ m ∈ cfg.candidates s, ∀ x ∈ cfg.visSyms m, x ∈ xs)
    (hdef : ∀ p ∈ cfg.defaults s, ∀ x ∈ optSyms p.visible, x ∈ xs) {st : State}
    (huser : st.user s = D.user s) (h : Can cfg D ρ P n st xs) :
    Reads cfg D ρ P st [] (symCalcChoice cfg eval s st).2 ∧
      ∀ σ, (symCalcChoice cfg eval s st).2.Agrees xs σ → (symCalcChoice cfg eval s st).1 =
        (preferred cfg D σ s).find? fun m => visibleTri cfg D σ m ≠ .no := by
  have typed {m : Sym} (hm : m ∈ cfg.candidates s) :
      (cfg.TypedCandidates → cfg.type m ≠ .unknown) ∧ ∀ x ∈ cfg.visSyms m, x ∈ xs :=
    ⟨fun ht => ht s hs hty m hm, hcand m hm⟩
  obtain ⟨hr1, hf1⟩ := firstVisible_reads sem call (userChoice (st.user s).val)
    (fun m hm => typed (sem.remembered s hs m (huser ▸ hm))) h
  obtain ⟨hr2, hf2⟩ := firstVisibleDefault_reads sem call (cfg.defaults s)
    (fun p hp => ⟨hdef p hp, fun m hm => typed (mem_candidates_of_default hp hm)⟩) (h.again hr1)
  obtain ⟨hr3, hf3⟩ := firstVisible_reads sem call (cfg.members s)
    (fun m hm => typed (List.mem_append_left _ hm)) ((h.again hr1).again hr2)
  unfold symCalcChoice preferred
  simp only [List.find?_append, ← huser]
  generalize firstVisible cfg eval (userChoice (st.user s).val) st = r1 at *
  obtain ⟨o1, st1⟩ := r1
  dsimp only at *
  cases o1 with
  | some m => exact ⟨hr1, fun σ hσ => by rw [← hf1 σ hσ]; rfl⟩
  | none =>
    dsimp only
    generalize firstVisibleDefault cfg eval (cfg.defaults s) st1 = r2 at *
    obtain ⟨o2, st2⟩ := r2
    dsimp only at *
    cases o2 with
    | some m =>
      refine ⟨(hr1.then sem hr2).nil, fun σ hσ => ?_⟩
      rw [← hf1 σ (hσ.before hr2.ext), ← hf2 σ hσ]
      rfl
    | none =>
      refine ⟨((hr1.then sem hr2).then sem hr3).nil, fun σ hσ => ?_⟩
      have h2 := hσ.before hr3.ext
      rw [← hf1 σ (h2.before hr2.ext), ← hf2 σ h2, ← hf3 σ hσ]
      rfl

end Visibility

/-! ## A symbol while it is computed -/

/-- The computation of `s` was started in `st₀` and has not given a value yet. `W` says whether it
has set `SYMBOL_WRITE`. -/
structure Within (cfg : Config) (D : UserData) (ρ : Sym → SymbolValue) (P : Set Sym) (n : ℕ)
    (s : Sym) (W : Prop) (st₀ st : State) : Prop where
  can : Can cfg D ρ (insert s P) n st (cfg.uses s)
  apart : ∀ x ∈ cfg.uses s, x ∉ insert s P
  frame : ∃ N, s ∉ N ∧
    Frame cfg D (insert s N) (given cfg D ρ N ∪ {u | u = s ∧ W}) st₀ st
  user : st.user s = D.user s
  isNew : st.isNew s = D.isNew s

namespace Within
variable {n : ℕ} {s : Sym} {W : Prop} {st₀ st st' : State} {xs : List Sym}

theorem valid (h : Within cfg D ρ P n s W st₀ st) : st.valid s = true := by
  obtain ⟨N, -, hf⟩ := h.frame
  exact (hf.valid s).mpr (.inr (Set.mem_insert s N))

theorem congr {W' : Prop} (h : Within cfg D ρ P n s W st₀ st) (hW : W ↔ W') :
    Within cfg D ρ P n s W' st₀ st := by rwa [← propext hW]

/-- What was computed for `s` so far is final. -/
theorem agrees (h : Within cfg D ρ P n s W st₀ st) : st.Agrees (cfg.uses s) ρ := fun x hx hv =>
  (h.can.good.curr hv (h.apart x hx)).symm

theorem reads (sem : Semantics cfg D ρ) (h : Within cfg D ρ P n s W st₀ st)
    (hr : Reads cfg D ρ (insert s P) st xs st') : Within cfg D ρ P n s W st₀ st' := by
  obtain ⟨N, hsN, hf⟩ := h.frame
  obtain ⟨N', hf'⟩ := hr.ext
  have hsN' : s ∉ N' := fun hs => by simpa [h.valid] using hf'.fresh s hs
  refine ⟨h.can.again hr, h.apart, ⟨N ∪ N', by simp [hsN, hsN'], ?_⟩, ?_, ?_⟩
  · have ht := hf.trans hf' fun u hu hu' => ?_
    · rwa [Set.insert_union, Set.union_right_comm, ← given_union] at ht
    · have hnew := hf'.fresh u hu'
      rcases hu with hu | ⟨rfl, -⟩
      · rcases mem_or_of_given sem.members hu with hN | hc
        · rw [(hf.valid u).mpr (.inr (Set.mem_insert_of_mem s hN))] at hnew
          cases hnew
        · exact .inl hc
      · exact absurd hu' hsN'
  · rw [hf'.user, h.user]
  · rw [hf'.isNew, h.isNew]

theorem setCurr (h : Within cfg D ρ P n s W st₀ st) (v : SymbolValue) :
    Within cfg D ρ P n s W st₀ (st.setCurr s v) := by
  have hne {u : Sym} {Q : Prop} (hu : u ∉ insert s P ∨ Q) (hQ : Q → u ≠ s) : u ≠ s := by
    rcases hu with hu | hu
    · rintro rfl; exact hu (Set.mem_insert _ _)
    · exact hQ hu
  refine { h with can := { h.can with good := { h.can.good with done := fun u hu hP => ?_ } }, frame := ?_ }
  · have hd := h.can.good.done u hu hP
    refine ⟨?_, fun ht => { hd.known ht with }, hd.stable⟩
    rw [← hd.curr]
    simp [State.setCurr, hne (.inl hP) False.elim]
  · obtain ⟨N, hsN, hf⟩ := h.frame
    refine ⟨N, hsN, { hf with curr := fun u hu => ?_ }⟩
    rw [← hf.curr u hu]
    have hus : u ≠ s := by
      rintro rfl
      simp [hf.fresh u (Set.mem_insert u N)] at hu
    simp [State.setCurr, hus]

theorem setWrite (h : Within cfg D ρ P n s W st₀ st) :
    Within cfg D ρ P n s True st₀ (st.setWrite s true) := by
  refine { h with can := { h.can with good := { h.can.good with done := fun u hu hP => ?_ } }, frame := ?_ }
  · have hd := h.can.good.done u hu hP
    exact ⟨hd.curr, fun ht => { hd.known ht with }, hd.stable⟩
  · obtain ⟨N, hsN, hf⟩ := h.frame
    refine ⟨N, hsN, { hf with write := fun hflat u => ?_ }⟩
    have := hf.write hflat u
    by_cases hus : u = s
    · subst hus; simp [State.setWrite]
    · simpa [State.setWrite, hus] using this

theorem agrees_of_setCurr (h : Within cfg D ρ P n s W st₀ st) {v : SymbolValue}
    {σ : Sym → SymbolValue} (hσ : (st.setCurr s v).Agrees (cfg.uses s) σ) :
    st.Agrees (cfg.uses s) σ := fun x hx hv => by
  have hne : x ≠ s := by
    rintro rfl
    exact h.apart x hx (Set.mem_insert x P)
  rw [hσ x hx hv]
  simp [State.setCurr, hne]

theorem visSyms_eq (h : Within cfg D ρ P n s W st₀ st) (hst : s.isStatic = false)
    (hty : cfg.type s ≠ .unknown) (hk : Known cfg D ρ (insert s P) st s) {σ : Sym → SymbolValue}
    (hσ : st.Agrees (cfg.uses s) σ) : ∀ x ∈ cfg.visSyms s, σ x = ρ x := fun x hx => by
  have hu := mem_uses_of_visSyms hst hty hx
  rw [hσ x hu (hk.closed x hx).1, h.agrees x hu (hk.closed x hx).1]

/-- The visibility of `s`, once it is computed, is final. -/
theorem known (h : Within cfg D ρ P n s W st₀ st) (hst : s.isStatic = false)
    (hty : cfg.type s ≠ .unknown) (hs : Seen cfg D st s) (hc : st.Computed (cfg.visSyms s)) :
    Known cfg D ρ (insert s P) st s := by
  have huses {y : Sym} (hy : y ∈ cfg.visSyms s) : y ∈ cfg.uses s := mem_uses_of_visSyms hst hty hy
  have hvis : ∀ y ∈ cfg.visSyms s, st.curr y = ρ y := fun y hy =>
    (h.agrees y (huses hy) (hc y hy)).symm
  refine ⟨fun y hy => ⟨hc y hy, h.apart y (huses hy)⟩, ?_, ?_, fun p hp => ?_⟩
  · exact hs.visible.trans (visibleTri_congr fun y hy => hvis y (cfg.mem_visSyms_of_prompt hy))
  · exact hs.reverse.trans (reverseTri_congr hvis)
  · exact (hs.prompts p hp).trans (conditionTri_congr fun y hy =>
      hvis y (cfg.mem_visSyms_of_prompt (cfg.mem_promptSyms hp hy)))

end Within

section Compute
variable (sem : Semantics cfg D ρ) {n : ℕ} {eval : Sym → State → State}
  (call : Contract cfg D ρ n eval) {s : Sym} (hst : s.isStatic = false)
  (hty : cfg.type s ≠ .unknown) {W : Prop} {st₀ st : State}
include sem call hst hty

theorem symGetDefaultProp_within (h : Within cfg D ρ P n s W st₀ st)
    (hk : Known cfg D ρ (insert s P) st s) :
    Within cfg D ρ P n s W st₀ (symGetDefaultProp cfg eval s st).2 ∧
      Known cfg D ρ (insert s P) (symGetDefaultProp cfg eval s st).2 s ∧
      ∀ σ, (symGetDefaultProp cfg eval s st).2.Agrees (cfg.uses s) σ →
        (symGetDefaultProp cfg eval s st).1 = activeDefault cfg σ s := by
  obtain ⟨hr, hf⟩ := firstActive_reads sem call (cfg.defaults s)
    (fun p hp x hx => mem_uses_of_default hst hty hp (List.mem_append_left _ hx)) h.can
  exact ⟨h.reads sem hr, hk.reads h.can.good hr, hf⟩

theorem defaultTri_within (h : Within cfg D ρ P n s W st₀ st)
    (hk : Known cfg D ρ (insert s P) st s) (hs : s.isChoice = false) {p : Property}
    (hp : p ∈ cfg.defaults s) :
    Within cfg D ρ P n s W st₀ (defaultTri cfg eval p st).2 ∧
      Known cfg D ρ (insert s P) (defaultTri cfg eval p st).2 s ∧
      Ext cfg D ρ st (defaultTri cfg eval p st).2 ∧
      ∀ σ, (defaultTri cfg eval p st).2.Agrees (cfg.uses s) σ →
        (defaultTri cfg eval p st).1 = defaultValue cfg σ (some p) := by
  cases he : p.expr with
  | expr e =>
    have hsyms : ∀ x ∈ e.syms, x ∈ cfg.uses s := fun x hx =>
      mem_uses_of_default hst hty hp (List.mem_append_right _ (by simpa [he, hs] using hx))
    obtain ⟨hr, hv⟩ := exprCalcValue_reads sem call e (h.can.mono hsyms)
    simp only [defaultTri, defaultValue, he]
    exact ⟨h.reads sem hr, hk.reads h.can.good hr, hr.ext, fun σ hσ =>
      hv.trans (e.value_congr fun x hx => (hσ x (hsyms x hx) (hr.computed x hx)).symm)⟩
  | _ => simp only [defaultTri, defaultValue, he]; exact ⟨h, hk, .refl st, fun _ _ => trivial⟩

omit call in
/-- A member that is visible reads its choice after it was computed. -/
theorem chosen_within (hk : Known cfg D ρ (insert s P) st s) (hv : visibleTri cfg D ρ s = .yes)
    {σ : Sym → SymbolValue} (hσ : st.Agrees (cfg.uses s) σ) :
    ((cfg.choiceOf s).any fun c => (st.curr c).val = .sym s) =
      (cfg.choiceOf s).any fun c => (σ c).val = .sym s := by
  cases hc : cfg.choiceOf s with
  | none => rfl
  | some c =>
    have hread := sem.reads s c hc hv
    simp [hσ c (mem_uses_of_choiceOf hst hty hc) (hk.closed c hread).1]

theorem calcOwn_within (h : Within cfg D ρ P n s W st₀ st)
    (hk : Known cfg D ρ (insert s P) st s) :
    Within cfg D ρ P n s W st₀ (calcOwn cfg eval s st).2 ∧
      Known cfg D ρ (insert s P) (calcOwn cfg eval s st).2 s ∧
      ∀ σ, (calcOwn cfg eval s st).2.Agrees (cfg.uses s) σ →
        (calcOwn cfg eval s st).1 = ownTri cfg D σ s := by
  unfold calcOwn ownTri
  rw [h.isNew, h.user]
  split_ifs with hn hs
  · exact ⟨h, hk, fun _ _ => rfl⟩
  · exact ⟨h, hk, fun _ _ => rfl⟩
  · obtain ⟨hw, hkd, hd⟩ := symGetDefaultProp_within sem call hst hty h hk
    cases hr : symGetDefaultProp cfg eval s st with
    | mk o st' =>
      rw [hr] at hw hkd hd
      cases o with
      | some p =>
        obtain ⟨hw', hk', he, hv⟩ := defaultTri_within sem call hst hty hw hkd (by simpa using hs)
          (mem_defaults_of_activeDefault (hd ρ hw.agrees).symm)
        exact ⟨hw', hk', fun σ hσ => by rw [← hd σ (hσ.before he)]; exact hv σ hσ⟩
      | none => exact ⟨hw, hkd, fun σ hσ => by rw [← hd σ hσ]; rfl⟩

theorem calcLogic_within (hl : (cfg.type s).isLogic = true)
    (h : Within cfg D ρ P n s False st₀ st) (hk : Known cfg D ρ (insert s P) st s) :
    Within cfg D ρ P n s (writes cfg D ρ s = true) st₀ (calcLogic cfg eval s st).2 ∧
      Known cfg D ρ (insert s P) (calcLogic cfg eval s st).2 s ∧
      ∀ σ, (calcLogic cfg eval s st).2.Agrees (cfg.uses s) σ →
        (calcLogic cfg eval s st).1 = logicTri cfg D σ s := by
  unfold calcLogic
  rw [hk.visible, hk.reverse]
  by_cases hm : cfg.isChoiceValue s = true ∧ visibleTri cfg D ρ s = .yes
  · rw [if_pos hm]
    refine ⟨h.congr (by simp [writes, hl, hm]), hk, fun σ hσ => ?_⟩
    have hvis := h.visSyms_eq hst hty hk hσ
    rw [logicTri_member ⟨hm.1, by
      rw [visibleTri_congr fun x hx => hvis x (cfg.mem_visSyms_of_prompt hx), hm.2]⟩,
      ← chosen_within sem hst hty hk hm.2 hσ]
  rw [if_neg hm]
  by_cases hsh : max (visibleTri cfg D ρ s) (reverseTri cfg D ρ s) ≠ .no
  · have hwr : True ↔ writes cfg D ρ s = true := by
      rw [writes, if_pos hl, if_neg hm, if_pos hsh]
      simp
    obtain ⟨hw, hko, ho⟩ := calcOwn_within sem call hst hty (h.setWrite.congr hwr) { hk with }
    rw [if_pos hsh]
    dsimp only
    refine ⟨hw, hko, fun σ hσ => ?_⟩
    have hvis := hw.visSyms_eq hst hty hko hσ
    have hv := visibleTri_congr (D := D) fun x hx => hvis x (cfg.mem_visSyms_of_prompt hx)
    have hr := reverseTri_congr (D := D) hvis
    rw [logicTri_shown (by rwa [hv]) (by rwa [hv, hr]), hko.visible, hko.reverse, ho σ hσ, hv, hr]
  · rw [if_neg hsh]
    have hwr : writes cfg D ρ s = (!s.isChoice && (activeDefault cfg ρ s).isSome) := by
      rw [writes, if_pos hl, if_neg hm, if_neg hsh]
    have hidden {st' : State} {σ : Sym → SymbolValue} (h' : Within cfg D ρ P n s
        (writes cfg D ρ s = true) st₀ st') (hk' : Known cfg D ρ (insert s P) st' s)
        (hσ : st'.Agrees (cfg.uses s) σ) : logicTri cfg D σ s =
          if s.isChoice then .no else defaultValue cfg σ (activeDefault cfg σ s) := by
      have hvis := h'.visSyms_eq hst hty hk' hσ
      refine logicTri_hidden ?_
      rw [visibleTri_congr fun x hx => hvis x (cfg.mem_visSyms_of_prompt hx),
        reverseTri_congr hvis]
      exact not_not.mp hsh
    by_cases hs : s.isChoice = true
    · simp only [hs, if_true] at hidden ⊢
      have hw : Within cfg D ρ P n s (writes cfg D ρ s = true) _ _ := h.congr (by simp [hwr, hs])
      exact ⟨hw, hk, fun σ hσ => (hidden hw hk hσ).symm⟩
    · simp only [hs, if_false, Bool.false_eq_true] at hidden ⊢
      obtain ⟨hw, hkd, hd⟩ := symGetDefaultProp_within sem call hst hty h hk
      have hdρ := hd ρ hw.agrees
      cases hr : symGetDefaultProp cfg eval s st with
      | mk o st' =>
        rw [hr] at hw hkd hd hdρ
        cases o with
        | some p =>
          have hwr' : True ↔ writes cfg D ρ s = true := by simp [hwr, hs, ← hdρ]
          obtain ⟨hw', hk', he, hv⟩ := defaultTri_within sem call hst hty
            (hw.setWrite.congr hwr') { hkd with } (by simpa using hs)
            (mem_defaults_of_activeDefault hdρ.symm)
          refine ⟨hw', hk', fun σ hσ => ?_⟩
          have hold : (st'.setWrite s true).Agrees (cfg.uses s) σ := hσ.before he
          rw [hidden hw' hk' hσ, ← hd σ hold]
          exact hv σ hσ
        | none =>
          have hw' : Within cfg D ρ P n s (writes cfg D ρ s = true) _ _ :=
            hw.congr (by simp [hwr, ← hdρ])
          exact ⟨hw', hkd, fun σ hσ => by rw [hidden hw' hkd hσ, ← hd σ hσ]; rfl⟩

theorem calcText_within (hl : (cfg.type s).isLogic = false)
    (h : Within cfg D ρ P n s False st₀ st) (hk : Known cfg D ρ (insert s P) st s) :
    Within cfg D ρ P n s (writes cfg D ρ s = true) st₀ (calcText cfg eval s st).2 ∧
      Known cfg D ρ (insert s P) (calcText cfg eval s st).2 s ∧
      ∀ σ, (calcText cfg eval s st).2.Agrees (cfg.uses s) σ →
        (calcText cfg eval s st).1 = textVal cfg D σ s := by
  have hfirst : Within cfg D ρ P n s (visibleTri cfg D ρ s ≠ .no) st₀
        (if visibleTri cfg D ρ s ≠ .no then st.setWrite s true else st) ∧
      Known cfg D ρ (insert s P)
        (if visibleTri cfg D ρ s ≠ .no then st.setWrite s true else st) s := by
    split_ifs with hv
    · exact ⟨h.setWrite.congr (by simp [hv]), { hk with }⟩
    · exact ⟨h.congr (by simpa using hv), hk⟩
  have hwr : writes cfg D ρ s = true ↔ visibleTri cfg D ρ s ≠ .no ∨
      ((activeDefault cfg ρ s).bind (·.getSymbol)).isSome := by
    simp [writes, hl]
  unfold calcText
  rw [hk.visible]
  dsimp only
  generalize (if visibleTri cfg D ρ s ≠ .no then st.setWrite s true else st) = st1 at hfirst ⊢
  obtain ⟨hw, hk1⟩ := hfirst
  have text {st' : State} {W' : Prop} {σ : Sym → SymbolValue}
      (h' : Within cfg D ρ P n s W' st₀ st') (hk' : Known cfg D ρ (insert s P) st' s)
      (hσ : st'.Agrees (cfg.uses s) σ) : textVal cfg D σ s =
        if visibleTri cfg D ρ s ≠ .no ∧ !D.isNew s then (D.user s).val
        else defaultText σ (activeDefault cfg σ s) := by
    have hvis := h'.visSyms_eq hst hty hk' hσ
    rw [textVal, visibleTri_congr fun x hx => hvis x (cfg.mem_visSyms_of_prompt hx)]
  rw [hk1.visible, hw.isNew, hw.user]
  by_cases hu : visibleTri cfg D ρ s ≠ .no ∧ (!D.isNew s) = true
  · simp only [if_pos hu] at text ⊢
    have hw' : Within cfg D ρ P n s (writes cfg D ρ s = true) _ _ :=
      hw.congr (by simp [hwr, hu.1])
    exact ⟨hw', hk1, fun σ hσ => (text hw' hk1 hσ).symm⟩
  simp only [if_neg hu] at text ⊢
  obtain ⟨hwd, hkd, hd⟩ := symGetDefaultProp_within sem call hst hty hw hk1
  have hdρ := hd ρ hwd.agrees
  rw [← hdρ] at hwr
  cases hr : symGetDefaultProp cfg eval s st1 with
  | mk o st' =>
    rw [hr] at hwd hkd hd hdρ hwr
    cases o with
    | none =>
      exact ⟨hwd.congr (by simp [hwr]), hkd, fun σ hσ => by rw [text hwd hkd hσ, ← hd σ hσ]; rfl⟩
    | some p =>
      cases hg : p.getSymbol with
      | none =>
        simp only [hg]
        refine ⟨hwd.congr (by simp [hwr, hg]), hkd, fun σ hσ => ?_⟩
        rw [text hwd hkd hσ, ← hd σ hσ]
        simp [defaultText, hg]
      | some ds =>
        have hds : ds ∈ cfg.uses s := by
          refine mem_uses_of_default hst hty (mem_defaults_of_activeDefault hdρ.symm)
            (List.mem_append_right _ ?_)
          simp [Property.getSymbol_eq_some.mp hg, hl, Expr.syms]
        have hws : Within cfg D ρ P n s (writes cfg D ρ s = true) _ _ :=
          hwd.setWrite.congr (by simp [hwr, hg])
        have hks : Known cfg D ρ (insert s P) (st'.setWrite s true) s := { hkd with }
        have hcan : Can cfg D ρ _ _ _ [ds] := hws.can.mono (by simpa using hds)
        have hre := call _ _ ds hcan
        have hwe := hws.reads sem hre
        have hke := hks.reads hws.can.good hre
        simp only [hg]
        refine ⟨hwe, hke, fun σ hσ => ?_⟩
        have hold : (st'.setWrite s true).Agrees (cfg.uses s) σ := hσ.before hre.ext
        rw [text hwe hke hσ, ← hd σ hold]
        simp [defaultText, hg, hσ ds hds (hre.computed ds (by simp))]

theorem selectMember_within (h : Within cfg D ρ P n s W st₀ st)
    (hk : Known cfg D ρ (insert s P) st s) {tri : Tristate}
    (hcurr : st.curr s = ⟨.text ['n'], tri⟩)
    (htri : ∀ σ, st.Agrees (cfg.uses s) σ → tri = newTri cfg D σ s) :
    Within cfg D ρ P n s W st₀ (selectMember cfg eval s st) ∧
      Known cfg D ρ (insert s P) (selectMember cfg eval s st) s ∧
      ∀ σ, (selectMember cfg eval s st).Agrees (cfg.uses s) σ →
        (selectMember cfg eval s st).curr s = logicCurr cfg D σ s := by
  unfold selectMember logicCurr
  simp only [hcurr]
  split_ifs with hs
  · obtain ⟨hs, hyes⟩ := hs
    let xs := (cfg.candidates s).flatMap cfg.visSyms ++
      (cfg.defaults s).flatMap fun p => optSyms p.visible
    have huses : ∀ x ∈ xs, x ≠ s → x ∈ cfg.uses s := by
      intro x hx hxs
      rcases List.mem_append.mp hx with hx | hx
      · obtain ⟨m, hm, hx⟩ := List.mem_flatMap.mp hx
        exact mem_uses_of_candidate hst hty hs hm hx hxs
      · obtain ⟨p, hp, hx⟩ := List.mem_flatMap.mp hx
        exact mem_uses_of_default hst hty hp (List.mem_append_left _ hx)
    have hcan : Can cfg D ρ (insert s P) n st xs := by
      refine ⟨h.can.good, fun x hx => ?_, h.can.fuel⟩
      by_cases hxs : x = s
      · exact .inl (hxs ▸ h.valid)
      · exact h.can.evaluable x (huses x hx hxs)
    obtain ⟨hr, hf⟩ := symCalcChoice_reads sem call hs hty
      (fun m hm x hx => List.mem_append_left _ (List.mem_flatMap.mpr ⟨m, hm, hx⟩))
      (fun p hp x hx => List.mem_append_right _ (List.mem_flatMap.mpr ⟨p, hp, hx⟩)) h.user hcan
    have hw := h.reads sem hr
    have hk' := hk.reads h.can.good hr
    have hcurr' : (symCalcChoice cfg eval s st).2.curr s = ⟨.text ['n'], .yes⟩ := by
      rw [hr.ext.curr h.valid, hcurr, hyes]
    have hsel {σ : Sym → SymbolValue}
        (hσ : (symCalcChoice cfg eval s st).2.Agrees (cfg.uses s) σ) :
        (symCalcChoice cfg eval s st).1 = selected cfg D σ s := by
      refine hf (selecting σ s) fun x hx hv => ?_
      by_cases hxs : x = s
      · subst hxs
        rw [hcurr']
        simp [selecting]
      · rw [← hσ x (huses x hx hxs) hv]
        simp [selecting, hxs]
    have hyes' {σ : Sym → SymbolValue}
        (hσ : (symCalcChoice cfg eval s st).2.Agrees (cfg.uses s) σ) :
        newTri cfg D σ s = .yes := by rw [← htri σ (hσ.before hr.ext), hyes]
    cases hc : symCalcChoice cfg eval s st with
    | mk o st' =>
      rw [hc] at hw hk' hcurr' hsel hyes'
      cases o with
      | some m =>
        dsimp only at hcurr' ⊢
        rw [hcurr']
        refine ⟨hw.setCurr _, { hk' with }, fun σ hσ => ?_⟩
        have hσ' := hw.agrees_of_setCurr hσ
        rw [if_pos ⟨hs, hyes' hσ'⟩, ← hsel hσ', State.setCurr_self]
      | none =>
        refine ⟨hw.setCurr _, { hk' with }, fun σ hσ => ?_⟩
        have hσ' := hw.agrees_of_setCurr hσ
        rw [if_pos ⟨hs, hyes' hσ'⟩, ← hsel hσ', State.setCurr_self]
  · refine ⟨h, hk, fun σ hσ => ?_⟩
    rw [← htri σ hσ, if_neg hs, hcurr]

theorem calcCurr_within (h : Within cfg D ρ P n s False st₀ st)
    (hk : Known cfg D ρ (insert s P) st s) :
    Within cfg D ρ P n s (writes cfg D ρ s = true) st₀ (calcCurr cfg eval s st) ∧
      Known cfg D ρ (insert s P) (calcCurr cfg eval s st) s ∧
      ∀ σ, (calcCurr cfg eval s st).Agrees (cfg.uses s) σ →
        (calcCurr cfg eval s st).curr s = currOf cfg D σ s := by
  have hcurr (σ) : currOf cfg D σ s = if (cfg.type s).isLogic then logicCurr cfg D σ s
      else ⟨textVal cfg D σ s, .no⟩ := by
    rw [currOf, if_neg (by simp [hst]), if_neg hty]
  unfold calcCurr
  simp only [hcurr]
  by_cases hl : (cfg.type s).isLogic = true
  · simp only [if_pos hl]
    obtain ⟨hw, hk', ht⟩ := calcLogic_within sem call hst hty hl (h.setCurr .no) { hk with }
    have hg : cfg.symGetType (calcLogic cfg eval s (st.setCurr s .no)).2 s =
        knownType cfg D ρ s := by
      rw [Config.symGetType, hk'.visible, hw.can.good.modulesVal, knownType]
    rw [hg]
    refine selectMember_within sem call hst hty (hw.setCurr _) { hk' with }
      (State.setCurr_self _ _ _) fun σ hσ => ?_
    have hσ' := hw.agrees_of_setCurr hσ
    have hvis := hw.visSyms_eq hst hty hk' hσ'
    rw [newTri, ht σ hσ', knownType, knownType,
      visibleTri_congr fun x hx => hvis x (cfg.mem_visSyms_of_prompt hx)]
  · simp only [if_neg hl]
    obtain ⟨hw, hk', ht⟩ := calcText_within sem call hst hty (by simpa using hl)
      (h.setCurr .empty) { hk with }
    exact ⟨hw.setCurr _, { hk' with }, fun σ hσ => by
      rw [State.setCurr_self, ht σ (hw.agrees_of_setCurr hσ)]⟩

end Compute

/-! ## The whole computation of a symbol -/

section Whole
variable (sem : Semantics cfg D ρ) {n : ℕ} {s : Sym} {st₀ st : State}

theorem Known.weaken {Q : Set Sym} (h : Known cfg D ρ Q st s) (hQ : P ⊆ Q) :
    Known cfg D ρ P st s :=
  { h with closed := fun x hx => ⟨(h.closed x hx).1, fun hP => (h.closed x hx).2 (hQ hP)⟩ }

include sem

/-- `sym_calc_value` marks a symbol and clears `SYMBOL_WRITE`, unless it is a choice member. -/
theorem start_within (hty : cfg.type s ≠ .unknown) (hv : st₀.valid s = false)
    (h : Can cfg D ρ P (n + 1) st₀ [s]) :
    Within cfg D ρ P n s False st₀
      (if cfg.isChoiceValue s then st₀.setValid s else (st₀.setValid s).setWrite s false) := by
  have hev : s ∈ cfg.symbols ∧ ∀ p ∈ P, Dependency.Below cfg.uses p s :=
    (h.evaluable s (by simp)).resolve_left (by simp [hv])
  have hne {u : Sym} (hu : st₀.valid u = true) : u ≠ s := by rintro rfl; simp [hv] at hu
  obtain ⟨w, hw, hst⟩ : ∃ w : Sym → Bool,
      (∀ u, w u = true ↔ st₀.write u = true ∧ (u = s → cfg.isChoiceValue u = true)) ∧
      (if cfg.isChoiceValue s then st₀.setValid s else (st₀.setValid s).setWrite s false) =
        { st₀.setValid s with write := w } := by
    split_ifs with hc
    · exact ⟨st₀.write, fun u => by simp +contextual [hc], rfl⟩
    · refine ⟨_, fun u => ?_, rfl⟩
      by_cases hus : u = s <;> simp [State.setValid, hus, hc]
  rw [hst]
  have hmono {u : Sym} (hu : st₀.valid u = true) : (st₀.setValid s).valid u = true := by
    simpa [State.setValid, hne hu] using hu
  have hold {u : Sym} (hu : (st₀.setValid s).valid u = true) (hus : u ≠ s) :
      st₀.valid u = true := by
    simpa [State.setValid, hus] using hu
  have hinv {u : Sym} (hu : (st₀.setValid s).valid u = false) : st₀.valid u = false := by
    by_contra hc
    simp [hmono (by simpa using hc)] at hu
  refine ⟨⟨⟨fun u hu hP => ?_, fun u hu => hmono (h.good.static u hu),
    fun u hu => h.good.user u (hinv hu), fun u hu => h.good.isNew u (hinv hu), h.good.modulesVal,
    h.good.memberRev⟩, fun x hx => ?_, ?_⟩, fun x hx hP => ?_, ⟨∅, by simp, ?_⟩,
    h.good.user s hv, h.good.isNew s hv⟩
  · rw [Set.mem_insert_iff, not_or] at hP
    have hd := h.good.done u (hold hu hP.1) hP.2
    refine ⟨hd.curr, fun ht => { hd.known ht with closed := fun x hx => ?_ },
      fun σ hσ => hd.stable σ fun x hx hv hP => ?_⟩
    · have hc := (hd.known ht).closed x hx
      exact ⟨hmono hc.1, by simp [hne hc.1, hc.2]⟩
    · exact hσ x hx (hmono hv) (by simp [hne hv, hP])
  · rcases sem.table s x hx with hs | hs
    · exact .inl (hmono (h.good.static x hs))
    · refine .inr ⟨hs, fun p hp => ?_⟩
      rcases hp with rfl | hp
      · exact .of_mem hx
      · exact (hev.2 p hp).trans (.of_mem hx)
  · have hlt := remaining_setValid hev.1 hv
    have hfuel := h.fuel
    change remaining cfg (st₀.setValid s) ≤ n
    omega
  · rcases hP with rfl | hP
    · exact sem.acyclic x (Dependency.Below.of_mem hx)
    · exact sem.acyclic x ((hev.2 x hP).trans (.of_mem hx))
  · refine { Frame.refl st₀ with
      fresh := by simp [hv], table := by simpa using hev.1, valid := fun u => ?_,
      write := fun _ u => ?_ }
    · by_cases hus : u = s <;> simp [State.setValid, hus]
    · simp only [given_empty, and_false, Set.mem_union, Set.mem_ofPred_eq, Set.mem_empty_iff_false,
        or_false, Set.mem_insert_iff, hw]
      by_cases hus : u = s <;> simp [hus, hty]

/-- A choice gives `SYMBOL_WRITE` to its members, and the symbol is done. -/
theorem finish_within (hst : s.isStatic = false) (hty : cfg.type s ≠ .unknown)
    (h : Within cfg D ρ P n s (writes cfg D ρ s = true) st₀ st)
    (hk : Known cfg D ρ (insert s P) st s) (hcurr : st.curr s = ρ s)
    (hstable : ∀ σ, st.Agrees (cfg.uses s) σ → currOf cfg D σ s = ρ s) :
    Reads cfg D ρ P st₀ [s] (writeMembers cfg s (setModules s st)) := by
  obtain ⟨N, hsN, hf⟩ := h.frame
  have hmod : setModules s st = st := by
    unfold setModules
    split_ifs with hs
    · have htri : (st.curr s).tri = st.modulesVal := by
        rw [hcurr, hs, h.can.good.modulesVal]
        exact sem.modules (hs ▸ hty)
      rw [htri]
    · rfl
  have hmem {c u : Sym} (hu : u ∈ cfg.members c) := sem.members c u hu
  have hwr : cfg.FlatChoices → s.isChoice = true →
      (st.write s = true ↔ writes cfg D ρ s = true) := by
    intro hflat hs
    have hc := hflat s hs
    have hgiven : s ∉ given cfg D ρ N := fun hg =>
      (mem_or_of_given sem.members hg).elim hsN (by simp [hc])
    rw [hf.write hflat s]
    simp [hc, hty, hgiven]
  have hset : ∃ w : Sym → Bool, (cfg.FlatChoices → ∀ u, w u = true ↔ st.write u = true ∨
      s.isChoice = true ∧ writes cfg D ρ s = true ∧ u ∈ cfg.members s) ∧
      writeMembers cfg s st = { st with write := w } := by
    unfold writeMembers
    split_ifs with hs
    · refine ⟨_, fun hflat u => ?_, rfl⟩
      simp [hs.1, (hwr hflat hs.1).mp hs.2]
    · refine ⟨st.write, fun hflat u => ?_, rfl⟩
      constructor
      · exact .inl
      · rintro (hu | ⟨hs', hw', -⟩)
        · exact hu
        · exact absurd ⟨hs', (hwr hflat hs').mpr hw'⟩ hs
  obtain ⟨w, hw, hset⟩ := hset
  rw [hmod, hset]
  refine ⟨{ h.can.good with done := fun u hu hP => ?_ }, ⟨insert s N, ?_⟩, ?_⟩
  · by_cases hus : u = s
    · subst hus
      exact ⟨hcurr, fun _ => { hk.weaken (Set.subset_insert u P) with }, fun σ hσ =>
        hstable σ fun x hx hv => (hσ x hx hv fun hP => h.apart x hx (.inr hP)).trans
          (h.agrees x hx hv)⟩
    · have hd := h.can.good.done u hu (by simp [hus, hP])
      exact ⟨hd.curr, fun ht => { (hd.known ht).weaken (Set.subset_insert s P) with },
        fun σ hσ => hd.stable σ fun x hx hv hP => hσ x hx hv fun h => hP (.inr h)⟩
  · refine { hf with write := fun hflat u => ?_ }
    have hgiven : u ∈ given cfg D ρ (insert s N) ↔ u ∈ given cfg D ρ N ∨
        writes cfg D ρ s = true ∧ (u = s ∨ s.isChoice = true ∧ u ∈ cfg.members s) := by
      simp only [given, Set.mem_ofPred_eq, Set.exists_mem_insert, hty, ne_eq, not_false_eq_true,
        true_and]
      exact or_comm
    rw [hw hflat, hf.write hflat u, hgiven, Set.mem_union, Set.mem_ofPred_eq]
    constructor
    · rintro ((hold | hg | ⟨hus, hs⟩) | ⟨hs', hs, hu⟩)
      · exact .inl hold
      · exact .inr (.inl hg)
      · exact .inr (.inr ⟨hs, .inl hus⟩)
      · exact .inr (.inr ⟨hs, .inr ⟨hs', hu⟩⟩)
    · rintro (hold | hg | ⟨hs, hus | ⟨hs', hu⟩⟩)
      · exact .inl (.inl hold)
      · exact .inl (.inr (.inl hg))
      · exact .inl (.inr (.inr ⟨hus, hs⟩))
      · exact .inr ⟨hs', hs, hu⟩
  · simpa [State.Computed] using h.valid

/-- A symbol without a type gets its name as its value. -/
theorem calcUntyped_reads (hty : cfg.type s = .unknown) (hv : st₀.valid s = false)
    (hs : s ∈ cfg.symbols) (h : Good cfg D ρ P st₀) :
    Reads cfg D ρ P st₀ [s] ((st₀.setValid s).setCurr s
      ⟨match s.name? with | some n => .text n | none => .null, .no⟩) := by
  have hst : s.isStatic = false := by
    by_contra hs
    simp [h.static s (by simpa using hs)] at hv
  have hne {u : Sym} (hu : st₀.valid u = true) : u ≠ s := by rintro rfl; simp [hv] at hu
  have hmono {u : Sym} (hu : st₀.valid u = true) : (st₀.setValid s).valid u = true := by
    simpa [State.setValid, hne hu] using hu
  have hinv {u : Sym} (hu : (st₀.setValid s).valid u = false) : st₀.valid u = false := by
    by_contra hc
    simp [hmono (by simpa using hc)] at hu
  refine ⟨⟨fun u hu hP => ?_, fun u hu => hmono (h.static u hu),
    fun u hu => h.user u (hinv hu), fun u hu => h.isNew u (hinv hu), h.modulesVal,
    h.memberRev⟩, ⟨{s}, ?_⟩, ?_⟩
  · by_cases hus : u = s
    · subst hus
      have hcurr (σ) : currOf cfg D σ u =
          ⟨match u.name? with | some n => .text n | none => .null, .no⟩ :=
        (if_neg (by simp [hst])).trans (if_pos hty)
      refine ⟨?_, fun ht => absurd hty ht, fun σ _ => ?_⟩
      · rw [sem.solution u, hcurr, State.setCurr_self]
      · rw [hcurr, sem.solution u, hcurr]
    · have hu' : st₀.valid u = true := by simpa [State.setCurr, State.setValid, hus] using hu
      have hd := h.done u hu' hP
      refine ⟨?_, fun ht => { hd.known ht with closed := fun x hx => ?_ },
        fun σ hσ => hd.stable σ fun x hx hv => hσ x hx (hmono hv)⟩
      · rw [← hd.curr]; simp [State.setCurr, State.setValid, hus]
      · exact ⟨hmono ((hd.known ht).closed x hx).1, ((hd.known ht).closed x hx).2⟩
  · have hgiven : given cfg D ρ {s} = ∅ := by
      ext u
      simp [given, hty]
    rw [hgiven]
    refine { Frame.refl st₀ with
      fresh := by simp [hv], table := by simpa using hs, valid := fun u => ?_,
      curr := fun u hu => ?_, write := fun _ u => ?_ }
    · by_cases hus : u = s <;> simp [State.setCurr, State.setValid, hus]
    · simp [State.setCurr, State.setValid, hne hu]
    · by_cases hus : u = s <;> simp [State.setCurr, State.setValid, hus, hty]
  · simp [State.Computed, State.setCurr, State.setValid]

/-- `sym_calc_value` keeps the invariant and finds the value of the symbol. -/
theorem symCalcValueAux_contract (n : ℕ) : Contract cfg D ρ n (symCalcValueAux cfg n) := by
  induction n with
  | zero =>
    intro P st x h
    have hv : st.valid x = true := by
      have hzero := List.countP_eq_zero.mp (Nat.le_zero.mp h.fuel)
      rcases h.evaluable x (by simp) with hv | hx
      · exact hv
      · simpa using hzero x hx.1
    exact ⟨h.good, .refl st, by simpa [State.Computed, symCalcValueAux] using hv⟩
  | succ n ih =>
    intro P st x h
    unfold symCalcValueAux
    split_ifs with hv
    · exact ⟨h.good, .refl st, by simpa [State.Computed] using hv⟩
    replace hv : st.valid x = false := by simpa using hv
    have hst : x.isStatic = false := by
      by_contra hs
      simp [h.good.static x (by simpa using hs)] at hv
    unfold calcInvalid
    dsimp only
    by_cases hty : cfg.type x = .unknown
    · rw [if_pos hty]
      have hs := (h.evaluable x (by simp)).resolve_left (by simp [hv])
      exact calcUntyped_reads sem hty hv hs.1 h.good
    rw [if_neg hty]
    have hw := start_within sem hty hv h
    obtain ⟨hr, hs⟩ := symCalcVisibility_reads sem ih (fun _ => hty)
      (hw.can.mono fun y hy => mem_uses_of_visSyms hst hty hy)
    have hw' := hw.reads sem hr
    have hk := hw'.known hst hty hs hr.computed
    obtain ⟨hc, hkc, hcurr⟩ := calcCurr_within sem ih hst hty hw' hk
    have hρ := hcurr ρ hc.agrees
    rw [← sem.solution x] at hρ
    exact finish_within sem hst hty hc hkc hρ fun σ hσ => (hcurr σ hσ).symm.trans hρ

end Whole

end Grasshopper.Kconfig
