import Grasshopper.Kconfig.Menu.Conditions

/-! # What the final conditions are worth

For valuations without `m`, the final condition of a property is worth the conjunction of what is
written around it, and the reverse dependency of a symbol the maximum over its selectors.
-/

namespace Grasshopper.Kconfig

/-! ## Constants stay without a type -/

theorem menuSetType_of_ne {τ : Sym → SymType} {s x : Sym} (h : x ≠ s) (t : SymType) :
    menuSetType τ s t x = τ x := by
  unfold menuSetType
  split_ifs
  · exact Function.update_of_ne h _ _
  · rfl

theorem setTypes_of_ne {s x : Sym} (h : x ≠ s) (options : List ConfigOption)
    (τ : Sym → SymType) : setTypes s options τ x = τ x := by
  unfold setTypes
  generalize options.filterMap ConfigOption.type? = ts
  induction ts generalizing τ with
  | nil => rfl
  | cons t ts ih => rw [List.foldl_cons, ih, menuSetType_of_ne h]

theorem Block.types_const (b : Block) {s : Sym} (hs : s.isConst) (τ : Sym → SymType) :
    b.types τ s = τ s := by
  have hconfig (name : Name) : s ≠ .config name := by rintro rfl; simp [Sym.isConst] at hs
  have hchoice (k : ℕ) : s ≠ .choice k := by rintro rfl; simp [Sym.isConst] at hs
  induction b generalizing τ with
  | nil => rfl
  | config name menuconfig options next ih => rw [types, ih, setTypes_of_ne (hconfig name)]
  | comment text deps next ih => exact ih τ
  | menu text deps body next ihb ihn => rw [types, ihn, ihb]
  | cond dep body next ihb ihn => rw [types, ihn, ihb]
  | choice k options body next ihb ihn => rw [types, ihn, ihb, setTypes_of_ne (hchoice k)]

theorem firstSymbol_mem {m : Menus} {s : Sym} (h : firstSymbol m = some s) :
    ∃ e ∈ m.preorder, e.sym = some s := by
  induction m with
  | nil => simp [firstSymbol] at h
  | node e l n ihl ihn =>
    cases he : e.sym with
    | some x =>
      exact ⟨e, by simp, by simpa [firstSymbol, he] using h⟩
    | none =>
      obtain ⟨x, hx, hs⟩ := ihn (by simpa [firstSymbol, he] using h)
      exact ⟨x, by simp [hx], hs⟩

theorem finalizeRule_const (t : ParsedTree) {s : Sym} (hs : s.isConst) :
    FinalizeRule (Γ := Unit) t.optional (fun _ => True)
      (fun _ e => ∀ x, e.sym = some x → x.isConst = false) (fun _ _ => ()) (fun _ _ => True)
      (fun _ e e' => e'.sym = e.sym) (fun σ => σ.type s = .unknown) (fun _ _ => True) where
  choiceType _ := trivial
  entry _ := trivial
  choiceValue _ := trivial
  revDep _ := trivial
  final _ _ _ h := ⟨rfl, by rw [finalizeEntry_type]; exact h⟩
  below _ _ := trivial
  setType {_ e e' σ l} hv he hl hU := by
    have hne {x : Sym} (hx : x.isConst = false) : s ≠ x := by rintro rfl; simp [hs] at hx
    unfold setChoiceType
    split
    · rename_i x m hx hm
      obtain ⟨y, hy, hym⟩ := firstSymbol_mem hm
      have hmc : m.isConst = false := by
        rw [← l.map_contexts (fun _ _ => ()) ()] at hy
        obtain ⟨z, hz, rfl⟩ := List.mem_map.mp hy
        exact hl z hz m hym
      dsimp only
      split_ifs
      · exact (menuSetType_of_ne (hne hmc) _).trans
          ((menuSetType_of_ne (hne (hv x (he ▸ hx))) _).trans hU)
      · exact hU
    · exact hU
  addValue {_ e e' _ x x' σ} _ _ hx hxx _ hU := by
    unfold addChoiceValue
    split
    · rename_i y m _ hm
      split_ifs
      · refine (menuSetType_of_ne ?_ _).trans hU
        rintro rfl
        simp [hx _ (hxx ▸ hm)] at hs
      · exact hU
    · exact hU
  addRevDep _ _ hU := by rw [addChoiceRevDep_type]; exact hU
  under _ _ _ _ _ := trivial
  nest _ _ _ _ _ _ _ := trivial

/-- No constant ever gets a type. -/
theorem ParsedTree.type_const (t : ParsedTree) {s : Sym} (hs : s.isConst) :
    t.config.type s = .unknown := by
  refine ((finalizeRule_const t hs).finalized (γ := ()) trivial (fun x hx => ?_) trivial ?_).2
  · exact t.block.entry_sym menuCheckDep _ (Menus.mem_preorder_of_contexts hx)
  · have h := t.block.types_const hs initialTypes
    refine h.trans ?_
    unfold initialTypes
    cases s <;> simp_all [Sym.isConst, versionSym, targetArchSym]

/-! ## Valuations -/

/-- A valuation as `sym_calc_value` leaves it when nothing is `m`: constants have the value of
their text, bool and tristate symbols are `n` or `y`, and other symbols have no tristate. -/
structure Valuation (type : Sym → SymType) (ρ : Sym → SymbolValue) : Prop
    extends Standard type ρ where
  logic : ∀ s, (type s).isLogic → (ρ s).tri ≠ .mod
  other : ∀ s, (type s).isLogic = false → s.isStatic = false → (ρ s).tri = .no

/-- The value of a list of conditions that all have to hold. -/
def allValue (type : Sym → SymType) (ρ : Sym → SymbolValue) (cs : List Expr) : Tristate :=
  cs.foldr (fun c a => min (c.value type ρ) a) .yes

/-- The largest of some values, `n` if there are none. -/
def maxValue (vs : List Tristate) : Tristate := vs.foldr max .no

/-- The value of a reverse dependency; a symbol without one is not selected. -/
def revValue (type : Sym → SymType) (ρ : Sym → SymbolValue) : Option Expr → Tristate
  | none => .no
  | some e => e.value type ρ

section Values
variable {type : Sym → SymType} {ρ : Sym → SymbolValue}

@[simp] theorem allValue_nil : allValue type ρ [] = .yes := rfl
@[simp] theorem allValue_cons (c : Expr) (cs : List Expr) :
    allValue type ρ (c :: cs) = min (c.value type ρ) (allValue type ρ cs) := rfl

theorem allValue_append (cs cs' : List Expr) :
    allValue type ρ (cs ++ cs') = min (allValue type ρ cs) (allValue type ρ cs') := by
  induction cs with
  | nil => simp
  | cons c cs ih => simp only [List.cons_append, allValue_cons, ih, min_assoc]

theorem allValue_toList (d : Option Expr) : allValue type ρ d.toList = optValue type ρ d := by
  cases d <;> simp

theorem allValue_ne_no (cs : List Expr) :
    allValue type ρ cs ≠ .no ↔ ∀ c ∈ cs, c.value type ρ ≠ .no := by
  induction cs with
  | nil => simp
  | cons c cs ih => rw [allValue_cons, Tristate.min_ne_no, ih, List.forall_mem_cons]

@[simp] theorem maxValue_nil : maxValue [] = .no := rfl
@[simp] theorem maxValue_cons (v : Tristate) (vs : List Tristate) :
    maxValue (v :: vs) = max v (maxValue vs) := rfl

theorem le_maxValue {vs : List Tristate} {v : Tristate} (h : v ∈ vs) : v ≤ maxValue vs := by
  induction vs with
  | nil => simp at h
  | cons w vs ih =>
    rcases List.mem_cons.mp h with rfl | h
    · exact le_max_left _ _
    · exact (ih h).trans (le_max_right _ _)

theorem maxValue_le {vs : List Tristate} {v : Tristate} (h : ∀ w ∈ vs, w ≤ v) :
    maxValue vs ≤ v := by
  induction vs with
  | nil => exact Tristate.no_le v
  | cons w vs ih =>
    rw [List.forall_mem_cons] at h
    exact max_le h.1 (ih h.2)

@[simp] theorem revValue_none : revValue type ρ none = .no := rfl

theorem revValue_allocOr (a b : Option Expr) :
    revValue type ρ (exprAllocOr a b) = max (revValue type ρ a) (revValue type ρ b) := by
  cases a <;> cases b <;> simp [exprAllocOr, revValue, Expr.value]

theorem revValue_allocAnd (s : Sym) (v : Option Expr) :
    revValue type ρ (exprAllocAnd (some (.symbol s)) v) = min (ρ s).tri (optValue type ρ v) := by
  cases v <;> simp [exprAllocAnd, revValue, Expr.value]

namespace Valuation
variable (h : Valuation type ρ)
include h

theorem ne_mod {s : Sym} (hs : s ≠ .mod) : (ρ s).tri ≠ .mod := by
  by_cases hl : (type s).isLogic
  · exact h.logic s hl
  · by_cases hst : s.isStatic
    · cases s <;> simp_all [Sym.isStatic, h.yes, h.no]
    · simp [h.other s (by simpa using hl) (by simpa using hst)]

theorem twoValued : TwoValued type ρ := h.logic

theorem crisp {e : Expr} (he : e.Plain) : Crisp ρ e := by
  induction e with
  | symbol s => exact h.ne_mod he
  | not e ih => exact ih he
  | and l r ihl ihr | or l r ihl ihr => exact ⟨ihl he.1, ihr he.2⟩
  | equal a b | unequal a b => trivial

end Valuation
end Values

/-! ## The conditions around an entry -/

/-- The conditions that are written around the entries under an entry: a choice stands for
everything around it. The prompt of a menu has no condition of its own. -/
def inherited (conds : List Expr) (e : Entry) : List Expr :=
  match e.sym with
  | some (.choice k) => [.symbol (.choice k)]
  | _ => conds ++ e.dep.toList ++ (e.prompt.bind (·.visible)).toList

/-- What a property contributes to the reverse dependency of `T`, if it selects `T`: its
condition is worth `v`. -/
def selectValue (ρ : Sym → SymbolValue) (T : Sym) (sym : Option Sym) (p : Property)
    (v : Tristate) : Tristate :=
  match sym with
  | some s => if p.type = .select ∧ p.getSymbol = some T then min (ρ s).tri v else .no
  | none => .no

/-- All conditions of a property: those around its entry, the entry's, and its own. -/
def propertyConds (conds : List Expr) (e : Entry) (p : Property) : List Expr :=
  conds ++ e.dep.toList ++ p.visible.toList

section Conditions
variable (type : Sym → SymType) (ρ : Sym → SymbolValue)

/-- The largest of what the properties of an entry contribute to `T`. -/
def entrySelects (T : Sym) (x : List Expr × Entry) : Tristate :=
  maxValue (x.2.props.map fun p =>
    selectValue ρ T x.2.sym p (allValue type ρ (propertyConds x.1 x.2 p)))

/-- A final property has the written one's fields, and its condition is worth `v`. -/
structure FinalProperty (v : Tristate) (p p' : Property) : Prop where
  same : p' = { p with visible := p'.visible }
  value : optValue type ρ p'.visible = v
  crisp : ∀ e ∈ p'.visible, Crisp ρ e

/-- A final entry has the written one's properties, with the conditions around the entry. -/
structure FinalEntry (conds : List Expr) (e e' : Entry) : Prop where
  sym : e'.sym = e.sym
  dep : optValue type ρ e'.dep = allValue type ρ (conds ++ e.dep.toList)
  crisp : ∀ d ∈ e'.dep, Crisp ρ d
  props : List.Forall₂
    (fun p p' => FinalProperty type ρ (allValue type ρ (propertyConds conds e p)) p p')
    e.props e'.props

end Conditions

section Rule
variable {type τ : Sym → SymType} {ρ : Sym → SymbolValue}

theorem optCrisp_allocAnd {d v : Option Expr} (hd : ∀ e ∈ d, Crisp ρ e) (hv : ∀ e ∈ v, Crisp ρ e) :
    ∀ e ∈ exprAllocAnd d v, Crisp ρ e := by
  cases d <;> cases v <;> simp_all [exprAllocAnd, Crisp]

/-- One condition joined to the inherited one and simplified. -/
theorem eliminated_value (h : Valuation type ρ) (hτ : TypesGrow τ type) {d v : Option Expr}
    (hd : ∀ e ∈ d, Crisp ρ e) (hv : ∀ e ∈ v, e.Plain) :
    optValue type ρ ((exprAllocAnd d (v.map (exprTransform τ))).map (exprEliminateDups τ)) =
        min (optValue type ρ d) (optValue type ρ v) ∧
      ∀ e ∈ (exprAllocAnd d (v.map (exprTransform τ))).map (exprEliminateDups τ), Crisp ρ e := by
  have hb := h.twoValued.booleans
  have htr : optValue type ρ (v.map (exprTransform τ)) = optValue type ρ v := by
    cases v with
    | none => rfl
    | some e => exact exprTransform_value h.toStandard hτ hb e
  have hcr : ∀ e ∈ v.map (exprTransform τ), Crisp ρ e := by
    cases v with
    | none => simp
    | some e =>
      simp only [Option.map_some, Option.mem_def, Option.some.injEq, forall_eq']
      exact exprTransform_crisp h.toStandard hτ hb e (h.crisp (hv e rfl))
  have hand := optCrisp_allocAnd hd hcr
  rw [← htr, ← optValue_allocAnd]
  generalize exprAllocAnd d (v.map (exprTransform τ)) = w at hand ⊢
  cases w with
  | none => simp
  | some e =>
    simp only [Option.map_some, optValue_some, Option.mem_def, Option.some.injEq, forall_eq']
    exact ⟨exprEliminateDups_value h.toStandard hτ hb e (hand e rfl),
      (h.toStandard.hereditary_crisp τ).eliminateDups e (hand e rfl)⟩

theorem finalizeVisible_value (h : Valuation type ρ) (hτ : TypesGrow τ type) (sym : Option Sym)
    {d v : Option Expr} (hd : ∀ e ∈ d, Crisp ρ e) (hv : ∀ e ∈ v, e.Plain) :
    optValue type ρ (finalizeVisible τ sym d v) = min (optValue type ρ d) (optValue type ρ v) ∧
      ∀ e ∈ finalizeVisible τ sym d v, Crisp ρ e := by
  have hel := eliminated_value h hτ hd hv
  have hbool {w : Option Expr} {a : Tristate}
      (hw : optValue type ρ w = a ∧ ∀ e ∈ w, Crisp ρ e) :
      optValue type ρ (w.map (exprTransBool τ)) = a ∧
        ∀ e ∈ w.map (exprTransBool τ), Crisp ρ e := by
    cases w with
    | none => exact hw
    | some e =>
      simp only [Option.map_some, optValue_some, Option.mem_def, Option.some.injEq,
        forall_eq'] at hw ⊢
      exact ⟨(exprTransBool_value h.toStandard hτ h.twoValued e).trans hw.1,
        exprTransBool_crisp hτ h.twoValued e hw.2⟩
  unfold finalizeVisible
  cases sym with
  | none => exact hel
  | some s =>
    dsimp only
    split_ifs
    · exact hbool hel
    · exact hel

/-- The final entry of a written one, whatever the types were when it was computed. -/
theorem finalizeEntry_final (h : Valuation type ρ) {σ : FinState} (hτ : TypesGrow σ.type type)
    {conds : List Expr} {d : Option Expr} {e : Entry}
    (hd : optValue type ρ d = allValue type ρ conds) (hdc : ∀ x ∈ d, Crisp ρ x)
    (he : e.Plain) : FinalEntry type ρ conds e (finalizeEntry d e σ).1 := by
  have hdep := eliminated_value h hτ hdc he.1
  refine ⟨rfl, ?_, hdep.2, ?_⟩
  · rw [allValue_append, allValue_toList, ← hd]
    exact hdep.1
  · refine List.forall₂_map_right_iff.mpr (List.forall₂_same.mpr fun p hp => ?_)
    have hvis := finalizeVisible_value h hτ e.sym hdep.2 (he.2 p hp)
    refine ⟨rfl, ?_, hvis.2⟩
    rw [propertyConds, allValue_append, allValue_append, allValue_toList, allValue_toList, ← hd,
      ← hdep.1]
    exact hvis.1

/-- The prompt of a final entry is that of the written entry. -/
theorem FinalEntry.prompt {conds : List Expr} {e e' : Entry}
    (he : FinalEntry type ρ conds e e') :
    Option.Rel (fun p p' =>
      FinalProperty type ρ (allValue type ρ (propertyConds conds e p)) p p') e.prompt e'.prompt := by
  have main {ps ps' : List Property} (h : List.Forall₂ (fun p p' =>
      FinalProperty type ρ (allValue type ρ (propertyConds conds e p)) p p') ps ps') :
      Option.Rel (fun p p' =>
        FinalProperty type ρ (allValue type ρ (propertyConds conds e p)) p p')
        (ps.filter (·.text.isSome)).getLast? (ps'.filter (·.text.isSome)).getLast? := by
    rw [← List.head?_reverse, ← List.head?_reverse, ← List.filter_reverse, ← List.filter_reverse]
    have hrev := List.rel_reverse h
    generalize ps.reverse = qs at hrev
    generalize ps'.reverse = qs' at hrev
    induction hrev with
    | nil => exact .none
    | @cons p p' qs qs' hp _ ih =>
      have htext : p'.text = p.text := by rw [hp.same]
      by_cases ht : p.text.isSome
      · simp only [List.filter_cons, htext, ht, if_true, List.head?_cons]
        exact .some hp
      · simp only [List.filter_cons, htext, ht, if_false, Bool.false_eq_true]
        exact ih
  exact main he.props

/-- What the entries under a final one inherit. -/
theorem FinalEntry.parentDep (h : Valuation type ρ) {conds : List Expr} {e e' : Entry}
    (he : FinalEntry type ρ conds e e') :
    optValue type ρ (parentDep e') = allValue type ρ (inherited conds e) ∧
      ∀ d ∈ parentDep e', Crisp ρ d := by
  have hcond : optValue type ρ e'.condition =
        allValue type ρ (conds ++ e.dep.toList ++ (e.prompt.bind (·.visible)).toList) ∧
      ∀ d ∈ e'.condition, Crisp ρ d := by
    have hp := he.prompt
    unfold Entry.condition
    cases hpr : e.prompt with
    | none =>
      rw [hpr] at hp
      generalize e'.prompt = o at hp
      cases hp with
      | none => simpa using ⟨he.dep, he.crisp⟩
    | some p =>
      rw [hpr] at hp
      generalize e'.prompt = o at hp
      cases hp with
      | some hpp => exact ⟨hpp.value, hpp.crisp⟩
  unfold Grasshopper.Kconfig.parentDep inherited
  rw [he.sym]
  cases hs : e.sym with
  | none => exact hcond
  | some s =>
    cases s with
    | choice k =>
      simp only [Sym.isChoice, if_true, optValue_some, allValue_cons, allValue_nil,
        Tristate.min_yes_right, Option.mem_def, Option.some.injEq, forall_eq', true_and]
      exact h.ne_mod (by simp)
    | yes => exact hcond
    | mod => exact hcond
    | no => exact hcond
    | config n => exact hcond
    | const n => exact hcond

end Rule

/-! ## Reverse dependencies -/

section RevDep
variable {type : Sym → SymType} {ρ : Sym → SymbolValue}

theorem addSelect_value (T : Sym) (sym : Option Sym) (σ : FinState) (p : Property) :
    revValue type ρ ((addSelect sym σ p).revDep T) =
      max (revValue type ρ (σ.revDep T)) (selectValue ρ T sym p (optValue type ρ p.visible)) := by
  unfold addSelect selectValue
  split
  · rename_i es s hp hes
    by_cases hT : T = es
    · subst hT
      simp [hp, hes, FinState.addRevDep, revValue_allocOr, revValue_allocAnd]
    · have hne : ¬(some es = some T) := fun h => hT (Option.some_inj.mp h).symm
      simp [FinState.addRevDep, Function.update_of_ne hT, hes, hne]
  · rename_i hno
    split
    swap
    · simp
    · rename_i s
      have : ¬(p.type = .select ∧ p.getSymbol = some T) := fun h => hno T s h.1 h.2 rfl
      simp [this]

theorem foldl_addSelect_value (T : Sym) (sym : Option Sym) (ps : List Property) (σ : FinState) :
    revValue type ρ ((ps.foldl (addSelect sym) σ).revDep T) =
      max (revValue type ρ (σ.revDep T))
        (maxValue (ps.map fun p => selectValue ρ T sym p (optValue type ρ p.visible))) := by
  induction ps generalizing σ with
  | nil => simp
  | cons p ps ih =>
    rw [List.foldl_cons, ih, addSelect_value, List.map_cons, maxValue_cons, max_assoc]

/-- The final properties of an entry contribute what the written ones are worth. -/
theorem FinalEntry.selects {conds : List Expr} {e e' : Entry} (he : FinalEntry type ρ conds e e')
    (T : Sym) :
    maxValue (e'.props.map fun p => selectValue ρ T e'.sym p (optValue type ρ p.visible)) =
      entrySelects type ρ T (conds, e) := by
  have main {ps ps' : List Property} (h : List.Forall₂ (fun p p' =>
      FinalProperty type ρ (allValue type ρ (propertyConds conds e p)) p p') ps ps') :
      (ps'.map fun p => selectValue ρ T e'.sym p (optValue type ρ p.visible)) =
        ps.map fun p => selectValue ρ T e.sym p (allValue type ρ (propertyConds conds e p)) := by
    induction h with
    | nil => rfl
    | cons hp _ ih =>
      rw [List.map_cons, List.map_cons, ih, hp.value, he.sym, hp.same]
      rfl
  rw [main he.props]
  rfl

theorem addChoiceRevDep_revDep (optional : ℕ → Bool) (e : Entry) (σ : FinState) {T : Sym}
    (hT : T.isChoice = false) : (addChoiceRevDep optional e σ).revDep T = σ.revDep T := by
  unfold addChoiceRevDep
  split
  · split_ifs
    · rfl
    · refine Function.update_of_ne ?_ _ _
      rintro rfl
      simp [Sym.isChoice] at hT
  · rfl

@[simp] theorem setChoiceType_revDep (sym : Option Sym) (l : Menus) (σ : FinState) :
    (setChoiceType sym l σ).revDep = σ.revDep := by
  unfold setChoiceType
  split
  · dsimp only
    split_ifs <;> rfl
  · rfl

@[simp] theorem addChoiceValue_revDep (sym : Option Sym) (e : Entry) (σ : FinState) :
    (addChoiceValue sym e σ).revDep = σ.revDep := by
  unfold addChoiceValue
  split
  · split_ifs <;> rfl
  · rfl

/-- The reverse dependencies of named symbols only grow. -/
theorem backward_revDep (optional : ℕ → Bool) (type : Sym → SymType) (ρ : Sym → SymbolValue)
    (T : Sym) (hT : T.isChoice = false) (v : Tristate) :
    Backward optional fun σ => revValue type ρ (σ.revDep T) ≤ v where
  choiceType h := by simpa using h
  entry {d e σ} h := by
    refine le_trans ?_ h
    simp only [finalizeEntry]
    rw [foldl_addSelect_value]
    exact le_max_left _ _
  choiceValue h := by simpa using h
  revDep h := by rwa [addChoiceRevDep_revDep _ _ _ hT] at h

end RevDep

/-! ## The whole tree -/

/-- The parsed entries with the conditions around them. -/
def ParsedTree.conditions (t : ParsedTree) : List (List Expr × Entry) :=
  t.block.menus.contexts inherited []

/-- The final entry of a parsed one, where its selects are counted. -/
structure CountedEntry (t : ParsedTree) (ρ : Sym → SymbolValue) (conds : List Expr)
    (e e' : Entry) : Prop extends FinalEntry t.config.type ρ conds e e' where
  counted : ∀ T, T.isChoice = false →
    entrySelects t.config.type ρ T (conds, e) ≤ revValue t.config.type ρ (t.config.revDep T)

theorem finalizeRule_conditions (t : ParsedTree) {ρ : Sym → SymbolValue}
    (h : Valuation t.config.type ρ) (hplain : ∀ e ∈ t.block.menus.preorder, e.Plain) :
    FinalizeRule t.optional
      (fun σ => TypesGrow σ.type t.config.type ∧ ∀ T, T.isChoice = false →
        revValue t.config.type ρ (σ.revDep T) ≤
          revValue t.config.type ρ (t.config.revDep T))
      (fun conds e => (conds, e) ∈ t.conditions) inherited
      (fun conds d => optValue t.config.type ρ d = allValue t.config.type ρ conds ∧
        ∀ x ∈ d, Crisp ρ x)
      (CountedEntry t ρ)
      (fun σ => ∀ T, T.isChoice = false → revValue t.config.type ρ (σ.revDep T) ≤
        maxValue (t.conditions.map (entrySelects t.config.type ρ T)))
      (fun _ _ => True) where
  choiceType hV := ⟨(backward_typesGrow t.optional _).choiceType hV.1, fun T hT =>
    (backward_revDep t.optional _ ρ T hT _).choiceType (hV.2 T hT)⟩
  entry hV := ⟨(backward_typesGrow t.optional _).entry hV.1, fun T hT =>
    (backward_revDep t.optional _ ρ T hT _).entry (hV.2 T hT)⟩
  choiceValue hV := ⟨(backward_typesGrow t.optional _).choiceValue hV.1, fun T hT =>
    (backward_revDep t.optional _ ρ T hT _).choiceValue (hV.2 T hT)⟩
  revDep hV := ⟨(backward_typesGrow t.optional _).revDep hV.1, fun T hT =>
    (backward_revDep t.optional _ ρ T hT _).revDep (hV.2 T hT)⟩
  final {conds d e σ} hv hd hV hU := by
    have hτ : TypesGrow σ.type t.config.type := by
      have := hV.1
      rwa [finalizeEntry_type] at this
    have he := finalizeEntry_final h hτ hd.1 hd.2
      (hplain e (Menus.mem_preorder_of_contexts hv))
    have hsel (T : Sym) : revValue t.config.type ρ ((finalizeEntry d e σ).2.revDep T) =
        max (revValue t.config.type ρ (σ.revDep T))
          (entrySelects t.config.type ρ T (conds, e)) := by
      rw [← he.selects T]
      exact foldl_addSelect_value T e.sym _ σ
    refine ⟨⟨he, fun T hT => ?_⟩, fun T hT => ?_⟩
    · exact (le_max_right _ _).trans ((hsel T).symm.le.trans (hV.2 T hT))
    · rw [hsel T]
      exact max_le (hU T hT) (le_maxValue (List.mem_map_of_mem hv))
  below _ he := he.toFinalEntry.parentDep h
  setType _ _ _ hU := by simpa using hU
  addValue _ _ _ _ _ hU := by simpa using hU
  addRevDep _ _ hU T hT := by rw [addChoiceRevDep_revDep _ _ _ hT]; exact hU T hT
  under _ _ _ _ _ := trivial
  nest _ _ _ _ _ _ _ := trivial

/-- The final conditions of every entry, and the reverse dependency of every named symbol. -/
theorem finalized_conditions (t : ParsedTree) {ρ : Sym → SymbolValue}
    (h : Valuation t.config.type ρ) (hplain : ∀ e ∈ t.block.menus.preorder, e.Plain) :
    List.Forall₂ (fun x e' => FinalEntry t.config.type ρ x.1 x.2 e') t.conditions
        t.config.menus.preorder ∧
      ∀ T, T.isChoice = false → revValue t.config.type ρ (t.config.revDep T) =
        maxValue (t.conditions.map (entrySelects t.config.type ρ T)) := by
  obtain ⟨hfin, hU⟩ := (finalizeRule_conditions t h hplain).finalized (γ := [])
    ⟨rfl, by simp⟩ (fun x hx => hx) ⟨.refl _, fun _ _ => le_rfl⟩ (fun T _ => Tristate.no_le _)
  refine ⟨hfin.entries.imp fun x e' he => he.toFinalEntry, fun T hT => ?_⟩
  refine le_antisymm (hU T hT) (maxValue_le fun v hv => ?_)
  obtain ⟨x, hx, rfl⟩ := List.mem_map.mp hv
  have main {es : List (List Expr × Entry)} {l : List Entry}
      (hl : List.Forall₂ (fun x e' => CountedEntry t ρ x.1 x.2 e') es l) (hx : x ∈ es) :
      ∃ e', CountedEntry t ρ x.1 x.2 e' := by
    induction hl with
    | nil => simp at hx
    | cons hy _ ih =>
      rcases List.mem_cons.mp hx with rfl | hx
      · exact ⟨_, hy⟩
      · exact ih hx
  obtain ⟨e', he'⟩ := main hfin.entries hx
  exact he'.counted T hT

/-- `menu_finalize` computes inherited dependencies faithfully: a property applies exactly when
all conditions written around it hold, out to the nearest choice, and a symbol is selected as
much as the selects that name it say. -/
theorem menuFinalize_faithful (t : ParsedTree)
    (hplain : ∀ e ∈ t.block.written.preorder, e.Plain) (ρ : Sym → SymbolValue)
    (h : Valuation t.config.type ρ) :
    List.Forall₂ (fun x e' => e'.sym = x.2.sym ∧
      List.Forall₂ (fun p p' => p' = { p with visible := p'.visible } ∧
        (optValue t.config.type ρ p'.visible ≠ .no ↔
          ∀ c ∈ propertyConds x.1 x.2 p, c.value t.config.type ρ ≠ .no)) x.2.props e'.props)
      (t.block.written.contexts inherited []) t.config.menus.preorder ∧
    ∀ T, T.isChoice = false → revValue t.config.type ρ (t.config.revDep T) =
      maxValue ((t.block.written.contexts inherited []).map (entrySelects t.config.type ρ T)) := by
  have hmenus := Block.menus_of_plain hplain
  have hfin := finalized_conditions t h (hmenus ▸ hplain)
  rw [ParsedTree.conditions, hmenus] at hfin
  refine ⟨hfin.1.imp fun x e' he => ⟨he.sym, ?_⟩, hfin.2⟩
  refine he.props.imp fun p p' hp => ⟨hp.same, ?_⟩
  rw [hp.value, allValue_ne_no]

section Example

/-- A valuation in which the bool and tristate symbols of a list are `y`. -/
def ParsedTree.valuation (t : ParsedTree) (on : List Sym) (s : Sym) : SymbolValue :=
  match s with
  | .yes => ⟨.text ['y'], .yes⟩
  | .mod => ⟨.text ['m'], .mod⟩
  | .no => .no
  | .const n => ⟨.text n.text, .no⟩
  | s => if (t.config.type s).isLogic ∧ s ∈ on then ⟨.text ['n'], .yes⟩ else .no

theorem ParsedTree.valuation_spec (t : ParsedTree) (on : List Sym) :
    Valuation t.config.type (t.valuation on) := by
  have hconst (s : Sym) (hs : s.isConst) : t.config.type s = .unknown := t.type_const hs
  have hy := hconst .yes rfl
  have hm := hconst .mod rfl
  have hn := hconst .no rfl
  refine ⟨⟨rfl, rfl, rfl, ?_, ?_, ?_, fun n => ?_⟩, fun s hs => ?_, fun s hs hst => ?_⟩
  · simp [symGetStringValue, hy, SymType.isLogic, valuation, Val.toText]
  · simp [symGetStringValue, hm, SymType.isLogic, valuation, Val.toText]
  · simp [symGetStringValue, hn, SymType.isLogic, valuation, Val.toText, SymbolValue.no]
  · simp [symGetStringValue, hconst (.const n) rfl, SymType.isLogic, valuation, Val.toText]
  · cases s with
    | mod => simp [hm, SymType.isLogic] at hs
    | yes | no | const n => simp [valuation, SymbolValue.no]
    | config n | choice k => simp only [valuation]; split_ifs <;> simp [SymbolValue.no]
  · cases s <;> simp_all [valuation, Sym.isStatic, SymbolValue.no]

def symA : Sym := .config nameA
def symB : Sym := .config nameB

/-- An option, and under a condition on it another one that selects it. -/
def selectTree : ParsedTree where
  block := .config nameA false [.type .boolean (some (['a'], none))]
    (.cond (.unequal symA .no)
      (.config nameB false
        [.type .tristate (some (['b'], some (.symbol symA))), .select symA (some (.symbol symB))]
        .nil) .nil)
  choices_nodup := by decide
  named := by decide

theorem menuFinalize_faithful_selectTree :
    List.Forall₂ (fun x e' => e'.sym = x.2.sym ∧
      List.Forall₂ (fun p p' => p' = { p with visible := p'.visible } ∧
        (optValue selectTree.config.type (selectTree.valuation [symA]) p'.visible ≠ .no ↔
          ∀ c ∈ propertyConds x.1 x.2 p,
            c.value selectTree.config.type (selectTree.valuation [symA]) ≠ .no))
        x.2.props e'.props)
      (selectTree.block.written.contexts inherited []) selectTree.config.menus.preorder ∧
    ∀ T, T.isChoice = false →
      revValue selectTree.config.type (selectTree.valuation [symA]) (selectTree.config.revDep T) =
        maxValue ((selectTree.block.written.contexts inherited []).map
          (entrySelects selectTree.config.type (selectTree.valuation [symA]) T)) :=
  menuFinalize_faithful selectTree
    (by simp [selectTree, Block.written, Block.menusWith, configEntry, condEntry, ConfigOption.add,
      menuAddProp, menuAddDep, exprAllocAnd, Entry.Plain, Expr.Plain, symA, symB])
    _ (selectTree.valuation_spec [symA])

end Example

end Grasshopper.Kconfig
