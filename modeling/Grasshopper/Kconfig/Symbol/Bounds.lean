import Grasshopper.Kconfig.Confdata.Session

/-! # Dependencies bound a symbol from above, and selects from below

Without modules, a bool or tristate option is at least what selects it, and at most that or what the
conditions around its entries allow. This is about the conditions as they are written:
`menu_finalize` has put them into prompts, defaults and reverse dependencies.
-/

namespace Grasshopper.Kconfig

/-! ## Types from `sym_init` -/

theorem setTypes_grows (s : Sym) (options : List ConfigOption) (τ : Sym → SymType) :
    TypesGrow τ (setTypes s options τ) := by
  unfold setTypes
  generalize options.filterMap ConfigOption.type? = ts
  induction ts generalizing τ with
  | nil => exact .refl τ
  | cons t ts ih => exact (menuSetType_grows τ s t).trans (ih _)

theorem Block.types_grows (b : Block) (τ : Sym → SymType) : TypesGrow τ (b.types τ) := by
  induction b generalizing τ with
  | nil => exact .refl τ
  | config name menuconfig options next ih => exact (setTypes_grows _ _ _).trans (ih _)
  | comment text deps next ih => exact ih τ
  | menu text deps body next ihb ihn | cond dep body next ihb ihn => exact (ihb τ).trans (ihn _)
  | choice k options body next ihb ihn =>
    exact ((setTypes_grows _ _ _).trans (ihb _)).trans (ihn _)

namespace ParsedTree
variable (t : ParsedTree)

theorem types_grow : TypesGrow initialTypes t.config.type := by
  have back := backward_typesGrow t.optional t.config.type
  have hlist : TypesGrow (finalizeList t.optional (2 * t.block.menus.size)
      (finalizeEntries none t.block.menus t.initial).1
      (finalizeEntries none t.block.menus t.initial).2).2.type t.config.type :=
    back.lift (.refl t.config.type)
  exact (t.block.types_grows initialTypes).trans (back.entries (back.list hlist))

/-- The symbols that `sym_init` gives a default are strings. -/
theorem props_of_isLogic {s : Sym} (hl : (t.config.type s).isLogic = true) :
    t.config.props s = (t.config.menus.preorder.filter (·.sym = some s)).flatMap (·.props) := by
  have hne {x : Sym} (hx : initialTypes x = .string) : s ≠ x := by
    rintro rfl
    have hgrow := t.types_grow s (by simp [hx])
    rw [hgrow, hx] at hl
    cases hl
  change t.props s = _
  rw [props, if_neg (hne rfl), if_neg (hne (by decide))]
  rfl

end ParsedTree

/-! ## The values of a solution -/

/-- Without modules nothing but `m` is `m`. -/
theorem ParsedTree.valuation_of_solution (t : ParsedTree) {D : UserData} {ρ : Sym → SymbolValue}
    (hmod : D.modulesVal = .no) (hρ : Dependency.Solution (currOf t.config D) ρ) :
    Valuation t.config.type ρ where
  toStandard := t.standard_of_solution hρ
  logic s hl := by
    have hty : t.config.type s ≠ .unknown := fun hu => by simp [hu, SymType.isLogic] at hl
    have hst := t.symbols_not_static s (mem_symbols_of_typed (t.linked.typed s hty) hty)
    rw [hρ s, currOf_dynamic hst hty, if_pos hl, logicCurr]
    split_ifs
    · cases selected t.config D ρ s <;> simp
    · exact newTri_ne_mod hmod hl
  other s hl hst := by
    by_cases hty : t.config.type s = .unknown
    · rw [hρ s, currOf, if_neg (by simp [hst]), if_pos hty]
    · rw [hρ s, currOf_dynamic hst hty, if_neg (by simp [hl])]

/-- What the conditions around the entries of a symbol, and of its entries, allow. -/
def dependencyTri (t : ParsedTree) (ρ : Sym → SymbolValue) (s : Sym) : Tristate :=
  maxValue ((t.conditions.filter (·.2.sym = some s)).map fun x =>
    allValue t.config.type ρ (x.1 ++ x.2.dep.toList))

/-- What selects a symbol, each under the conditions of the select. -/
def selectTri (t : ParsedTree) (ρ : Sym → SymbolValue) (s : Sym) : Tristate :=
  maxValue (t.conditions.map (entrySelects t.config.type ρ s))

theorem maxValue_ne_mod {vs : List Tristate} (h : ∀ v ∈ vs, v ≠ .mod) : maxValue vs ≠ .mod := by
  induction vs with
  | nil => simp [maxValue]
  | cons v vs ih =>
    rw [List.forall_mem_cons] at h
    change max v (maxValue vs) ≠ .mod
    rcases max_choice v (maxValue vs) with hmax | hmax
    · rw [hmax]
      exact h.1
    · rw [hmax]
      exact ih h.2

theorem exists_of_forall₂ {α β : Type} {R : α → β → Prop} {l : List α} {l' : List β}
    (h : List.Forall₂ R l l') {b : β} (hb : b ∈ l') : ∃ a ∈ l, R a b := by
  induction h with
  | nil => simp at hb
  | cons hab _ ih =>
    rcases List.mem_cons.mp hb with rfl | hb
    · exact ⟨_, List.mem_cons_self, hab⟩
    · obtain ⟨a, ha, hR⟩ := ih hb
      exact ⟨a, List.mem_cons_of_mem _ ha, hR⟩

theorem optValue_ne_mod {type : Sym → SymType} {ρ : Sym → SymbolValue} {e : Option Expr}
    (h : ∀ x ∈ e, Crisp ρ x) : optValue type ρ e ≠ .mod := by
  cases e with
  | none => simp [optValue]
  | some e => exact (h e rfl).value_ne_mod

section Values
variable {t : ParsedTree} {D : UserData} {ρ : Sym → SymbolValue} {s : Sym}
  (hplain : ∀ e ∈ t.block.menus.preorder, e.Plain) (hmod : D.modulesVal = .no)
  (hρ : Dependency.Solution (currOf t.config D) ρ)
include hplain hmod hρ

/-- A property of an option whose condition holds belongs to an entry that is allowed. -/
theorem dependencyTri_of_condition (hl : (t.config.type s).isLogic = true) {p : Property}
    (hp : p ∈ t.config.props s) (hcond : conditionTri t.config ρ p ≠ .no) :
    dependencyTri t ρ s = .yes := by
  have hfinal := (finalized_conditions t (t.valuation_of_solution hmod hρ) hplain).1
  rw [t.props_of_isLogic hl, List.mem_flatMap] at hp
  obtain ⟨e', he', hp⟩ := hp
  rw [List.mem_filter, decide_eq_true_eq] at he'
  obtain ⟨x, hx, hentry⟩ := exists_of_forall₂ hfinal he'.1
  obtain ⟨q, -, hfp⟩ := exists_of_forall₂ hentry.props hp
  have hle : optValue t.config.type ρ p.visible ≤
      allValue t.config.type ρ (x.1 ++ x.2.dep.toList) := by
    rw [hfp.value, propertyConds, allValue_append]
    exact min_le_left _ _
  have hyes : optValue t.config.type ρ p.visible = .yes := by
    have hne : optValue t.config.type ρ p.visible ≠ .mod := optValue_ne_mod hfp.crisp
    unfold conditionTri at hcond
    cases hv : optValue t.config.type ρ p.visible <;> simp_all
  refine le_antisymm (Tristate.le_yes _) ?_
  rw [← hyes]
  refine hle.trans (le_maxValue (List.mem_map.mpr ⟨x, ?_, rfl⟩))
  rw [List.mem_filter, decide_eq_true_eq, ← hentry.sym]
  exact ⟨hx, he'.2⟩

theorem selectTri_ne_mod : selectTri t ρ s ≠ .mod := by
  have hval := t.valuation_of_solution hmod hρ
  refine maxValue_ne_mod fun v hv => ?_
  obtain ⟨x, hx, rfl⟩ := List.mem_map.mp hv
  refine maxValue_ne_mod fun w hw => ?_
  obtain ⟨q, hq, rfl⟩ := List.mem_map.mp hw
  -- the condition of the select is that of a final property
  obtain ⟨e', -, hentry⟩ := exists_of_forall₂ (finalized_conditions t hval hplain).1.flip hx
  obtain ⟨p, -, hfp⟩ := exists_of_forall₂ hentry.props.flip hq
  have hcond : allValue t.config.type ρ (propertyConds x.1 x.2 q) ≠ .mod := by
    rw [← hfp.value]
    exact optValue_ne_mod hfp.crisp
  unfold selectValue
  cases hs : x.2.sym with
  | none => simp
  | some u =>
    have hu : (ρ u).tri ≠ .mod := hval.ne_mod fun heq => by
      have hconst := t.block.entry_sym menuCheckDep _ (Menus.mem_preorder_of_contexts hx) u hs
      simp [heq, Sym.isConst] at hconst
    dsimp only
    split_ifs
    · rcases min_choice (ρ u).tri (allValue t.config.type ρ (propertyConds x.1 x.2 q)) with hmin | hmin
      · rwa [hmin]
      · rwa [hmin]
    · simp

/-- `rev_dep.tri` of an option. -/
theorem reverseTri_eq_selectTri (hc : s.isChoice = false) (hmember : t.config.isChoiceValue s = false) :
    reverseTri t.config D ρ s = selectTri t ρ s := by
  have hrev := (finalized_conditions t (t.valuation_of_solution hmod hρ) hplain).2 s hc
  have hne : revValue t.config.type ρ (t.config.revDep s) ≠ .mod := by
    rw [hrev]
    exact selectTri_ne_mod hplain hmod hρ
  rw [reverseTri, if_neg (by simp [hmember])]
  simp only [hne, false_and, if_false]
  exact hrev

theorem selectTri_le (hc : s.isChoice = false) (hl : (t.config.type s).isLogic = true)
    (hmember : t.config.isChoiceValue s = false) : selectTri t ρ s ≤ (ρ s).tri := by
  have hrev := reverseTri_eq_selectTri hplain hmod hρ hc hmember
  have hlogic : selectTri t ρ s ≤ logicTri t.config D ρ s := by
    by_cases hmax : max (visibleTri t.config D ρ s) (reverseTri t.config D ρ s) = .no
    · rw [← hrev]
      have hno : reverseTri t.config D ρ s ≤ .no := hmax ▸ le_max_right _ _
      exact hno.trans (Tristate.no_le _)
    · rw [logicTri_shown (by simp [hmember]) hmax, hrev]
      exact le_max_right _ _
  have hnew : logicTri t.config D ρ s ≤ newTri t.config D ρ s := by
    unfold newTri
    dsimp only
    split_ifs
    · exact Tristate.le_yes _
    · exact le_rfl
  rw [tri_of_solution hρ hc hl]
  exact hlogic.trans hnew

theorem le_dependencyTri (hc : s.isChoice = false) (hl : (t.config.type s).isLogic = true)
    (hmember : t.config.isChoiceValue s = false) :
    (ρ s).tri ≤ max (selectTri t ρ s) (dependencyTri t ρ s) := by
  by_cases hd : dependencyTri t ρ s = .yes
  · rw [hd, Tristate.max_yes_right]
    exact Tristate.le_yes _
  -- no prompt is visible, and no default is active
  have hnone : ∀ p ∈ t.config.props s, conditionTri t.config ρ p = .no := fun p hp => by
    by_contra hcond
    exact hd (dependencyTri_of_condition hplain hmod hρ hl hp hcond)
  have hv : visibleTri t.config D ρ s = .no := by
    by_contra hv
    obtain ⟨p, hp, hcond⟩ := exists_prompt_of_visible hv
    exact hcond (hnone p (List.mem_filter.mp hp).1)
  have hdefault : activeDefault t.config ρ s = none := by
    unfold activeDefault
    rw [List.find?_eq_none]
    intro p hp
    simp [hnone p (List.mem_filter.mp hp).1]
  have hrev := reverseTri_eq_selectTri hplain hmod hρ hc hmember
  have hlogic : logicTri t.config D ρ s = selectTri t ρ s := by
    by_cases hmax : max (visibleTri t.config D ρ s) (reverseTri t.config D ρ s) = .no
    · rw [logicTri_hidden hmax, if_neg (by simp [hc]), hdefault, ← hrev]
      rw [hv, Tristate.max_no_left] at hmax
      exact hmax.symm
    · rw [logicTri_shown (by simp [hmember]) hmax, hv, hrev, Tristate.min_no_right,
        Tristate.max_no_left]
  have hnew : newTri t.config D ρ s = selectTri t ρ s := by
    rw [newTri, hlogic]
    exact if_neg fun hmod' => selectTri_ne_mod hplain hmod hρ hmod'.1
  rw [tri_of_solution hρ hc hl, hnew]
  exact le_max_left _ _

end Values

/-! ## What the bounds read -/

/-- The conditions around the entries of a tree mention what the entries mention. -/
theorem Menus.contexts_over {Q : Sym → Prop} {m : Menus} {conds : List Expr}
    (hm : ∀ e ∈ m.preorder, e.Over Q ∧ ∀ s, e.sym = some s → Q s)
    (hconds : ∀ c ∈ conds, ∀ y ∈ c.syms, Q y) :
    ∀ x ∈ m.contexts inherited conds, ∀ c ∈ x.1, ∀ y ∈ c.syms, Q y := by
  induction m generalizing conds with
  | nil => simp [contexts]
  | node e l n ihl ihn =>
    simp only [preorder_node, List.mem_cons, List.mem_append, forall_eq_or_imp] at hm
    simp only [contexts, List.mem_cons, List.mem_append, forall_eq_or_imp]
    refine ⟨hconds, fun x hx => hx.elim (ihl (fun x hx => hm.2 x (.inl hx)) ?_ x)
      (ihn (fun x hx => hm.2 x (.inr hx)) hconds x)⟩
    intro c hc y hy
    have hplain (h : c ∈ conds ++ e.dep.toList ++ (e.prompt.bind (·.visible)).toList) : Q y := by
      simp only [List.mem_append, Option.mem_toList, Option.bind_eq_some_iff] at h
      rcases h with (h | h) | ⟨p, hp, h⟩
      · exact hconds c h y hy
      · exact hm.1.1.dep y (by rw [h]; exact hy)
      · refine hm.1.1.visible p (List.mem_filter.mp (List.mem_of_getLast? hp)).1 y ?_
        rw [h]
        exact hy
    unfold inherited at hc
    split at hc
    · rename_i k hs
      obtain rfl := List.mem_singleton.mp hc
      obtain rfl := List.mem_singleton.mp hy
      exact hm.1.2 _ hs
    · exact hplain hc

theorem allValue_congr {type : Sym → SymType} {ρ ρ' : Sym → SymbolValue} {cs : List Expr}
    (h : ∀ c ∈ cs, ∀ y ∈ c.syms, ρ y = ρ' y) : allValue type ρ cs = allValue type ρ' cs := by
  induction cs with
  | nil => rfl
  | cons c cs ih =>
    rw [List.forall_mem_cons] at h
    rw [allValue_cons, allValue_cons, ih h.2, c.value_congr h.1]

section Congruence
variable {t : ParsedTree} {ρ ρ' : Sym → SymbolValue} (h : ∀ s, t.InTable s → ρ s = ρ' s)
include h

theorem conditions_congr {x : List Expr × Entry} (hx : x ∈ t.conditions) :
    allValue t.config.type ρ (x.1 ++ x.2.dep.toList) =
        allValue t.config.type ρ' (x.1 ++ x.2.dep.toList) ∧
      ∀ s, entrySelects t.config.type ρ s x = entrySelects t.config.type ρ' s x := by
  have hover : ∀ e ∈ t.block.menus.preorder, e.Over t.InTable ∧ ∀ s, e.sym = some s → t.InTable s :=
    fun e he => ⟨t.block.entry_over (t.inTable_of_lookup t.modulesSym_mem_lookups)
      (fun y hy => t.inTable_of_lookup (by simp [ParsedTree.lookups, hy])) e he,
      fun s hs => (t.entry_inTable e he s hs).1⟩
  have hentry := hover x.2 (Menus.mem_preorder_of_contexts hx)
  have hconds := Menus.contexts_over hover (by simp) x hx
  have hdep : ∀ c ∈ x.1 ++ x.2.dep.toList, ∀ y ∈ c.syms, ρ y = ρ' y := by
    intro c hc y hy
    rcases List.mem_append.mp hc with hc | hc
    · exact h y (hconds c hc y hy)
    · rw [Option.mem_toList] at hc
      exact h y (hentry.1.dep y (by rw [hc]; exact hy))
  refine ⟨allValue_congr hdep, fun s => ?_⟩
  unfold entrySelects
  refine congrArg maxValue (List.map_congr_left fun p hp => ?_)
  have hprop : allValue t.config.type ρ (propertyConds x.1 x.2 p) =
      allValue t.config.type ρ' (propertyConds x.1 x.2 p) := by
    refine allValue_congr fun c hc y hy => ?_
    rcases List.mem_append.mp hc with hc | hc
    · exact hdep c hc y hy
    · rw [Option.mem_toList] at hc
      exact h y (hentry.1.visible p hp y (by rw [hc]; exact hy))
  unfold selectValue
  rw [hprop]
  cases hs : x.2.sym with
  | none => rfl
  | some u =>
    dsimp only
    rw [h u (hentry.2 u hs)]

end Congruence

/-- An option that depends on a second one and is selected by a third. -/
def selectedTree : ParsedTree where
  block := boolOption ['A'] [] (boolOption ['B'] [.config nameA]
    (.config nameS false [.type .boolean (some (['s'], none)), .select (.config nameB) none] .nil)
      nameB.free) nameA.free
  choices_nodup := by decide
  named := by decide

theorem selectedTree_regular : selectedTree.Regular :=
  ParsedTree.regular_of_symbols
    (fun s => if s.isStatic then 0 else if s = .config nameB then 2 else 1)
    (by decide) (by decide) (by decide) (by decide)

end Grasshopper.Kconfig
