import Grasshopper.Kconfig.Expr.Compare
import Grasshopper.Kconfig.Menu.Inherited

/-! # The submenus that `menu_finalize` makes

An entry is put under the one before it when its condition depends on that one's symbol, or when its
condition without what it shares with the prompt above is nothing but `y`. What the test finds out
about the two conditions holds for all values.
-/

namespace Grasshopper.Kconfig

/-! ## Conditions on defined symbols -/

/-- Every operand that is no comparison is a bool or tristate symbol, or one of `y` and `n`. -/
def Expr.Defined (type : Sym → SymType) : Expr → Prop
  | symbol s => (type s).isLogic ∨ s = .yes ∨ s = .no
  | not e => e.Defined type
  | and l r | or l r => l.Defined type ∧ r.Defined type
  | equal _ _ | unequal _ _ => True

/-- The conditions of an entry are on defined symbols. -/
structure Entry.Defined (type : Sym → SymType) (e : Entry) : Prop where
  dep : ∀ d ∈ e.dep, d.Defined type
  props : ∀ p ∈ e.props, ∀ v ∈ p.visible, v.Defined type

@[simp] theorem Expr.defined_yes (type : Sym → SymType) : (symbol .yes).Defined type :=
  .inr (.inl rfl)
@[simp] theorem Expr.defined_no (type : Sym → SymType) : (symbol .no).Defined type :=
  .inr (.inr rfl)

section Defined
variable {τ type : Sym → SymType} {ρ : Sym → SymbolValue}

theorem exprJoin_defined (hτ : TypesGrow τ type) {c : Conn} {e1 e2 t : Expr}
    (ht : exprJoin τ c e1 e2 = some t) (h1 : e1.Defined type) (h2 : e2.Defined type) :
    t.Defined type := by
  unfold exprJoin at ht
  split_ifs at ht with heq
  · obtain rfl := Option.some_inj.mp ht
    exact h1
  · split at ht
    · rename_i s1 s2 hs1 hs2
      split_ifs at ht with hs
      have hl : (type s1).isLogic := (hτ.isLogic (by simpa using (not_or.mp hs).2)).2
      cases c with
      | or =>
        simp only [joinOrRules] at ht
        split at ht
        · split_ifs at ht <;> obtain rfl := Option.some_inj.mp ht <;> trivial
        · split_ifs at ht; obtain rfl := Option.some_inj.mp ht; exact Expr.defined_yes type
        · split_ifs at ht; obtain rfl := Option.some_inj.mp ht; exact Expr.defined_yes type
        · simp at ht
      | and =>
        simp only [joinAndRules] at ht
        split at ht
        · split_ifs at ht; obtain rfl := Option.some_inj.mp ht; trivial
        · split_ifs at ht; obtain rfl := Option.some_inj.mp ht; trivial
        · split_ifs at ht <;> obtain rfl := Option.some_inj.mp ht
          · exact .inl hl
          · trivial
        · split_ifs at ht <;> obtain rfl := Option.some_inj.mp ht
          · exact .inl hl
          · trivial
        · split_ifs at ht <;> obtain rfl := Option.some_inj.mp ht
          · trivial
          · exact Expr.defined_no type
        · split_ifs at ht <;> obtain rfl := Option.some_inj.mp ht
          · trivial
          · exact Expr.defined_no type
        · split_ifs at ht <;> obtain rfl := Option.some_inj.mp ht <;> trivial
        · simp at ht
    · simp at ht

/-- Elimination keeps the operands defined. -/
theorem hereditary_defined (hτ : TypesGrow τ type) : Hereditary τ (Expr.Defined type) where
  and _ _ := Iff.rfl
  or _ _ := Iff.rfl
  yes := Expr.defined_yes type
  no := Expr.defined_no type
  join := exprJoin_defined hτ

theorem exprTransformAux_defined (hτ : TypesGrow τ type) (n : ℕ) (e : Expr)
    (he : e.Defined type) : (exprTransformAux τ n e).Defined type := by
  induction n generalizing e with
  | zero => exact he
  | succ n ih =>
    have children : (e.mapChildren (exprTransformAux τ n)).Defined type := by
      cases e with
      | not e => exact ih e he
      | and l r | or l r => exact ⟨ih l he.1, ih r he.2⟩
      | symbol s | equal a b | unequal a b => exact he
    have boolean {a : Sym} (ha : ¬τ a ≠ .boolean) : (type a).isLogic := by
      simp [hτ.boolean (not_not.mp ha), SymType.isLogic]
    unfold exprTransformAux
    generalize e.mapChildren (exprTransformAux τ n) = e' at children ⊢
    split
    · split_ifs with h1 h2 h3 h4
      · trivial
      · exact .inl (boolean h1)
      · exact Expr.defined_no type
      · exact .inl (boolean h1)
      · trivial
    · split_ifs with h1 h2 h3 h4
      · trivial
      · exact .inl (boolean h1)
      · exact Expr.defined_yes type
      · exact .inl (boolean h1)
      · trivial
    · exact ih _ children
    · trivial
    · trivial
    · exact ih _ children
    · exact ih _ children
    · exact Expr.defined_no type
    · exact children
    · exact Expr.defined_yes type
    · exact children

theorem exprTransBool_defined (hτ : TypesGrow τ type) (e : Expr) (he : e.Defined type) :
    (exprTransBool τ e).Defined type := by
  induction e with
  | symbol s | equal a b => exact he
  | not e ih => exact ih he
  | and l r ihl ihr | or l r ihl ihr => exact ⟨ihl he.1, ihr he.2⟩
  | unequal a b =>
    unfold exprTransBool
    split_ifs with hab
    · exact .inl (hτ.isLogic (by simp [hab.1, SymType.isLogic])).2
    · trivial

/-- The condition joined to the inherited one and simplified. -/
theorem eliminated_defined (hτ : TypesGrow τ type) {d v : Option Expr}
    (hd : ∀ e ∈ d, e.Defined type) (hv : ∀ e ∈ v, e.Defined type) :
    ∀ e ∈ (exprAllocAnd d (v.map (exprTransform τ))).map (exprEliminateDups τ),
      e.Defined type := by
  intro e he
  obtain ⟨a, ha, rfl⟩ := Option.mem_map.mp he
  refine (hereditary_defined hτ).eliminateDups a ?_
  have hv' : ∀ e ∈ v.map (exprTransform τ), e.Defined type := by
    intro e he
    obtain ⟨b, hb, rfl⟩ := Option.mem_map.mp he
    exact exprTransformAux_defined hτ _ b (hv b hb)
  cases d with
  | none => exact hv' a ha
  | some d =>
    cases hvt : v.map (exprTransform τ) with
    | none =>
      rw [hvt] at ha
      exact hd a ha
    | some w =>
      rw [hvt] at ha
      obtain rfl := Option.some_inj.mp ha
      exact ⟨hd d rfl, hv' w hvt⟩

theorem finalizeVisible_defined (hτ : TypesGrow τ type) (sym : Option Sym) {d v : Option Expr}
    (hd : ∀ e ∈ d, e.Defined type) (hv : ∀ e ∈ v, e.Defined type) :
    ∀ e ∈ finalizeVisible τ sym d v, e.Defined type := by
  have hel := eliminated_defined hτ hd hv
  unfold finalizeVisible
  cases sym with
  | none => exact hel
  | some s =>
    dsimp only
    split_ifs
    · intro e he
      obtain ⟨a, ha, rfl⟩ := Option.mem_map.mp he
      exact exprTransBool_defined hτ a (hel a ha)
    · exact hel

theorem finalizeEntry_defined {d : Option Expr} {e : Entry} {σ : FinState}
    (hτ : TypesGrow σ.type type) (hd : ∀ x ∈ d, x.Defined type) (he : e.Defined type) :
    (finalizeEntry d e σ).1.Defined type := by
  have hdep : ∀ x ∈ finalizeDep σ.type d e.dep, x.Defined type :=
    eliminated_defined hτ hd he.dep
  refine ⟨hdep, fun p' hp' => ?_⟩
  obtain ⟨p, hp, rfl⟩ := List.mem_map.mp hp'
  exact finalizeVisible_defined hτ e.sym hdep (he.props p hp)

theorem Entry.Defined.prompt {e : Entry} (he : e.Defined type) {p : Property}
    (hp : e.prompt = some p) : ∀ v ∈ p.visible, v.Defined type :=
  he.props p (List.mem_of_mem_filter (List.mem_of_getLast? hp))

theorem Entry.Defined.condition {e : Entry} (he : e.Defined type) :
    ∀ v ∈ e.condition, v.Defined type := by
  unfold Entry.condition
  cases hp : e.prompt with
  | none => exact he.dep
  | some p => exact he.prompt hp

/-! ## What the test finds out -/

/-- The string value of a defined operand is the letter of its tristate. -/
theorem Expr.Defined.tristateOperands (h : Standard type ρ) {e : Expr} (he : e.Defined type) :
    e.TristateOperands type ρ := by
  induction e with
  | symbol s =>
    rcases he with he | he
    · simp only [TristateOperands, symGetStringValue, he, if_true]
    · rcases he with rfl | rfl
      · rw [TristateOperands, h.yes, h.string_yes]; rfl
      · rw [TristateOperands, h.no, h.string_no]; rfl
  | not e ih => exact ih he
  | and l r ihl ihr | or l r ihl ihr => exact ⟨ihl he.1, ihr he.2⟩
  | equal a b | unequal a b => trivial

theorem Expr.Defined.crisp (h : Valuation type ρ) {e : Expr} (he : e.Defined type) :
    Crisp ρ e := by
  induction e with
  | symbol s =>
    rcases he with he | rfl | rfl
    · exact h.logic s he
    · simp [Crisp, h.yes]
    · simp [Crisp, h.no]
  | not e ih => exact ih he
  | and l r ihl ihr | or l r ihl ihr => exact ⟨ihl he.1, ihr he.2⟩
  | equal a b | unequal a b => trivial

theorem Expr.Defined.plain (hm : type .mod = .unknown) {e : Expr} (he : e.Defined type) :
    e.Plain := by
  induction e with
  | symbol s =>
    rintro rfl
    simp [Defined, hm, SymType.isLogic] at he
  | not e ih => exact ih he
  | and l r ihl ihr | or l r ihl ihr => exact ⟨ihl he.1, ihr he.2⟩
  | equal a b | unequal a b => trivial

theorem exprTransCompareExpr_crisp {sym : Tristate} (hs : sym ≠ .mod)
    (c : CompareType) (e : Expr) : Crisp ρ (exprTransCompareExpr c sym e) := by
  have wrap (c : CompareType) {e : Expr} (he : Crisp ρ e) : Crisp ρ (c.wrap e) := by
    cases c <;> exact he
  induction e generalizing c with
  | symbol s => cases c <;> trivial
  | not e ih => exact ih c.flip
  | and l r ihl ihr | or l r ihl ihr =>
    refine wrap c ?_
    cases sym with
    | mod => exact absurd rfl hs
    | yes | no => exact ⟨ihl .equal, ihr .equal⟩
  | equal a b | unequal a b =>
    cases sym with
    | mod => exact absurd rfl hs
    | yes | no => cases c <;> trivial

theorem exprTransCompare_crisp (h : Standard type ρ) {sym : Tristate} (hs : sym ≠ .mod)
    (c : CompareType) (e : Option Expr) : Crisp ρ (exprTransCompare e c sym) := by
  cases e with
  | none =>
    cases sym with
    | mod => exact absurd rfl hs
    | yes => cases c <;> simp [exprTransCompare, CompareType.wrap, Crisp, Tristate.symbol, h.yes]
    | no => cases c <;> simp [exprTransCompare, CompareType.wrap, Crisp, Tristate.symbol, h.no]
  | some e => exact exprTransCompareExpr_crisp hs c e

/-- The condition of an entry as `expr_eliminate_eq` gets it is `y` where the condition is not
`n`. -/
theorem comparedDep_value (h : Valuation type ρ) (hτ : TypesGrow τ type) {d : Option Expr}
    (hd : ∀ e ∈ d, e.Defined type) :
    (comparedDep τ d).value type ρ = if optValue type ρ d = .no then .no else .yes := by
  have hb := h.twoValued.booleans
  have hcmp : Crisp ρ (exprTransCompare d .unequal .no) :=
    exprTransCompare_crisp h.toStandard (by decide) .unequal d
  have htri : ∀ e ∈ d, e.TristateOperands type ρ := fun e he =>
    (hd e he).tristateOperands h.toStandard
  have hround : optRounded type ρ .yes d = optValue type ρ d := by
    cases d with
    | none => rfl
    | some e =>
      exact (e.rounded_eq .yes).resolve_left ((hd e rfl).crisp h).value_ne_mod
  unfold comparedDep
  rw [exprEliminateDups_value h.toStandard hτ hb _
      (exprTransform_crisp h.toStandard hτ hb _ hcmp),
    exprTransform_value h.toStandard hτ hb,
    exprTransCompare_value h.toStandard (by decide) .unequal d htri]
  show CompareType.unequal.answer (optRounded type ρ .yes d) .no = _
  rw [hround]
  rfl

/-- An expression that depends on a symbol is `n` where the symbol is. -/
theorem exprDependsSymbol_value (h : Standard type ρ) {s : Sym} {e : Expr} (he : e.Defined type)
    (hdep : exprDependsSymbol s e) (hno : symGetStringValue type ρ s = ['n']) :
    e.value type ρ = .no := by
  induction e with
  | symbol x =>
    obtain rfl : x = s := by simpa [exprDependsSymbol] using hdep
    rcases he with he | rfl | rfl
    · simp only [symGetStringValue, he, if_true] at hno
      have hletter : (ρ x).tri.letter = Tristate.no.letter := hno
      exact Tristate.letter_injective hletter
    · simp [h.string_yes] at hno
    · exact h.no
  | and l r ihl ihr =>
    simp only [exprDependsSymbol, Bool.or_eq_true] at hdep
    rw [Expr.value, ← Tristate.le_no_iff]
    rcases hdep with hl | hr
    · exact (min_le_left _ _).trans (ihl he.1 hl).le
    · exact (min_le_right _ _).trans (ihr he.2 hr).le
  | equal a b =>
    simp only [exprDependsSymbol, decide_eq_true_eq] at hdep
    obtain ⟨rfl, rfl | rfl⟩ := hdep
    · simp [Expr.value, hno, h.string_yes]
    · simp [Expr.value, hno, h.string_mod]
  | unequal a b =>
    simp only [exprDependsSymbol, decide_eq_true_eq] at hdep
    obtain ⟨rfl, rfl⟩ := hdep
    simp [Expr.value, hno, h.string_no]
  | not e ih | or l r ihl ihr => simp [exprDependsSymbol] at hdep

variable (type) in
/-- The documented rule for an entry under one with symbol `s`, for their conditions: the one
depends on the symbol, or shows only where the prompt above does. -/
structure Submenu (s : Sym) (prompt cond : Option Expr) : Prop where
  mentions : exprContainsSymbol cond s
  rule : (∀ ρ, Valuation type ρ → symGetStringValue type ρ s = ['n'] →
      optValue type ρ cond = .no) ∨
    ∀ ρ, Valuation type ρ → optValue type ρ cond ≠ .no → optValue type ρ prompt ≠ .no

/-- The test of the sibling loop says what the rule says. -/
theorem nests_sound {τ' : Sym → SymType} (hτ : TypesGrow τ type) (hτ' : TypesGrow τ' type)
    {s : Sym} {prompt cond : Option Expr} (hp : ∀ e ∈ prompt, e.Defined type)
    (hc : ∀ e ∈ cond, e.Defined type) (hn : nests τ s (comparedDep τ' prompt) cond) :
    Submenu type s prompt cond := by
  cases cond with
  | none => simp [nests] at hn
  | some e =>
    simp only [nests, Bool.and_eq_true, Bool.or_eq_true] at hn
    refine ⟨hn.1, hn.2.imp (fun hdep ρ h hno => ?_) fun hyes ρ h hne => ?_⟩
    · exact exprDependsSymbol_value h.toStandard (hc e rfl) hdep hno
    · obtain ⟨φ, hφ, h1, h2⟩ := exprEliminateEq_sound h.toStandard (comparedDep τ (some e))
        (comparedDep τ' prompt)
      have hone : (exprEliminateEq (comparedDep τ (some e)) (comparedDep τ' prompt)).2 =
          .symbol .yes := by simpa [exprIsYes] using hyes
      have hle : (comparedDep τ (some e)).value type ρ ≤ (comparedDep τ' prompt).value type ρ := by
        rw [h1, h2, hone, h.value_yes]
        exact hφ (Tristate.le_yes _)
      rw [comparedDep_value h hτ hc, comparedDep_value h hτ' hp, if_neg hne] at hle
      intro hno
      rw [if_pos hno] at hle
      exact absurd hle (by decide)

end Defined

/-! ## What the sibling loops attach -/

/-- The entries of a chain, without what is under them. -/
def Menus.siblings : Menus → List Entry
  | nil => []
  | node e _ n => e :: n.siblings

section Attached
variable (optional : ℕ → Bool)

mutual

/-- What the sibling loops put under which entry in `menu_finalize`, while it runs. -/
def menuAttached : ℕ → Menus → FinState → List (Entry × Entry)
  | 0, _, _ => []
  | _ + 1, .nil, _ => []
  | fuel + 1, .node e (.node e' l' n') _, σ =>
    let r := finalizeEntries (parentDep e) (.node e' l' n')
      (setChoiceType e.sym (.node e' l' n') σ)
    listAttached fuel r.1 r.2
  | fuel + 1, .node e .nil n, σ =>
    match e.sym with
    | none => []
    | some s =>
      let basedep := comparedDep σ.type (e.prompt.bind (·.visible))
      (nestEntries optional fuel s basedep n σ).1.1.siblings.map (e, ·) ++
        nestAttached fuel s basedep n σ

/-- What is attached in the calls on every entry of a chain. -/
def listAttached : ℕ → Menus → FinState → List (Entry × Entry)
  | 0, _, _ => []
  | fuel + 1, m, σ =>
    menuAttached fuel m σ ++
      match menuFinalize optional fuel m σ with
      | (.nil, _) => []
      | (.node _ _ n, σ) => listAttached fuel n σ

/-- What is attached in the calls a sibling loop makes. -/
def nestAttached : ℕ → Sym → Expr → Menus → FinState → List (Entry × Entry)
  | 0, _, _, _, _ => []
  | _ + 1, _, _, .nil, _ => []
  | fuel + 1, sym, basedep, .node e l n, σ =>
    if nests σ.type sym basedep e.condition then
      menuAttached fuel (.node e l n) σ ++
        match menuFinalize optional fuel (.node e l n) σ with
        | (.nil, _) => []
        | (.node _ _ n, σ) => nestAttached fuel sym basedep n σ
    else []

end

end Attached

/-- The pairs `(P, M)` of a parsed tree for which the sibling loop of `menu_finalize(P)` attaches
`M` under `P`, with their final conditions. -/
def ParsedTree.attached (t : ParsedTree) : List (Entry × Entry) :=
  let r := finalizeEntries none t.block.menus t.initial
  listAttached t.optional (2 * t.block.menus.size) r.1 r.2

/-- The conditions of a chain are on defined symbols, the choices with members among them. -/
def Menus.Defined (type : Sym → SymType) : Menus → Prop
  | nil => True
  | node e l n => e.Defined type ∧
      (∀ k, e.sym = some (.choice k) → l ≠ nil → (type (.choice k)).isLogic) ∧
      l.Defined type ∧ n.Defined type

section Calls
variable {optional : ℕ → Bool} {type : Sym → SymType}

theorem parentDep_defined {e : Entry} (he : e.Defined type)
    (hk : ∀ k, e.sym = some (.choice k) → (type (.choice k)).isLogic) :
    ∀ d ∈ parentDep e, d.Defined type := by
  unfold parentDep
  split
  · rename_i s hs
    split_ifs with hc
    · cases s with
      | choice k =>
        intro d hd
        obtain rfl := Option.some_inj.mp hd
        exact .inl (hk k hs)
      | _ => simp [Sym.isChoice] at hc
    · exact he.condition
  · exact he.condition

theorem finalizeEntries_defined {d : Option Expr} {m : Menus} {σ : FinState}
    (hτ : TypesGrow (finalizeEntries d m σ).2.type type) (hd : ∀ x ∈ d, x.Defined type)
    (hm : m.Defined type) : (finalizeEntries d m σ).1.Defined type := by
  induction m generalizing σ with
  | nil => trivial
  | node e l n ihl ihn =>
    have hσ : TypesGrow σ.type type := (backward_typesGrow (fun _ => true) type).entries hτ
    exact ⟨finalizeEntry_defined hσ hd hm.1, hm.2.1, hm.2.2.1, ihn hτ hm.2.2.2⟩

variable (type) in
/-- The documented rule for one pair of entries. -/
def ObeysRule (x : Entry × Entry) : Prop :=
  ∀ s p, x.1.sym = some s → x.1.prompt = some p →
    Submenu type s p.visible x.2.condition

section Rules
variable (optional type)

/-- What `menu_finalize` attaches obeys the rule, and the entries it leaves behind are defined. -/
def MenuAttaches (fuel : ℕ) : Prop :=
  ∀ e l n σ, (Menus.node e l n).Defined type →
    TypesGrow (menuFinalize optional fuel (.node e l n) σ).2.type type →
    (∃ L N, (menuFinalize optional fuel (.node e l n) σ).1 = .node e L N ∧ N.Defined type) ∧
      ∀ x ∈ menuAttached optional fuel (.node e l n) σ, ObeysRule type x

def ListAttaches (fuel : ℕ) : Prop :=
  ∀ m σ, m.Defined type → TypesGrow (finalizeList optional fuel m σ).2.type type →
    ∀ x ∈ listAttached optional fuel m σ, ObeysRule type x

/-- So does what a sibling loop attaches, whose own entries passed the test. -/
def NestAttaches (fuel : ℕ) : Prop :=
  ∀ s b m σ, m.Defined type → TypesGrow (nestEntries optional fuel s b m σ).2.type type →
    (nestEntries optional fuel s b m σ).1.2.Defined type ∧
      (∀ y ∈ (nestEntries optional fuel s b m σ).1.1.siblings, y.Defined type ∧
        ∃ τ, TypesGrow τ type ∧ nests τ s b y.condition) ∧
      ∀ x ∈ nestAttached optional fuel s b m σ, ObeysRule type x

end Rules

theorem menuAttaches_step {fuel : ℕ} (ihl : ListAttaches optional type fuel)
    (ihn : NestAttaches optional type fuel) : MenuAttaches optional type (fuel + 1) := by
  have back := backward_typesGrow optional type
  intro e l n σ hm hτ
  cases l with
  | node e' l' n' =>
    simp only [menuFinalize, menuAttached] at hτ ⊢
    have hl := back.lift (back.revDep hτ)
    have hdep := parentDep_defined hm.1 fun k hk => hm.2.1 k hk (by simp)
    have hlist := finalizeEntries_defined (back.list hl) hdep hm.2.2.1
    exact ⟨⟨_, n, rfl, hm.2.2.2⟩, ihl _ _ hlist hl⟩
  | nil =>
    cases hs : e.sym with
    | none =>
      simp only [menuFinalize, menuAttached, hs]
      exact ⟨⟨.nil, n, rfl, hm.2.2.2⟩, by simp⟩
    | some s =>
      simp only [menuFinalize, menuAttached, hs] at hτ ⊢
      have hn := back.lift (back.revDep hτ)
      obtain ⟨hrest, hsib, hin⟩ := ihn s _ n σ hm.2.2.2 hn
      refine ⟨⟨_, _, rfl, hrest⟩, fun x hx => ?_⟩
      rcases List.mem_append.mp hx with hx | hx
      · obtain ⟨y, hy, rfl⟩ := List.mem_map.mp hx
        obtain ⟨hdef, τ, hτy, hnests⟩ := hsib y hy
        intro s' p hs' hp
        obtain rfl := Option.some_inj.mp (hs.symm.trans hs')
        simp only [show e.prompt = some p from hp, Option.bind_some] at hnests
        exact nests_sound hτy (back.nest hn) (hm.1.prompt hp) hdef.condition hnests
      · exact hin x hx

theorem listAttaches_step {fuel : ℕ} (ihm : MenuAttaches optional type fuel)
    (ihl : ListAttaches optional type fuel) : ListAttaches optional type (fuel + 1) := by
  have back := backward_typesGrow optional type
  intro m σ hm hτ
  cases m with
  | nil => cases fuel <;> simp [listAttached, menuAttached, menuFinalize]
  | node e l n =>
    have hmenu := ihm e l n σ hm
    cases hr : menuFinalize optional fuel (.node e l n) σ with
    | mk m₁ σ' =>
    rw [hr] at hmenu
    cases m₁ with
    | nil =>
      simp only [finalizeList, hr] at hτ
      obtain ⟨⟨L, N, h, _⟩, _⟩ := hmenu hτ
      simp at h
    | node e₁ l₁ n₁ =>
      simp only [finalizeList, listAttached, hr] at hτ ⊢
      obtain ⟨⟨L, N, h, hN⟩, hin⟩ := hmenu (back.list hτ)
      obtain ⟨rfl, rfl, rfl⟩ := Menus.node.inj h
      intro x hx
      rcases List.mem_append.mp hx with hx | hx
      · exact hin x hx
      · exact ihl n₁ σ' hN hτ x hx

theorem nestAttaches_step {fuel : ℕ} (ihm : MenuAttaches optional type fuel)
    (ihn : NestAttaches optional type fuel) : NestAttaches optional type (fuel + 1) := by
  have back := backward_typesGrow optional type
  intro s b m σ hm hτ
  cases m with
  | nil => simp [nestAttached, nestEntries, Menus.siblings, Menus.Defined]
  | node e l n =>
    have hmenu := ihm e l n σ hm
    have hσ : TypesGrow (menuFinalize optional fuel (.node e l n) σ).2.type type →
        TypesGrow σ.type type := back.menu
    by_cases htest : nests σ.type s b e.condition = true
    · cases hr : menuFinalize optional fuel (.node e l n) σ with
      | mk m₁ σ' =>
      rw [hr] at hmenu hσ
      cases m₁ with
      | nil =>
        simp only [nestEntries, hr, if_pos htest] at hτ
        obtain ⟨⟨L, N, h, _⟩, _⟩ := hmenu hτ
        simp at h
      | node e₁ l₁ n₁ =>
        simp only [nestEntries, nestAttached, hr, if_pos htest] at hτ ⊢
        obtain ⟨⟨L, N, h, hN⟩, hin⟩ := hmenu (back.nest hτ)
        obtain ⟨rfl, rfl, rfl⟩ := Menus.node.inj h
        obtain ⟨hrest, hsib, hnin⟩ := ihn s b n₁ σ' hN hτ
        refine ⟨hrest, fun y hy => ?_, fun x hx => ?_⟩
        · rcases List.mem_cons.mp hy with rfl | hy
          · exact ⟨hm.1, σ.type, hσ (back.nest hτ), htest⟩
          · exact hsib y hy
        · rcases List.mem_append.mp hx with hx | hx
          · exact hin x hx
          · exact hnin x hx
    · simp only [nestEntries, nestAttached, if_neg htest]
      exact ⟨hm, by simp [Menus.siblings], by simp⟩

theorem attaches (optional : ℕ → Bool) (type : Sym → SymType) (fuel : ℕ) :
    MenuAttaches optional type fuel ∧ ListAttaches optional type fuel ∧
      NestAttaches optional type fuel := by
  induction fuel with
  | zero =>
    refine ⟨fun e l n σ hm _ => ⟨⟨l, n, rfl, hm.2.2.2⟩, ?_⟩, fun m σ _ _ => ?_,
      fun s b m σ hm _ => ⟨hm, ?_, ?_⟩⟩
    · simp [menuAttached]
    · simp [listAttached]
    · simp [nestEntries, Menus.siblings]
    · simp [nestAttached]
  | succ fuel ih =>
    obtain ⟨ihm, ihl, ihn⟩ := ih
    exact ⟨menuAttaches_step ihl ihn, listAttaches_step ihm ihl, nestAttaches_step ihm ihn⟩

end Calls

/-! ## The whole tree -/

theorem Menus.defined_of_contexts {type : Sym → SymType} {γ : List Expr} {m : Menus}
    (h : ∀ x ∈ m.contexts inherited γ, (∀ c ∈ x.1, c.Defined type) ∧ x.2.Defined type) :
    m.Defined type := by
  induction m generalizing γ with
  | nil => trivial
  | node e l n ihl ihn =>
    simp only [contexts, List.mem_cons, List.mem_append, forall_eq_or_imp] at h
    refine ⟨h.1.2, fun k hk hl => ?_, ihl fun x hx => h.2 x (.inl hx),
      ihn fun x hx => h.2 x (.inr hx)⟩
    cases l with
    | nil => exact absurd rfl hl
    | node e' l' n' =>
      have hc := (h.2 (inherited γ e, e') (.inl (by simp [contexts]))).1
      simpa [inherited, hk, Expr.Defined] using hc

/-- The conditions written in and around every entry are on defined symbols. -/
def ParsedTree.ConditionsDefined (t : ParsedTree) : Prop :=
  ∀ x ∈ t.block.written.contexts inherited [],
    (∀ c ∈ x.1, c.Defined t.config.type) ∧ x.2.Defined t.config.type

theorem Entry.Defined.plain {type : Sym → SymType} (hm : type .mod = .unknown) {e : Entry}
    (he : e.Defined type) : e.Plain :=
  ⟨fun d hd => (he.dep d hd).plain hm, fun p hp v hv => (he.props p hp v hv).plain hm⟩

theorem ParsedTree.ConditionsDefined.menus {t : ParsedTree} (h : t.ConditionsDefined) :
    t.block.menus.Defined t.config.type := by
  have hplain : ∀ e ∈ t.block.written.preorder, e.Plain := by
    intro e he
    rw [← t.block.written.map_contexts inherited []] at he
    obtain ⟨x, hx, rfl⟩ := List.mem_map.mp he
    exact (h x hx).2.plain (t.type_const rfl)
  rw [Block.menus_of_plain hplain]
  exact Menus.defined_of_contexts h

/-- Automatic submenus obey the documented rule: what the sibling loop attaches under an entry with
a prompt mentions its symbol, and depends on it or shows only where the prompt does. -/
theorem menuFinalize_submenus (t : ParsedTree) (h : t.ConditionsDefined) :
    ∀ x ∈ t.attached, ∀ s p, x.1.sym = some s → x.1.prompt = some p →
      Submenu t.config.type s p.visible x.2.condition := by
  have back := backward_typesGrow t.optional t.config.type
  have hlist : TypesGrow (finalizeList t.optional (2 * t.block.menus.size)
      (finalizeEntries none t.block.menus t.initial).1
      (finalizeEntries none t.block.menus t.initial).2).2.type t.config.type :=
    back.lift (.refl t.config.type)
  have hentries := finalizeEntries_defined (d := none) (back.list hlist) (by simp) h.menus
  exact (attaches t.optional t.config.type _).2.1 _ _ hentries hlist

/-- An option, and one after it that depends on it. -/
def submenuTree : ParsedTree where
  block := .config nameA false [.type .boolean (some (['a'], none))]
    (.config nameB false
      [.type .boolean (some (['b'], none)), .depends (.symbol symA)] .nil)
  choices_nodup := by decide
  named := by decide

theorem menuFinalize_submenus_submenuTree :
    ∃ x ∈ submenuTree.attached, ∃ p, x.1.sym = some symA ∧ x.1.prompt = some p ∧
      Submenu submenuTree.config.type symA p.visible x.2.condition := by
  have hattached : ∃ x ∈ submenuTree.attached, x.1.sym = some symA ∧ x.1.prompt.isSome := by decide
  obtain ⟨x, hx, hs, hp⟩ := hattached
  obtain ⟨p, hp⟩ := Option.isSome_iff_exists.mp hp
  have hA : submenuTree.config.type symA = .boolean := by decide
  have hdefined : submenuTree.ConditionsDefined := by
    have hB : (Expr.symbol symA).Defined submenuTree.config.type :=
      .inl (by rw [hA]; rfl)
    intro x hx
    simp only [submenuTree, Block.written, Block.menusWith, Menus.contexts, List.nil_append,
      List.mem_cons, List.not_mem_nil, or_false] at hx
    rcases hx with rfl | rfl
    · exact ⟨by simp, by simp [configEntry, ConfigOption.add, menuAddProp],
        by simp [configEntry, ConfigOption.add, menuAddProp]⟩
    · refine ⟨by simp, ?_, by simp [configEntry, ConfigOption.add, menuAddProp, menuAddDep]⟩
      simpa [configEntry, ConfigOption.add, menuAddProp, menuAddDep, exprAllocAnd] using hB
  exact ⟨x, hx, p, hs, hp, menuFinalize_submenus submenuTree hdefined x hx symA p hs hp⟩

end Grasshopper.Kconfig
