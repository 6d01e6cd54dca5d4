import Grasshopper.Kconfig.Expr.Transform

/-! # What `expr_transform` computes

The rewriter pushes a negation down one node and then calls itself on what it made. It ends, and
the result is the negation normal form that one walk over the expression gives.
-/

namespace Grasshopper.Kconfig

/-- The comparisons of a boolean symbol with `y`, `m` and `n`. -/
def Expr.plain (τ : Sym → SymType) : Expr → Expr
  | equal a b =>
    if τ a ≠ .boolean then equal a b
    else if b = .no then not (symbol a)
    else if b = .mod then symbol .no
    else if b = .yes then symbol a
    else equal a b
  | unequal a b =>
    if τ a ≠ .boolean then unequal a b
    else if b = .no then symbol a
    else if b = .mod then symbol .yes
    else if b = .yes then not (symbol a)
    else unequal a b
  | e => e

/-- The negation of a normal form. -/
def Expr.negate : Expr → Expr
  | symbol .yes => symbol .no
  | symbol .mod => symbol .mod
  | symbol .no => symbol .yes
  | symbol s => not (symbol s)
  | not e => e
  | and l r => or l.negate r.negate
  | or l r => and l.negate r.negate
  | equal a b => unequal a b
  | unequal a b => equal a b

/-- The normal form of an expression. -/
def Expr.normal (τ : Sym → SymType) : Expr → Expr
  | not e => (e.normal τ).negate
  | and l r => and (l.normal τ) (r.normal τ)
  | or l r => or (l.normal τ) (r.normal τ)
  | e => e.plain τ

/-- A negation is applied to nothing but a symbol other than `y`, `m` and `n`. -/
def Expr.NegatesSymbols : Expr → Prop
  | not (symbol s) => s.isStatic = false
  | not _ => False
  | and l r | or l r => l.NegatesSymbols ∧ r.NegatesSymbols
  | _ => True

/-- A normal form in which no comparison is left to rewrite. -/
def Expr.Reduced (τ : Sym → SymType) : Expr → Prop
  | not (symbol s) => s.isStatic = false
  | not _ => False
  | and l r | or l r => l.Reduced τ ∧ r.Reduced τ
  | symbol _ => True
  | equal a b | unequal a b => τ a = .boolean → b ≠ .no ∧ b ≠ .mod ∧ b ≠ .yes

/-- How often connectives are nested. -/
def Expr.height : Expr → ℕ
  | not e => e.height
  | and l r | or l r => max l.height r.height + 1
  | _ => 0

/-- A bound for the nesting of the calls of `expr_transform`. -/
def Expr.transformDepth : Expr → ℕ
  | not e => max e.transformDepth (2 * e.height + 1) + 1
  | and l r | or l r => max l.transformDepth r.transformDepth + 1
  | _ => 1

section Normal
variable {τ : Sym → SymType}

theorem Expr.Reduced.negatesSymbols {e : Expr} (h : e.Reduced τ) : e.NegatesSymbols := by
  induction e with
  | not e => cases e <;> exact h
  | and l r ihl ihr => exact ⟨ihl h.1, ihr h.2⟩
  | or l r ihl ihr => exact ⟨ihl h.1, ihr h.2⟩
  | _ => trivial

theorem Expr.Reduced.negate {e : Expr} (h : e.Reduced τ) : e.negate.Reduced τ := by
  induction e with
  | symbol s => cases s <;> trivial
  | not e =>
    cases e with
    | symbol s => trivial
    | _ => exact h.elim
  | and l r ihl ihr => exact ⟨ihl h.1, ihr h.2⟩
  | or l r ihl ihr => exact ⟨ihl h.1, ihr h.2⟩
  | equal a b => exact h
  | unequal a b => exact h

theorem Expr.height_negate (e : Expr) : e.negate.height = e.height := by
  induction e with
  | symbol s => cases s <;> rfl
  | not e => rfl
  | and l r ihl ihr => simp [negate, height, ihl, ihr]
  | or l r ihl ihr => simp [negate, height, ihl, ihr]
  | _ => rfl

/-- The static symbols have no type. -/
def StaticUntyped (τ : Sym → SymType) : Prop := ∀ s, s.isStatic = true → τ s = .unknown

theorem StaticUntyped.not_isStatic (hτ : StaticUntyped τ) {a : Sym} (ha : τ a = .boolean) :
    a.isStatic = false := by
  by_contra hs
  simp [hτ a (by simpa using hs)] at ha

theorem Expr.plain_equal_reduced (hτ : StaticUntyped τ) (a b : Sym) :
    ((equal a b).plain τ).Reduced τ ∧ ((equal a b).plain τ).height = 0 := by
  simp only [plain]
  split_ifs with h1 h2 h3 h4
  · exact ⟨fun h => absurd h h1, rfl⟩
  · exact ⟨hτ.not_isStatic (not_not.mp h1), rfl⟩
  · exact ⟨trivial, rfl⟩
  · exact ⟨trivial, rfl⟩
  · exact ⟨fun _ => ⟨h2, h3, h4⟩, rfl⟩

theorem Expr.plain_unequal_reduced (hτ : StaticUntyped τ) (a b : Sym) :
    ((unequal a b).plain τ).Reduced τ ∧ ((unequal a b).plain τ).height = 0 := by
  simp only [plain]
  split_ifs with h1 h2 h3 h4
  · exact ⟨fun h => absurd h h1, rfl⟩
  · exact ⟨trivial, rfl⟩
  · exact ⟨trivial, rfl⟩
  · exact ⟨hτ.not_isStatic (not_not.mp h1), rfl⟩
  · exact ⟨fun _ => ⟨h2, h3, h4⟩, rfl⟩

theorem Expr.normal_reduced (hτ : StaticUntyped τ) (e : Expr) :
    (e.normal τ).Reduced τ ∧ (e.normal τ).height ≤ e.height := by
  induction e with
  | not e ih => exact ⟨ih.1.negate, by rw [normal, height_negate]; exact ih.2⟩
  | and l r ihl ihr | or l r ihl ihr =>
    refine ⟨⟨ihl.1, ihr.1⟩, ?_⟩
    have hl := ihl.2
    have hr := ihr.2
    simp only [normal, height]
    omega
  | symbol s => exact ⟨trivial, le_rfl⟩
  | equal a b => exact (plain_equal_reduced hτ a b).imp id Eq.le
  | unequal a b => exact (plain_unequal_reduced hτ a b).imp id Eq.le

/-- What `expr_transform` makes of a node whose subexpressions are transformed. -/
def exprTransformNode (τ : Sym → SymType) (n : ℕ) (e : Expr) : Expr :=
  match e with
  | .not (.not a) => exprTransformAux τ n a
  | .not (.equal a b) => .unequal a b
  | .not (.unequal a b) => .equal a b
  | .not (.or a b) => exprTransformAux τ n (.and (.not a) (.not b))
  | .not (.and a b) => exprTransformAux τ n (.or (.not a) (.not b))
  | .not (.symbol .yes) => .symbol .no
  | .not (.symbol .mod) => .symbol .mod
  | .not (.symbol .no) => .symbol .yes
  | e => e.plain τ

theorem exprTransformAux_succ (n : ℕ) (e : Expr) : exprTransformAux τ (n + 1) e =
    exprTransformNode τ n (e.mapChildren (exprTransformAux τ n)) := by
  rw [exprTransformAux]
  generalize e.mapChildren (exprTransformAux τ n) = e'
  cases e' with
  | not e' => cases e' with
    | symbol s => cases s <;> rfl
    | _ => rfl
  | _ => rfl

theorem Expr.Reduced.plain {e : Expr} (h : e.Reduced τ) : e.plain τ = e := by
  cases e with
  | equal a b | unequal a b =>
    simp only [Expr.plain]
    split_ifs with h1 h2 h3 h4
    · rfl
    · exact absurd h2 (h (not_not.mp h1)).1
    · exact absurd h3 (h (not_not.mp h1)).2.1
    · exact absurd h4 (h (not_not.mp h1)).2.2
    · rfl
  | _ => rfl

/-- A reduced expression stays as it is. -/
theorem exprTransformAux_reduced (n : ℕ) {e : Expr} (h : e.Reduced τ) :
    exprTransformAux τ n e = e := by
  induction n generalizing e with
  | zero => rfl
  | succ n ih =>
    rw [exprTransformAux_succ]
    cases e with
    | symbol s => rfl
    | not e =>
      cases e with
      | symbol s =>
        rw [Expr.mapChildren, ih (e := .symbol s) trivial]
        cases s <;> first | rfl | simp [Expr.Reduced, Sym.isStatic] at h
      | _ => exact h.elim
    | and l r => rw [Expr.mapChildren, ih h.1, ih h.2]; rfl
    | or l r => rw [Expr.mapChildren, ih h.1, ih h.2]; rfl
    | equal a b => exact h.plain
    | unequal a b => exact h.plain

/-- The negation of a reduced expression is pushed down to the symbols. -/
theorem exprTransformNode_negate (n : ℕ) {e : Expr} (h : e.Reduced τ)
    (hn : 2 * e.height + 1 ≤ n) : exprTransformNode τ n (.not e) = e.negate := by
  induction e generalizing n with
  | symbol s => cases s <;> rfl
  | not e =>
    cases e with
    | symbol s => exact exprTransformAux_reduced n (e := .symbol s) trivial
    | _ => exact h.elim
  | and l r ihl ihr | or l r ihl ihr =>
    simp only [Expr.height] at hn
    obtain ⟨k, rfl⟩ : ∃ k, n = k + 1 + 1 := ⟨n - 2, by omega⟩
    have hl : exprTransformAux τ (k + 1) (.not l) = l.negate := by
      rw [exprTransformAux_succ, Expr.mapChildren, exprTransformAux_reduced k h.1]
      exact ihl k h.1 (by omega)
    have hr : exprTransformAux τ (k + 1) (.not r) = r.negate := by
      rw [exprTransformAux_succ, Expr.mapChildren, exprTransformAux_reduced k h.2]
      exact ihr k h.2 (by omega)
    simp only [exprTransformNode, Expr.negate]
    rw [exprTransformAux_succ, Expr.mapChildren, hl, hr]
    rfl
  | equal a b => rfl
  | unequal a b => rfl

/-- With enough fuel, the rewriter has ended with the normal form. -/
theorem exprTransformAux_normal (hτ : StaticUntyped τ) (n : ℕ) (e : Expr)
    (hn : e.transformDepth ≤ n) : exprTransformAux τ n e = e.normal τ := by
  induction e generalizing n with
  | not e ih =>
    simp only [Expr.transformDepth] at hn
    obtain ⟨k, rfl⟩ : ∃ k, n = k + 1 := ⟨n - 1, by omega⟩
    have hnorm := e.normal_reduced hτ
    rw [exprTransformAux_succ, Expr.mapChildren, ih k (by omega)]
    exact exprTransformNode_negate k hnorm.1 (by omega)
  | and l r ihl ihr | or l r ihl ihr =>
    simp only [Expr.transformDepth] at hn
    obtain ⟨k, rfl⟩ : ∃ k, n = k + 1 := ⟨n - 1, by omega⟩
    rw [exprTransformAux_succ, Expr.mapChildren, ihl k (by omega), ihr k (by omega)]
    rfl
  | symbol s | equal a b | unequal a b =>
    obtain ⟨k, rfl⟩ : ∃ k, n = k + 1 := ⟨n - 1, by simp only [Expr.transformDepth] at hn; omega⟩
    rw [exprTransformAux_succ]
    rfl

theorem Expr.height_lt_size (e : Expr) : e.height < e.size := by
  induction e with
  | and l r ihl ihr | or l r ihl ihr => simp only [height, size]; omega
  | not e ih => simp only [height, size]; omega
  | _ => simp [height, size]

theorem Expr.transformDepth_le (e : Expr) : e.transformDepth ≤ 4 * e.size := by
  induction e with
  | and l r ihl ihr | or l r ihl ihr => simp only [transformDepth, size]; omega
  | not e ih =>
    have := e.height_lt_size
    simp only [transformDepth, size]
    omega
  | _ => simp [transformDepth, size]

theorem exprTransform_normal (hτ : StaticUntyped τ) (e : Expr) :
    exprTransform τ e = e.normal τ := exprTransformAux_normal hτ _ e e.transformDepth_le

end Normal

section Correct
variable {type : Sym → SymType} {ρ : Sym → SymbolValue}

/-- `expr_transform` ends, keeps the value, and negates nothing but symbols. -/
theorem exprTransform_correct (h : Standard type ρ) (hs : StaticUntyped type)
    (hb : Booleans type ρ) (e : Expr) :
    (∀ n ≥ 4 * e.size, exprTransformAux type n e = exprTransform type e) ∧
      (exprTransform type e).value type ρ = e.value type ρ ∧
      (exprTransform type e).NegatesSymbols := by
  refine ⟨fun n hn => ?_, exprTransform_value h (fun _ _ => rfl) hb e, ?_⟩
  · rw [exprTransform_normal hs, exprTransformAux_normal hs n e (e.transformDepth_le.trans hn)]
  · rw [exprTransform_normal hs]
    exact (e.normal_reduced hs).1.negatesSymbols

end Correct

section Example

/-- All named symbols are tristate. -/
def tristateTypes : Sym → SymType
  | .config _ => .tristate
  | _ => .unknown

/-- The named symbols have given tristate values. -/
def tristateValues (f : Text → Tristate) : Sym → SymbolValue
  | .yes => ⟨.text ['y'], .yes⟩
  | .mod => ⟨.text ['m'], .mod⟩
  | .no => .no
  | .config n => ⟨.text ['n'], f n.text⟩
  | .const n => ⟨.text n.text, .no⟩
  | .choice _ => .no

theorem tristateValues_standard (f : Text → Tristate) :
    Standard tristateTypes (tristateValues f) := ⟨rfl, rfl, rfl, rfl, rfl, rfl, fun _ => rfl⟩

theorem tristateTypes_static : StaticUntyped tristateTypes := by
  intro s hs
  cases s <;> first | rfl | cases hs

theorem tristateTypes_booleans (ρ : Sym → SymbolValue) : Booleans tristateTypes ρ := by
  intro s hs
  cases s <;> cases hs

/-- `!(A || !(B = m))`. -/
def negatedOr : Expr :=
  .not (.or (.symbol (.config nameA)) (.not (.equal (.config nameB) .mod)))

theorem exprTransform_correct_negatedOr :
    (∀ n ≥ 4 * negatedOr.size,
      exprTransformAux tristateTypes n negatedOr = exprTransform tristateTypes negatedOr) ∧
      (exprTransform tristateTypes negatedOr).value tristateTypes (tristateValues fun _ => .mod) =
        negatedOr.value tristateTypes (tristateValues fun _ => .mod) ∧
      (exprTransform tristateTypes negatedOr).NegatesSymbols :=
  exprTransform_correct (tristateValues_standard _) tristateTypes_static
    (tristateTypes_booleans _) negatedOr

end Example

end Grasshopper.Kconfig
