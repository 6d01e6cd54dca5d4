import Grasshopper.Kconfig.Expr.Equality

/-! # `expr_transform`, `expr_trans_bool`, `expr_trans_compare` and the symbol tests of `expr.c`

The rewriters look at the types the symbols have when they run. `menu_finalize` still types
choices and their members while it rewrites, so soundness compares the types `τ` seen by the
rewriter with the final ones: a type once given stays.
-/

namespace Grasshopper.Kconfig

/-- Apply `f` to the subexpressions of a node. -/
def Expr.mapChildren (f : Expr → Expr) : Expr → Expr
  | not a => not (f a)
  | and l r => and (f l) (f r)
  | or l r => or (f l) (f r)
  | e => e

/-- `expr_transform`, with fuel for the calls it makes on the node it has just rewritten. -/
def exprTransformAux (τ : Sym → SymType) : ℕ → Expr → Expr
  | 0, e => e
  | n + 1, e =>
    match e.mapChildren (exprTransformAux τ n) with
    | .equal a b =>
      if τ a ≠ .boolean then .equal a b
      else if b = .no then .not (.symbol a)
      else if b = .mod then .symbol .no
      else if b = .yes then .symbol a
      else .equal a b
    | .unequal a b =>
      if τ a ≠ .boolean then .unequal a b
      else if b = .no then .symbol a
      else if b = .mod then .symbol .yes
      else if b = .yes then .not (.symbol a)
      else .unequal a b
    | .not (.not a) => exprTransformAux τ n a
    | .not (.equal a b) => .unequal a b
    | .not (.unequal a b) => .equal a b
    | .not (.or a b) => exprTransformAux τ n (.and (.not a) (.not b))
    | .not (.and a b) => exprTransformAux τ n (.or (.not a) (.not b))
    | .not (.symbol .yes) => .symbol .no
    | .not (.symbol .mod) => .symbol .mod
    | .not (.symbol .no) => .symbol .yes
    | e => e

def exprTransform (τ : Sym → SymType) (e : Expr) : Expr := exprTransformAux τ (4 * e.size) e

/-- `expr_trans_bool`: `FOO!=n` becomes `FOO` for a tristate `FOO`. -/
def exprTransBool (τ : Sym → SymType) : Expr → Expr
  | .and l r => .and (exprTransBool τ l) (exprTransBool τ r)
  | .or l r => .or (exprTransBool τ l) (exprTransBool τ r)
  | .not e => .not (exprTransBool τ e)
  | .unequal a b => if τ a = .tristate ∧ b = .no then .symbol a else .unequal a b
  | e => e

/-- The two relations `expr_trans_compare` is called with, `E_EQUAL` and `E_UNEQUAL`. -/
inductive CompareType where
  | equal | unequal
deriving DecidableEq

def CompareType.flip : CompareType → CompareType
  | equal => unequal
  | unequal => equal

/-- `if (type == E_UNEQUAL) e = expr_alloc_one(E_NOT, e)`. -/
def CompareType.wrap (type : CompareType) (e : Expr) : Expr :=
  match type with
  | equal => e
  | unequal => .not e

/-- The static symbol of a tristate constant. -/
def Tristate.symbol : Tristate → Sym
  | .no => .no
  | .mod => .mod
  | .yes => .yes

/-- `expr_trans_compare` on an expression, for `sym` one of the three static symbols. -/
def exprTransCompareExpr (type : CompareType) (sym : Tristate) : Expr → Expr
  | .and l r =>
    let e1 := exprTransCompareExpr .equal sym l
    let e2 := exprTransCompareExpr .equal sym r
    type.wrap (match sym with
      | .yes => .and e1 e2
      | .no => .or e1 e2
      | .mod => .and l r)
  | .or l r =>
    let e1 := exprTransCompareExpr .equal sym l
    let e2 := exprTransCompareExpr .equal sym r
    type.wrap (match sym with
      | .yes => .or e1 e2
      | .no => .and e1 e2
      | .mod => .or l r)
  | .not e => exprTransCompareExpr type.flip sym e
  | .symbol s =>
    match type with
    | .equal => .equal s sym.symbol
    | .unequal => .unequal s sym.symbol
  | e =>
    match type, sym with
    | .equal, .yes | .unequal, .no => e
    | .equal, .mod => .symbol .no
    | .unequal, .mod => .symbol .yes
    | .equal, .no | .unequal, .yes => .not e

/-- `expr_trans_compare`. -/
def exprTransCompare (e : Option Expr) (type : CompareType) (sym : Tristate) : Expr :=
  match e with
  | none => type.wrap (.symbol sym.symbol)
  | some e => exprTransCompareExpr type sym e

/-- `expr_contains_symbol`. -/
def exprContainsSymbol (dep : Option Expr) (sym : Sym) : Bool := decide (sym ∈ optSyms dep)

/-- `expr_depends_symbol`. -/
def exprDependsSymbol (sym : Sym) : Expr → Bool
  | .and l r => exprDependsSymbol sym l || exprDependsSymbol sym r
  | .symbol s => s = sym
  | .equal a b => a = sym ∧ (b = .yes ∨ b = .mod)
  | .unequal a b => a = sym ∧ b = .no
  | _ => false

/-! ## Values under the rewriters -/

/-- The types `τ` seen during finalization, against the final ones. -/
def TypesGrow (τ type : Sym → SymType) : Prop := ∀ s, τ s ≠ .unknown → type s = τ s

/-- A boolean symbol is never `m`. -/
def Booleans (type : Sym → SymType) (ρ : Sym → SymbolValue) : Prop :=
  ∀ s, type s = .boolean → (ρ s).tri ≠ .mod

/-- No symbol with a bool or tristate type is `m`. -/
def TwoValued (type : Sym → SymType) (ρ : Sym → SymbolValue) : Prop :=
  ∀ s, (type s).isLogic → (ρ s).tri ≠ .mod

theorem TwoValued.booleans {type : Sym → SymType} {ρ : Sym → SymbolValue}
    (h : TwoValued type ρ) : Booleans type ρ :=
  fun s hs => h s (by simp [hs, SymType.isLogic])

/-- No operand of the expression is `m`. -/
def Crisp (ρ : Sym → SymbolValue) : Expr → Prop
  | .symbol s => (ρ s).tri ≠ .mod
  | .not e => Crisp ρ e
  | .and l r | .or l r => Crisp ρ l ∧ Crisp ρ r
  | .equal _ _ | .unequal _ _ => True

section Soundness
variable {τ type : Sym → SymType} {ρ : Sym → SymbolValue}

theorem Crisp.value_ne_mod {e : Expr} (h : Crisp ρ e) : e.value type ρ ≠ .mod := by
  induction e with
  | symbol s => exact h
  | not e ih =>
    have := ih h
    revert this
    simp only [Expr.value]
    generalize e.value type ρ = a
    revert a; decide
  | and l r ihl ihr | or l r ihl ihr =>
    have hl := ihl h.1
    have hr := ihr h.2
    revert hl hr
    simp only [Expr.value]
    generalize l.value type ρ = a
    generalize r.value type ρ = b
    revert a b; decide
  | equal a b | unequal a b =>
    simp only [Expr.value]
    split_ifs <;> decide

/-- A comparison of a bool or tristate symbol with a static symbol looks at its tristate. -/
theorem Standard.value_equal_static (h : Standard type ρ) {a : Sym} (ha : (type a).isLogic)
    (t : Tristate) : (Expr.equal a t.symbol).value type ρ = if (ρ a).tri = t then .yes else .no := by
  have hs : symGetStringValue type ρ t.symbol = t.letter := by
    cases t
    · exact h.string_no
    · exact h.string_mod
    · exact h.string_yes
  simp only [Expr.value, hs]
  simp only [symGetStringValue, ha, if_true, Tristate.letter_injective.eq_iff]

theorem Standard.value_unequal_static (h : Standard type ρ) {a : Sym} (ha : (type a).isLogic)
    (t : Tristate) : (Expr.unequal a t.symbol).value type ρ = if (ρ a).tri = t then .no else .yes := by
  rw [Expr.value_unequal, h.value_equal_static ha]
  split_ifs <;> rfl

theorem TypesGrow.boolean (hτ : TypesGrow τ type) {s : Sym} (h : τ s = .boolean) :
    type s = .boolean := by
  rw [hτ s (by simp [h]), h]

theorem TypesGrow.isLogic (hτ : TypesGrow τ type) {s : Sym} (h : (τ s).isLogic) :
    type s = τ s ∧ (type s).isLogic := by
  have hs : type s = τ s := hτ s (by intro hu; simp [hu, SymType.isLogic] at h)
  exact ⟨hs, hs ▸ h⟩

theorem Expr.mapChildren_value {f : Expr → Expr}
    (hf : ∀ e, (f e).value type ρ = e.value type ρ) (e : Expr) :
    (e.mapChildren f).value type ρ = e.value type ρ := by
  cases e <;> simp only [mapChildren, Expr.value, hf]

theorem Expr.mapChildren_crisp {f : Expr → Expr} (hf : ∀ e, Crisp ρ e → Crisp ρ (f e))
    (e : Expr) (he : Crisp ρ e) : Crisp ρ (e.mapChildren f) := by
  cases e with
  | not e => exact hf e he
  | and l r => exact ⟨hf l he.1, hf r he.2⟩
  | or l r => exact ⟨hf l he.1, hf r he.2⟩
  | symbol s => exact he
  | equal a b => exact he
  | unequal a b => exact he

theorem transform_equal_value (h : Standard type ρ) (hτ : TypesGrow τ type)
    (hb : Booleans type ρ) {a b : Sym} (ha : τ a = .boolean) :
    (b = .no → ((Expr.symbol a).not).value type ρ = (Expr.equal a b).value type ρ) ∧
    (b = .mod → (Expr.symbol .no).value type ρ = (Expr.equal a b).value type ρ) ∧
    (b = .yes → (Expr.symbol a).value type ρ = (Expr.equal a b).value type ρ) := by
  have hl : (type a).isLogic := by simp [hτ.boolean ha, SymType.isLogic]
  have hm := hb a (hτ.boolean ha)
  refine ⟨?_, ?_, ?_⟩
  · rintro rfl
    rw [show Sym.no = Tristate.no.symbol from rfl, h.value_equal_static hl]
    simp only [Expr.value]
    revert hm; generalize (ρ a).tri = x; revert x; decide
  · rintro rfl
    rw [show Sym.mod = Tristate.mod.symbol from rfl, h.value_equal_static hl, if_neg hm]
    exact h.no
  · rintro rfl
    rw [show Sym.yes = Tristate.yes.symbol from rfl, h.value_equal_static hl]
    simp only [Expr.value]
    revert hm; generalize (ρ a).tri = x; revert x; decide

theorem transform_unequal_value (h : Standard type ρ) (hτ : TypesGrow τ type)
    (hb : Booleans type ρ) {a b : Sym} (ha : τ a = .boolean) :
    (b = .no → (Expr.symbol a).value type ρ = (Expr.unequal a b).value type ρ) ∧
    (b = .mod → (Expr.symbol .yes).value type ρ = (Expr.unequal a b).value type ρ) ∧
    (b = .yes → ((Expr.symbol a).not).value type ρ = (Expr.unequal a b).value type ρ) := by
  obtain ⟨hn, hm, hy⟩ := transform_equal_value h hτ hb (b := b) ha
  rw [Expr.value_unequal]
  refine ⟨fun hb => ?_, fun hb => ?_, fun hb => ?_⟩
  · rw [← hn hb]; exact (Tristate.eNot_eNot _).symm
  · rw [← hm hb, h.value_no]; exact h.value_yes
  · rw [← hy hb]; rfl

/-- `expr_transform` keeps the value, for `m` as well: only boolean symbols must not be `m`. -/
theorem exprTransformAux_value (h : Standard type ρ) (hτ : TypesGrow τ type)
    (hb : Booleans type ρ) (n : ℕ) (e : Expr) :
    (exprTransformAux τ n e).value type ρ = e.value type ρ := by
  induction n generalizing e with
  | zero => rfl
  | succ n ih =>
    unfold exprTransformAux
    rw [← Expr.mapChildren_value ih e]
    generalize e.mapChildren (exprTransformAux τ n) = e'
    split
    · split_ifs with h1 h2 h3 h4
      · rfl
      · exact (transform_equal_value h hτ hb (not_not.mp h1)).1 h2
      · exact (transform_equal_value h hτ hb (not_not.mp h1)).2.1 h3
      · exact (transform_equal_value h hτ hb (not_not.mp h1)).2.2 h4
      · rfl
    · split_ifs with h1 h2 h3 h4
      · rfl
      · exact (transform_unequal_value h hτ hb (not_not.mp h1)).1 h2
      · exact (transform_unequal_value h hτ hb (not_not.mp h1)).2.1 h3
      · exact (transform_unequal_value h hτ hb (not_not.mp h1)).2.2 h4
      · rfl
    · rw [ih]; simp only [Expr.value, Tristate.eNot_eNot]
    · rw [Expr.value_unequal]; rfl
    · simp only [Expr.value]; split_ifs <;> rfl
    · rw [ih]; simp only [Expr.value, Tristate.eNot_max]
    · rw [ih]; simp only [Expr.value, Tristate.eNot_min]
    · simp only [Expr.value, h.yes, h.no]; rfl
    · simp only [Expr.value, h.mod]; rfl
    · simp only [Expr.value, h.yes, h.no]; rfl
    · rfl

theorem exprTransform_value (h : Standard type ρ) (hτ : TypesGrow τ type) (hb : Booleans type ρ)
    (e : Expr) : (exprTransform τ e).value type ρ = e.value type ρ :=
  exprTransformAux_value h hτ hb _ e

theorem exprTransformAux_crisp (h : Standard type ρ) (hτ : TypesGrow τ type)
    (hb : Booleans type ρ) (n : ℕ) (e : Expr) (he : Crisp ρ e) :
    Crisp ρ (exprTransformAux τ n e) := by
  induction n generalizing e with
  | zero => exact he
  | succ n ih =>
    unfold exprTransformAux
    have children := Expr.mapChildren_crisp ih e he
    generalize e.mapChildren (exprTransformAux τ n) = e' at children ⊢
    have hyes : (ρ .yes).tri ≠ .mod := by simp [h.yes]
    have hno : (ρ .no).tri ≠ .mod := by simp [h.no]
    have bool {a : Sym} (ha : ¬τ a ≠ .boolean) : (ρ a).tri ≠ .mod :=
      hb a (hτ.boolean (not_not.mp ha))
    split
    · split_ifs with h1 h2 h3 h4
      · trivial
      · exact bool h1
      · exact hno
      · exact bool h1
      · trivial
    · split_ifs with h1 h2 h3 h4
      · trivial
      · exact bool h1
      · exact hyes
      · exact bool h1
      · trivial
    · exact ih _ children
    · trivial
    · trivial
    · exact ih _ children
    · exact ih _ children
    · exact hno
    · exact children
    · exact hyes
    · exact children

theorem exprTransform_crisp (h : Standard type ρ) (hτ : TypesGrow τ type) (hb : Booleans type ρ)
    (e : Expr) (he : Crisp ρ e) : Crisp ρ (exprTransform τ e) :=
  exprTransformAux_crisp h hτ hb _ e he

/-- `expr_trans_bool` keeps the value where no tristate symbol is `m`. -/
theorem exprTransBool_value (h : Standard type ρ) (hτ : TypesGrow τ type)
    (h2 : TwoValued type ρ) (e : Expr) :
    (exprTransBool τ e).value type ρ = e.value type ρ := by
  induction e with
  | symbol s => rfl
  | not e ih => simp only [exprTransBool, Expr.value, ih]
  | and l r ihl ihr | or l r ihl ihr => simp only [exprTransBool, Expr.value, ihl, ihr]
  | equal a b => rfl
  | unequal a b =>
    unfold exprTransBool
    split_ifs with hab
    · obtain ⟨ha, rfl⟩ := hab
      have hl := hτ.isLogic (s := a) (by simp [ha, SymType.isLogic])
      have hm := h2 a hl.2
      rw [show Sym.no = Tristate.no.symbol from rfl, h.value_unequal_static hl.2]
      simp only [Expr.value]
      revert hm; generalize (ρ a).tri = x; revert x; decide
    · rfl

theorem exprTransBool_crisp (hτ : TypesGrow τ type) (h2 : TwoValued type ρ) (e : Expr)
    (he : Crisp ρ e) : Crisp ρ (exprTransBool τ e) := by
  induction e with
  | symbol s => exact he
  | not e ih => exact ih he
  | and l r ihl ihr => exact ⟨ihl he.1, ihr he.2⟩
  | or l r ihl ihr => exact ⟨ihl he.1, ihr he.2⟩
  | equal a b => trivial
  | unequal a b =>
    unfold exprTransBool
    split_ifs with hab
    · exact h2 a (hτ.isLogic (s := a) (by simp [hab.1, SymType.isLogic])).2
    · trivial

end Soundness

end Grasshopper.Kconfig
