import Grasshopper.Kconfig.Expr.Normal

/-! # What `expr_trans_compare` computes

The comparison with `y` or `n` is passed down to the operands, through a negation by asking for the
other relation. That is right for two values. An operand that is `m` then counts as `n` in a
comparison with `y`, and as `y` in one with `n`.
-/

namespace Grasshopper.Kconfig

section Rounded
variable (type : Sym → SymType) (ρ : Sym → SymbolValue)

/-- The value of an expression when `m` counts as `t` for every operand. -/
def Expr.rounded (t : Tristate) : Expr → Tristate
  | .symbol s => if (ρ s).tri = .mod then t else (ρ s).tri
  | .not e => (e.rounded t).eNot
  | .and l r => min (l.rounded t) (r.rounded t)
  | .or l r => max (l.rounded t) (r.rounded t)
  | .equal a b => (Expr.equal a b).value type ρ
  | .unequal a b => (Expr.unequal a b).value type ρ

/-- The rounded value of an expression pointer. -/
def optRounded (t : Tristate) : Option Expr → Tristate
  | none => .yes
  | some e => e.rounded type ρ t

/-- The string value of every operand that is no comparison is the letter of its tristate. -/
def Expr.TristateOperands : Expr → Prop
  | .symbol s => symGetStringValue type ρ s = (ρ s).tri.letter
  | .not e => e.TristateOperands
  | .and l r | .or l r => l.TristateOperands ∧ r.TristateOperands
  | .equal _ _ | .unequal _ _ => True

end Rounded

/-- What a comparison says: `y` if it holds and `n` otherwise. -/
def CompareType.answer (type : CompareType) (a b : Tristate) : Tristate :=
  match type with
  | equal => if a = b then .yes else .no
  | unequal => if a = b then .no else .yes

section Compare
variable {type : Sym → SymType} {ρ : Sym → SymbolValue}

theorem CompareType.flip_answer (c : CompareType) {a : Tristate} (ha : a ≠ .mod) {s : Tristate}
    (hs : s ≠ .mod) : c.flip.answer a s = c.answer a.eNot s := by
  revert ha hs; revert a s; cases c <;> decide

theorem CompareType.wrap_value (c : CompareType) (e : Expr) {a s : Tristate}
    (he : e.value type ρ = CompareType.equal.answer a s) :
    (c.wrap e).value type ρ = c.answer a s := by
  cases c with
  | equal => exact he
  | unequal =>
    simp only [wrap, Expr.value, he, answer]
    split_ifs <;> rfl

variable (type ρ) in
theorem Expr.rounded_ne_mod {t : Tristate} (hto : t ≠ .mod) (e : Expr) :
    e.rounded type ρ t ≠ .mod := by
  induction e with
  | symbol s =>
    simp only [rounded]
    split_ifs with h
    · exact hto
    · exact h
  | not e ih =>
    revert ih
    simp only [rounded]
    generalize e.rounded type ρ t = a
    revert a; decide
  | and l r ihl ihr | or l r ihl ihr =>
    revert ihl ihr
    simp only [rounded]
    generalize l.rounded type ρ t = a
    generalize r.rounded type ρ t = b
    revert a b; decide
  | equal a b | unequal a b => simp only [rounded, Expr.value]; split_ifs <;> decide

/-- The value of the comparison: that of the rounded expression, compared. -/
theorem exprTransCompareExpr_value (h : Standard type ρ) {sym : Tristate} (hs : sym ≠ .mod)
    (c : CompareType) (e : Expr) (he : e.TristateOperands type ρ) :
    (exprTransCompareExpr c sym e).value type ρ =
      c.answer (e.rounded type ρ sym.eNot) sym := by
  have hto : sym.eNot ≠ .mod := by revert hs; revert sym; decide
  induction e generalizing c with
  | symbol s =>
    have hsym : symGetStringValue type ρ sym.symbol = sym.letter := by
      cases sym
      · exact h.string_no
      · exact h.string_mod
      · exact h.string_yes
    have hval : (Expr.equal s sym.symbol).value type ρ =
        if (ρ s).tri = sym then .yes else .no := by
      simp only [Expr.value, hsym, show symGetStringValue type ρ s = _ from he,
        Tristate.letter_injective.eq_iff]
    have hround (a : Tristate) : ((if a = .mod then sym.eNot else a) = sym) ↔ a = sym := by
      cases sym with
      | mod => exact absurd rfl hs
      | yes | no => revert a; decide
    cases c with
    | equal =>
      rw [exprTransCompareExpr, hval]
      simp only [CompareType.answer, Expr.rounded, hround]
    | unequal =>
      rw [exprTransCompareExpr, Expr.value_unequal, hval]
      simp only [CompareType.answer, Expr.rounded, hround]
      split_ifs <;> rfl
  | not e ih =>
    rw [exprTransCompareExpr, ih c.flip he]
    exact c.flip_answer (e.rounded_ne_mod type ρ hto) hs
  | and l r ihl ihr | or l r ihl ihr =>
    unfold exprTransCompareExpr
    refine c.wrap_value _ ?_
    have hl := ihl .equal he.1
    have hr := ihr .equal he.2
    have hlm := l.rounded_ne_mod type ρ hto
    have hrm := r.rounded_ne_mod type ρ hto
    cases sym with
    | mod => exact absurd rfl hs
    | yes | no =>
      dsimp only
      simp only [Expr.value, hl, hr, Expr.rounded]
      revert hlm hrm
      generalize l.rounded type ρ _ = a
      generalize r.rounded type ρ _ = b
      revert a b; decide
  | equal a b | unequal a b =>
    have hm := Expr.rounded_ne_mod type ρ hto (.equal a b)
    have hm' := Expr.rounded_ne_mod type ρ hto (.unequal a b)
    simp only [Expr.rounded] at hm hm' ⊢
    cases sym with
    | mod => exact absurd rfl hs
    | yes | no =>
      cases c <;> simp only [exprTransCompareExpr, CompareType.answer, Expr.value] <;>
        split_ifs <;> simp_all [Tristate.eNot]

/-- Rounding changes no value but `m`. -/
theorem Expr.rounded_eq (t : Tristate) (e : Expr) :
    e.value type ρ = .mod ∨ e.rounded type ρ t = e.value type ρ := by
  induction e with
  | symbol s =>
    by_cases hs : (ρ s).tri = .mod
    · exact .inl hs
    · exact .inr (if_neg hs)
  | not e ih =>
    simp only [Expr.value, rounded]
    rcases ih with ih | ih
    · exact .inl (by rw [ih]; rfl)
    · exact .inr (by rw [ih])
  | and l r ihl ihr | or l r ihl ihr =>
    simp only [Expr.value, rounded]
    revert ihl ihr
    generalize l.value type ρ = a
    generalize l.rounded type ρ t = a'
    generalize r.value type ρ = b
    generalize r.rounded type ρ t = b'
    revert a a' b b'; decide
  | equal a b | unequal a b => exact .inr rfl

/-- The comparison of an expression pointer with `y` or `n`. -/
theorem exprTransCompare_value (h : Standard type ρ) {sym : Tristate} (hs : sym ≠ .mod)
    (c : CompareType) (e : Option Expr) (he : ∀ e' ∈ e, e'.TristateOperands type ρ) :
    (exprTransCompare e c sym).value type ρ =
      c.answer (optRounded type ρ sym.eNot e) sym := by
  cases e with
  | none =>
    refine c.wrap_value _ ?_
    cases sym with
    | mod => exact absurd rfl hs
    | yes => exact h.value_yes
    | no => exact h.value_no
  | some e => exact exprTransCompareExpr_value h hs c e (he e rfl)

/-- `expr_trans_compare` is right unless the expression is `m` and reading the operands that are
`m` as the other constant makes it the constant of the comparison. -/
theorem exprTransCompare_correct_iff (h : Standard type ρ) (sym : Tristate) (hs : sym ≠ .mod)
    (e : Option Expr) (he : ∀ e' ∈ e, e'.TristateOperands type ρ) :
    ((exprTransCompare e .equal sym).value type ρ =
        CompareType.equal.answer (optValue type ρ e) sym ∧
      (exprTransCompare e .unequal sym).value type ρ =
        CompareType.unequal.answer (optValue type ρ e) sym) ↔
    ¬(optValue type ρ e = .mod ∧ optRounded type ρ sym.eNot e = sym) := by
  rw [exprTransCompare_value h hs _ e he, exprTransCompare_value h hs _ e he]
  by_cases hm : optValue type ρ e = .mod
  · rw [hm]
    generalize optRounded type ρ sym.eNot e = a
    revert hs; revert a sym; decide
  · have hr : optRounded type ρ sym.eNot e = optValue type ρ e := by
      cases e with
      | none => rfl
      | some e => exact (e.rounded_eq sym.eNot).resolve_left hm
    simp [hr, hm]

end Compare

section Example

/-- `!A`. -/
def negatedSymbol : Expr := .not (.symbol (.config nameA))

/-- Where `A` is `m`, so is `!A`, and the comparison of `!A` with `y` says `y`. -/
theorem exprTransCompare_negatedSymbol :
    ¬((exprTransCompare (some negatedSymbol) .equal .yes).value tristateTypes
        (tristateValues fun _ => .mod) = CompareType.equal.answer (optValue tristateTypes
          (tristateValues fun _ => .mod) (some negatedSymbol)) .yes) := by decide

theorem exprTransCompare_correct_negatedSymbol :
    ((exprTransCompare (some negatedSymbol) .equal .yes).value tristateTypes
          (tristateValues fun _ => .no) = CompareType.equal.answer (optValue tristateTypes
            (tristateValues fun _ => .no) (some negatedSymbol)) .yes ∧
        (exprTransCompare (some negatedSymbol) .unequal .yes).value tristateTypes
          (tristateValues fun _ => .no) = CompareType.unequal.answer (optValue tristateTypes
            (tristateValues fun _ => .no) (some negatedSymbol)) .yes) ↔
      ¬(optValue tristateTypes (tristateValues fun _ => .no) (some negatedSymbol) = .mod ∧
        optRounded tristateTypes (tristateValues fun _ => .no) Tristate.yes.eNot
          (some negatedSymbol) = .yes) :=
  exprTransCompare_correct_iff (tristateValues_standard _) .yes (by decide) _ (by
    rintro _ ⟨⟩
    rfl)

end Example

end Grasshopper.Kconfig
