import Grasshopper.Kconfig.Expr.Transform

/-! # `expr_join_or` and `expr_join_and` of `expr.c`

Each join rule is sound for all three values, as long as boolean symbols are never `m`.
-/

namespace Grasshopper.Kconfig

/-- `sym1` of the join functions, if the shape of `e1` allows one. -/
def joinSym1 : Expr → Option Sym
  | .symbol s | .equal s _ | .unequal s _ => some s
  | .not (.symbol s) | .not (.equal s _) | .not (.unequal s _) => some s
  | _ => none

/-- `sym2` of the join functions; under `E_NOT` only a symbol is allowed. -/
def joinSym2 : Expr → Option Sym
  | .symbol s | .equal s _ | .unequal s _ => some s
  | .not (.symbol s) => some s
  | _ => none

/-- `x` and `y` are the symbols `a` and `b` in one order or the other. -/
abbrev isPair (x y a b : Sym) : Prop := (x = a ∧ y = b) ∨ (x = b ∧ y = a)

/-- The rules of `expr_join_or` on two expressions about `sym`. -/
def joinOrRules (τ : Sym → SymType) (sym : Sym) : Expr → Expr → Option Expr
  | .equal _ x, .equal _ y =>
    if τ sym ≠ .tristate then none
    -- (a='y') || (a='m') -> (a!='n')
    else if isPair x y .yes .mod then some (.unequal sym .no)
    -- (a='y') || (a='n') -> (a!='m')
    else if isPair x y .yes .no then some (.unequal sym .mod)
    -- (a='m') || (a='n') -> (a!='y')
    else if isPair x y .mod .no then some (.unequal sym .yes)
    else none
  | .not (.symbol _), .symbol _ | .symbol _, .not (.symbol _) =>
    if τ sym = .boolean then some (.symbol .yes) else none
  | _, _ => none

/-- The rules of `expr_join_and` on two expressions about `sym`. -/
def joinAndRules (τ : Sym → SymType) (sym : Sym) : Expr → Expr → Option Expr
  | .symbol _, .equal _ x | .equal _ x, .symbol _ =>
    -- (a) && (a='y') -> (a='y')
    if x = .yes then some (.equal sym .yes) else none
  | .symbol _, .unequal _ x | .unequal _ x, .symbol _ =>
    -- (a) && (a!='n') -> (a)
    if x = .no then some (.symbol sym)
    -- (a) && (a!='m') -> (a='y')
    else if x = .mod then some (.equal sym .yes)
    else none
  | .equal _ x, .unequal _ y | .unequal _ y, .equal _ x =>
    -- (a='b') && (a!='c') -> 'b'='c' ? 'n' : a='b'
    if τ sym = .tristate ∧ y.isConst ∧ x.isConst then
      some (if x ≠ y then .equal sym x else .symbol .no)
    else none
  | .unequal _ x, .unequal _ y =>
    if τ sym ≠ .tristate then none
    -- (a!='y') && (a!='n') -> (a='m')
    else if isPair x y .yes .no then some (.equal sym .mod)
    -- (a!='y') && (a!='m') -> (a='n')
    else if isPair x y .yes .mod then some (.equal sym .no)
    -- (a!='m') && (a!='n') -> (a='y')
    else if isPair x y .mod .no then some (.equal sym .yes)
    else none
  | _, _ => none

/-- `expr_join_or` and `expr_join_and`: one expression worth both operands, if a rule applies. -/
def exprJoin (τ : Sym → SymType) (c : Conn) (e1 e2 : Expr) : Option Expr :=
  if exprEq e1 e2 then some e1
  else match joinSym1 e1, joinSym2 e2 with
    | some s1, some s2 =>
      if s1 ≠ s2 ∨ !(τ s1).isLogic then none
      else match c with
        | .or => joinOrRules τ s1 e1 e2
        | .and => joinAndRules τ s1 e1 e2
    | _, _ => none

section Soundness
variable {τ type : Sym → SymType} {ρ : Sym → SymbolValue}

/-- Constants with different symbols are different texts. -/
theorem Standard.const_string_inj (h : Standard type ρ) {x y : Sym} (hx : x.isConst)
    (hy : y.isConst) : symGetStringValue type ρ x = symGetStringValue type ρ y ↔ x = y := by
  constructor
  · intro he
    cases x <;> cases y <;> simp_all [Sym.isConst, h.string_yes, h.string_mod, h.string_no,
      h.string_const]
    all_goals first
      | exact absurd he (Name.free _).1
      | exact absurd he (Name.free _).2.1
      | exact absurd he (Name.free _).2.2
      | exact absurd he.symm (Name.free _).1
      | exact absurd he.symm (Name.free _).2.1
      | exact absurd he.symm (Name.free _).2.2
      | (rename_i n m; cases n; cases m; simp_all)
  · rintro rfl; rfl

/-- The comparisons of a logic symbol with the static symbols, as tests of its tristate. -/
theorem Standard.compare_values (h : Standard type ρ) {s : Sym} (hs : (type s).isLogic) :
    ((Expr.equal s .yes).value type ρ = if (ρ s).tri = .yes then .yes else .no) ∧
    ((Expr.equal s .mod).value type ρ = if (ρ s).tri = .mod then .yes else .no) ∧
    ((Expr.equal s .no).value type ρ = if (ρ s).tri = .no then .yes else .no) ∧
    ((Expr.unequal s .yes).value type ρ = if (ρ s).tri = .yes then .no else .yes) ∧
    ((Expr.unequal s .mod).value type ρ = if (ρ s).tri = .mod then .no else .yes) ∧
    ((Expr.unequal s .no).value type ρ = if (ρ s).tri = .no then .no else .yes) :=
  ⟨h.value_equal_static hs .yes, h.value_equal_static hs .mod, h.value_equal_static hs .no,
    h.value_unequal_static hs .yes, h.value_unequal_static hs .mod,
    h.value_unequal_static hs .no⟩

theorem joinOrRules_value (h : Standard type ρ) (hτ : TypesGrow τ type) (hb : Booleans type ρ)
    {s : Sym} {e1 e2 t : Expr} (h1 : joinSym1 e1 = some s) (h2 : joinSym2 e2 = some s)
    (hs : (τ s).isLogic) (ht : joinOrRules τ s e1 e2 = some t) :
    t.value type ρ = max (e1.value type ρ) (e2.value type ρ) := by
  obtain ⟨hts, hl⟩ := hτ.isLogic hs
  obtain ⟨ey, em, en, uy, um, un⟩ := h.compare_values hl
  have hm : τ s = .boolean → (ρ s).tri ≠ .mod := fun hτs => hb s (hτ.boolean hτs)
  unfold joinOrRules at ht
  split at ht
  · obtain rfl := Option.some_inj.mp h1
    obtain rfl := Option.some_inj.mp h2
    split_ifs at ht with h3 h4 h5 h6
    all_goals obtain rfl := Option.some_inj.mp ht
    · rcases h4 with ⟨rfl, rfl⟩ | ⟨rfl, rfl⟩ <;> rw [ey, em, un] <;>
        generalize (ρ _).tri = x <;> revert x <;> decide
    · rcases h5 with ⟨rfl, rfl⟩ | ⟨rfl, rfl⟩ <;> rw [ey, en, um] <;>
        generalize (ρ _).tri = x <;> revert x <;> decide
    · rcases h6 with ⟨rfl, rfl⟩ | ⟨rfl, rfl⟩ <;> rw [em, en, uy] <;>
        generalize (ρ _).tri = x <;> revert x <;> decide
  · obtain rfl := Option.some_inj.mp h1
    obtain rfl := Option.some_inj.mp h2
    split_ifs at ht with h3
    obtain rfl := Option.some_inj.mp ht
    have := hm h3
    simp only [Expr.value, h.yes]
    revert this; generalize (ρ _).tri = x; revert x; decide
  · obtain rfl := Option.some_inj.mp h1
    obtain rfl := Option.some_inj.mp h2
    split_ifs at ht with h3
    obtain rfl := Option.some_inj.mp ht
    have := hm h3
    simp only [Expr.value, h.yes]
    revert this; generalize (ρ _).tri = x; revert x; decide
  · simp at ht

/-- The rule for `(a='b') && (a!='c')` with constants `b` and `c`. -/
theorem join_equal_unequal (h : Standard type ρ) (s : Sym) {x y : Sym} (hx : x.isConst)
    (hy : y.isConst) :
    (if x ≠ y then Expr.equal s x else .symbol .no).value type ρ =
      min ((Expr.equal s x).value type ρ) ((Expr.unequal s y).value type ρ) := by
  by_cases hxy : x = y
  · subst hxy
    simp only [ne_eq, not_true_eq_false, if_false, h.value_no, Expr.value]
    split_ifs <;> rfl
  · simp only [ne_eq, hxy, not_false_eq_true, if_true, Expr.value]
    split_ifs with h1 h2
    · exact absurd ((h.const_string_inj hx hy).mp (h1.symm.trans h2)) hxy
    · rfl
    · rfl
    · rfl

theorem joinAndRules_value (h : Standard type ρ) (hτ : TypesGrow τ type)
    {s : Sym} {e1 e2 t : Expr} (h1 : joinSym1 e1 = some s) (h2 : joinSym2 e2 = some s)
    (hs : (τ s).isLogic) (ht : joinAndRules τ s e1 e2 = some t) :
    t.value type ρ = min (e1.value type ρ) (e2.value type ρ) := by
  obtain ⟨hts, hl⟩ := hτ.isLogic hs
  obtain ⟨ey, em, en, uy, um, un⟩ := h.compare_values hl
  unfold joinAndRules at ht
  split at ht
  all_goals first
    | (obtain rfl := Option.some_inj.mp h1; obtain rfl := Option.some_inj.mp h2)
    | simp at ht
  · split_ifs at ht with h3
    obtain rfl := Option.some_inj.mp ht
    rw [h3, ey]; simp only [Expr.value]
    generalize (ρ _).tri = x; revert x; decide
  · split_ifs at ht with h3
    obtain rfl := Option.some_inj.mp ht
    rw [h3, ey]; simp only [Expr.value]
    generalize (ρ _).tri = x; revert x; decide
  · split_ifs at ht with h3 h4
    · obtain rfl := Option.some_inj.mp ht
      rw [h3, un]; simp only [Expr.value]
      generalize (ρ _).tri = x; revert x; decide
    · obtain rfl := Option.some_inj.mp ht
      rw [h4, um, ey]; simp only [Expr.value]
      generalize (ρ _).tri = x; revert x; decide
  · split_ifs at ht with h3 h4
    · obtain rfl := Option.some_inj.mp ht
      rw [h3, un]; simp only [Expr.value]
      generalize (ρ _).tri = x; revert x; decide
    · obtain rfl := Option.some_inj.mp ht
      rw [h4, um, ey]; simp only [Expr.value]
      generalize (ρ _).tri = x; revert x; decide
  · split at ht
    · rename_i hc
      obtain rfl := Option.some_inj.mp ht
      exact join_equal_unequal h _ hc.2.2 hc.2.1
    · simp at ht
  · split at ht
    · rename_i hc
      obtain rfl := Option.some_inj.mp ht
      rw [min_comm]
      exact join_equal_unequal h _ hc.2.2 hc.2.1
    · simp at ht
  · split_ifs at ht with h3 h4 h5 h6
    all_goals obtain rfl := Option.some_inj.mp ht
    · rcases h4 with ⟨rfl, rfl⟩ | ⟨rfl, rfl⟩ <;> rw [uy, un, em] <;>
        generalize (ρ _).tri = x <;> revert x <;> decide
    · rcases h5 with ⟨rfl, rfl⟩ | ⟨rfl, rfl⟩ <;> rw [uy, um, en] <;>
        generalize (ρ _).tri = x <;> revert x <;> decide
    · rcases h6 with ⟨rfl, rfl⟩ | ⟨rfl, rfl⟩ <;> rw [um, un, ey] <;>
        generalize (ρ _).tri = x <;> revert x <;> decide

/-- A join is worth the two operands it replaces. -/
theorem exprJoin_value (h : Standard type ρ) (hτ : TypesGrow τ type) (hb : Booleans type ρ)
    {c : Conn} {e1 e2 t : Expr} (ht : exprJoin τ c e1 e2 = some t) :
    t.value type ρ = c.op (e1.value type ρ) (e2.value type ρ) := by
  unfold exprJoin at ht
  split_ifs at ht with heq
  · obtain rfl := Option.some_inj.mp ht
    rw [← exprEq_sound h _ _ heq]
    generalize Expr.value type ρ _ = x
    revert x; cases c <;> decide
  · split at ht
    · rename_i s1 s2 h1 h2
      split_ifs at ht with hs
      obtain ⟨hs, hl⟩ := not_or.mp hs
      obtain rfl := not_not.mp hs
      have hl : (τ s1).isLogic = true := by simpa using hl
      cases c with
      | or => exact joinOrRules_value h hτ hb h1 h2 hl ht
      | and => exact joinAndRules_value h hτ h1 h2 hl ht
    · simp at ht

/-- A join has no operand that is `m` unless one of the two had. -/
theorem exprJoin_crisp (h : Standard type ρ) {c : Conn} {e1 e2 t : Expr} (h1 : Crisp ρ e1)
    (h2 : Crisp ρ e2) (ht : exprJoin τ c e1 e2 = some t) : Crisp ρ t := by
  have hyes : (ρ .yes).tri ≠ .mod := by simp [h.yes]
  have hno : (ρ .no).tri ≠ .mod := by simp [h.no]
  unfold exprJoin at ht
  split_ifs at ht with heq
  · obtain rfl := Option.some_inj.mp ht
    exact h1
  · split at ht
    · rename_i s1 s2 hs1 hs2
      split_ifs at ht with hs
      obtain rfl := not_not.mp (not_or.mp hs).1
      cases c with
      | or =>
        simp only [joinOrRules] at ht
        split at ht
        · split_ifs at ht <;> obtain rfl := Option.some_inj.mp ht <;> trivial
        · split_ifs at ht; obtain rfl := Option.some_inj.mp ht; exact hyes
        · split_ifs at ht; obtain rfl := Option.some_inj.mp ht; exact hyes
        · simp at ht
      | and =>
        simp only [joinAndRules] at ht
        split at ht
        · split_ifs at ht; obtain rfl := Option.some_inj.mp ht; trivial
        · split_ifs at ht; obtain rfl := Option.some_inj.mp ht; trivial
        · obtain rfl := Option.some_inj.mp hs1
          split_ifs at ht <;> obtain rfl := Option.some_inj.mp ht
          · exact h1
          · trivial
        · obtain rfl := Option.some_inj.mp hs2
          split_ifs at ht <;> obtain rfl := Option.some_inj.mp ht
          · exact h2
          · trivial
        · split at ht
          · obtain rfl := Option.some_inj.mp ht
            split_ifs
            · trivial
            · exact hno
          · simp at ht
        · split at ht
          · obtain rfl := Option.some_inj.mp ht
            split_ifs
            · trivial
            · exact hno
          · simp at ht
        · split_ifs at ht <;> obtain rfl := Option.some_inj.mp ht <;> trivial
        · simp at ht
    · simp at ht

end Soundness

end Grasshopper.Kconfig
