import Grasshopper.Kconfig.Expr.Basic

/-! # `expr_eliminate_yn`, `expr_eq`, `expr_eliminate_eq` and `expr_extract_eq` of `expr.c`

The rewriters walk the operands of an `E_AND` or `E_OR` chain through pointers. Here one
generic walk, `visit`, threads a state from the left operand to the right one and rebuilds the
chain; every rewriter is that walk with its own action on an operand. `trans_count` is local to
`expr_eliminate_dups`, since `expr_eq` restores it.
-/

namespace Grasshopper.Kconfig

/-- The two chain types, `E_AND` and `E_OR`. -/
inductive Conn where
  | and | or
deriving DecidableEq

namespace Conn

def mk : Conn → Expr → Expr → Expr
  | and => .and
  | or => .or

def op : Conn → Tristate → Tristate → Tristate
  | and => min
  | or => max

/-- The symbol a cancelled operand is replaced by: `y` in a conjunction, `n` in a disjunction. -/
def neutral : Conn → Sym
  | and => .yes
  | or => .no

def dual : Conn → Conn
  | and => or
  | or => and

/-- The value of the neutral symbol. -/
def unit : Conn → Tristate
  | and => .yes
  | or => .no

@[simp] theorem op_unit (c : Conn) (a : Tristate) : c.op a c.unit = a := by cases c <;> simp [op, unit]
@[simp] theorem unit_op (c : Conn) (a : Tristate) : c.op c.unit a = a := by cases c <;> simp [op, unit]
theorem op_assoc (c : Conn) (x y z : Tristate) : c.op (c.op x y) z = c.op x (c.op y z) := by
  cases c
  · exact min_assoc x y z
  · exact max_assoc x y z
theorem op_comm (c : Conn) (x y : Tristate) : c.op x y = c.op y x := by
  cases c
  · exact min_comm x y
  · exact max_comm x y

theorem op_op_op_comm (c : Conn) (w x y z : Tristate) :
    c.op (c.op w x) (c.op y z) = c.op (c.op w y) (c.op x z) := by
  revert w x y z; cases c <;> decide

theorem op_mono (c : Conn) (k : Tristate) : Monotone fun a => c.op a k := by
  cases c
  · exact fun a b h => min_le_min_right k h
  · exact fun a b h => max_le_max_right k h

end Conn

namespace Expr

/-- The chain type of an expression, if it is a chain. -/
def conn? : Expr → Option Conn
  | and _ _ => some .and
  | or _ _ => some .or
  | _ => none

/-- Visit the operands of a chain of type `c` from left to right, replacing each. -/
def visit {σ : Type} (c : Conn) (f : σ → Expr → σ × Expr) : σ → Expr → σ × Expr
  | s, and l r =>
    if c = .and then
      let (s, l) := visit c f s l
      let (s, r) := visit c f s r
      (s, and l r)
    else f s (and l r)
  | s, or l r =>
    if c = .or then
      let (s, l) := visit c f s l
      let (s, r) := visit c f s r
      (s, or l r)
    else f s (or l r)
  | s, e => f s e

/-- What holds of the action on one operand and composes along a chain holds of the walk. -/
theorem visit_rel {σ : Type} {c : Conn} {f : σ → Expr → σ × Expr}
    {R : σ → Expr → σ → Expr → Prop}
    (leaf : ∀ s e, R s e (f s e).1 (f s e).2)
    (chain : ∀ s l s₁ l' r s₂ r', R s l s₁ l' → R s₁ r s₂ r' → R s (c.mk l r) s₂ (c.mk l' r'))
    (e : Expr) (s : σ) : R s e (e.visit c f s).1 (e.visit c f s).2 := by
  induction e generalizing s with
  | and l r ihl ihr =>
    by_cases hc : c = .and
    · subst hc
      simpa [visit, Conn.mk] using chain s l _ _ r _ _ (ihl s) (ihr _)
    · simpa [visit, hc] using leaf s (and l r)
  | or l r ihl ihr =>
    by_cases hc : c = .or
    · subst hc
      simpa [visit, Conn.mk] using chain s l _ _ r _ _ (ihl s) (ihr _)
    · simpa [visit, hc] using leaf s (or l r)
  | symbol t => exact leaf s _
  | not e ih => exact leaf s _
  | equal a b => exact leaf s _
  | unequal a b => exact leaf s _

end Expr

/-- `expr_eliminate_yn`. -/
def exprEliminateYn : Expr → Expr
  | .and l r =>
    let l := exprEliminateYn l
    let r := exprEliminateYn r
    if l = .symbol .no then .symbol .no
    else if l = .symbol .yes then r
    else if r = .symbol .no then .symbol .no
    else if r = .symbol .yes then l
    else .and l r
  | .or l r =>
    let l := exprEliminateYn l
    let r := exprEliminateYn r
    if l = .symbol .no then r
    else if l = .symbol .yes then .symbol .yes
    else if r = .symbol .no then l
    else if r = .symbol .yes then .symbol .yes
    else .or l r
  | e => e

/-- One operand of each side in `__expr_eliminate_eq`: equal operands become neutral. -/
def cancelEq (eq : Expr → Expr → Bool) (c : Conn) (a b : Expr) : Expr × Expr :=
  match a, b with
  | .symbol s, .symbol t =>
    if s = t ∧ s.isYesNo then (a, b)
    else if eq a b then (.symbol c.neutral, .symbol c.neutral) else (a, b)
  | _, _ => if eq a b then (.symbol c.neutral, .symbol c.neutral) else (a, b)

/-- `__expr_eliminate_eq`, for the equality `eq` it calls on operands. -/
def exprEliminateEqChain (eq : Expr → Expr → Bool) (c : Conn) (e1 e2 : Expr) : Expr × Expr :=
  (e1.visit c (fun e2 a => (e2.visit c (cancelEq eq c) a).swap) e2).swap

/-- `expr_eliminate_eq` on two expressions that are not `NULL`. -/
def exprEliminateEqWith (eq : Expr → Expr → Bool) (e1 e2 : Expr) : Expr × Expr :=
  let (e1, e2) := match e1.conn? with
    | some c => exprEliminateEqChain eq c e1 e2
    | none => (e1, e2)
  let (e1, e2) := match e2.conn? with
    | some c => if e1.conn? = some c then (e1, e2) else exprEliminateEqChain eq c e1 e2
    | none => (e1, e2)
  (exprEliminateYn e1, exprEliminateYn e2)

/-- `expr_eq`, with fuel for the nesting of chains: operands are smaller than their chain. -/
def exprEqAux : ℕ → Expr → Expr → Bool
  | 0, _, _ => false
  | n + 1, e1, e2 =>
    match e1, e2 with
    | .equal a b, .equal a' b' | .unequal a b, .unequal a' b' => a = a' ∧ b = b'
    | .symbol s, .symbol t => s = t
    | .not a, .not b => exprEqAux n a b
    | .and .., .and .. | .or .., .or .. =>
      match exprEliminateEqWith (exprEqAux n) e1 e2 with
      | (.symbol s, .symbol t) => s = t
      | _ => false
    | _, _ => false

def exprEq (e1 e2 : Expr) : Bool := exprEqAux (e1.size + e2.size) e1 e2

def exprEliminateEq (e1 e2 : Expr) : Expr × Expr := exprEliminateEqWith exprEq e1 e2

/-- One operand of each side in `expr_extract_eq`; the flag says whether `*ep` is set. -/
def extractEqOperand (c : Conn) (s : Expr × Bool) (b : Expr) : (Expr × Bool) × Expr :=
  if exprEq s.1 b then ((.symbol c.neutral, true), .symbol c.neutral) else (s, b)

/-- `expr_extract_eq`: the two remainders, and whether something was extracted. -/
def exprExtractEqChain (c : Conn) (e1 e2 : Expr) : (Expr × Expr) × Bool :=
  let r := e1.visit c (fun (s : Expr × Bool) a =>
    let r := s.1.visit c (extractEqOperand c) (a, s.2)
    ((r.2, r.1.2), r.1.1)) (e2, false)
  ((r.2, r.1.1), r.1.2)

/-- `expr_extract_eq_and` and `expr_extract_eq_or`: the remainders of the two sides. -/
def exprExtractEq (c : Conn) (e1 e2 : Expr) : Expr × Expr :=
  match exprExtractEqChain c e1 e2 with
  | ((e1, e2), true) => (exprEliminateYn e1, exprEliminateYn e2)
  | ((e1, e2), false) => (e1, e2)

/-! ## The rewriters keep the value -/

/-- The static symbols and the quoted constants have the values their texts say. -/
structure Standard (type : Sym → SymType) (ρ : Sym → SymbolValue) : Prop where
  yes : (ρ .yes).tri = .yes
  mod : (ρ .mod).tri = .mod
  no : (ρ .no).tri = .no
  string_yes : symGetStringValue type ρ .yes = ['y']
  string_mod : symGetStringValue type ρ .mod = ['m']
  string_no : symGetStringValue type ρ .no = ['n']
  string_const : ∀ n, symGetStringValue type ρ (.const n) = n.text

section Soundness
variable {type : Sym → SymType} {ρ : Sym → SymbolValue}

@[simp] theorem Conn.value_mk (c : Conn) (l r : Expr) :
    (c.mk l r).value type ρ = c.op (l.value type ρ) (r.value type ρ) := by
  cases c <;> rfl

theorem Standard.value_neutral (h : Standard type ρ) (c : Conn) :
    (Expr.symbol c.neutral).value type ρ = c.unit := by
  cases c
  · exact h.yes
  · exact h.no

theorem Standard.value_yes (h : Standard type ρ) : (Expr.symbol .yes).value type ρ = .yes := h.yes
theorem Standard.value_no (h : Standard type ρ) : (Expr.symbol .no).value type ρ = .no := h.no

theorem exprEliminateYn_value (h : Standard type ρ) (e : Expr) :
    (exprEliminateYn e).value type ρ = e.value type ρ := by
  induction e with
  | and l r ihl ihr =>
    simp only [exprEliminateYn, Expr.value, ← ihl, ← ihr]
    split_ifs with h1 h2 h3 h4
    · simp [h1, h.value_no]
    · simp [h2, h.value_yes]
    · simp [h3, h.value_no]
    · simp [h4, h.value_yes]
    · rfl
  | or l r ihl ihr =>
    simp only [exprEliminateYn, Expr.value, ← ihl, ← ihr]
    split_ifs with h1 h2 h3 h4
    · simp [h1, h.value_no]
    · simp [h2, h.value_yes]
    · simp [h3, h.value_no]
    · simp [h4, h.value_yes]
    · rfl
  | symbol s => rfl
  | not e ih => rfl
  | equal a b => rfl
  | unequal a b => rfl

/-- The common part `k` that two expressions lose when they become `a'` and `b'`. -/
def Cancels (type : Sym → SymType) (ρ : Sym → SymbolValue) (c : Conn) (a b a' b' : Expr) : Prop :=
  ∃ k, a.value type ρ = c.op (a'.value type ρ) k ∧ b.value type ρ = c.op (b'.value type ρ) k

theorem Cancels.refl (c : Conn) (a b : Expr) : Cancels type ρ c a b a b :=
  ⟨c.unit, by simp, by simp⟩

theorem Cancels.swap {c : Conn} {a b a' b' : Expr} (h : Cancels type ρ c a b a' b') :
    Cancels type ρ c b a b' a' :=
  let ⟨k, ha, hb⟩ := h
  ⟨k, hb, ha⟩

theorem Cancels.neutral (h : Standard type ρ) (c : Conn) {a b : Expr}
    (hab : a.value type ρ = b.value type ρ) :
    Cancels type ρ c a b (.symbol c.neutral) (.symbol c.neutral) :=
  ⟨a.value type ρ, by simp [h.value_neutral], by simp [h.value_neutral, hab]⟩

/-- Cancelling against the left and then the right operand cancels against the chain. -/
theorem Cancels.chain {c : Conn} {a l a₁ l' r a₂ r' : Expr}
    (hl : Cancels type ρ c a l a₁ l') (hr : Cancels type ρ c a₁ r a₂ r') :
    Cancels type ρ c a (c.mk l r) a₂ (c.mk l' r') := by
  obtain ⟨k, ha, hl⟩ := hl
  obtain ⟨k', ha', hr⟩ := hr
  refine ⟨c.op k' k, ?_, ?_⟩
  · rw [ha, ha', c.op_assoc]
  · rw [Conn.value_mk, Conn.value_mk, hl, hr, c.op_op_op_comm, c.op_comm k]

/-- `eq` never confuses expressions of different values. -/
def EqSound (type : Sym → SymType) (ρ : Sym → SymbolValue) (eq : Expr → Expr → Bool) : Prop :=
  ∀ a b, eq a b = true → a.value type ρ = b.value type ρ

theorem cancelEq_cancels (h : Standard type ρ) {eq : Expr → Expr → Bool} (heq : EqSound type ρ eq)
    (c : Conn) (a b : Expr) :
    Cancels type ρ c a b (cancelEq eq c a b).1 (cancelEq eq c a b).2 := by
  unfold cancelEq
  split
  · split_ifs with h1 h2
    · exact Cancels.refl c _ _
    · exact Cancels.neutral h c (heq _ _ h2)
    · exact Cancels.refl c _ _
  · split_ifs with h2
    · exact Cancels.neutral h c (heq _ _ h2)
    · exact Cancels.refl c _ _

theorem exprEliminateEqChain_cancels (h : Standard type ρ) {eq : Expr → Expr → Bool}
    (heq : EqSound type ρ eq) (c : Conn) (e1 e2 : Expr) :
    Cancels type ρ c e1 e2 (exprEliminateEqChain eq c e1 e2).1
      (exprEliminateEqChain eq c e1 e2).2 := by
  have inner (a e2 : Expr) := Expr.visit_rel (R := fun a b a' b' => Cancels type ρ c a b a' b')
    (cancelEq_cancels h heq c) (fun _ _ _ _ _ _ _ => Cancels.chain) e2 a
  exact (Expr.visit_rel (R := fun e2 a e2' a' => Cancels type ρ c e2 a e2' a')
    (fun e2 a => (inner a e2).swap) (fun _ _ _ _ _ _ _ => Cancels.chain) e1 e2).swap

/-- Both expressions are the same monotone function of what is left of them. -/
theorem exprEliminateEqWith_sound (h : Standard type ρ) {eq : Expr → Expr → Bool}
    (heq : EqSound type ρ eq) (e1 e2 : Expr) :
    ∃ φ : Tristate → Tristate, Monotone φ ∧
      e1.value type ρ = φ ((exprEliminateEqWith eq e1 e2).1.value type ρ) ∧
      e2.value type ρ = φ ((exprEliminateEqWith eq e1 e2).2.value type ρ) := by
  have step (c : Conn) (a b : Expr) : ∃ φ : Tristate → Tristate, Monotone φ ∧
      a.value type ρ = φ ((exprEliminateEqChain eq c a b).1.value type ρ) ∧
      b.value type ρ = φ ((exprEliminateEqChain eq c a b).2.value type ρ) :=
    let ⟨k, ha, hb⟩ := exprEliminateEqChain_cancels h heq c a b
    ⟨fun x => c.op x k, c.op_mono k, ha, hb⟩
  have first : ∃ φ : Tristate → Tristate, Monotone φ ∧
      e1.value type ρ = φ ((match e1.conn? with
        | some c => exprEliminateEqChain eq c e1 e2
        | none => (e1, e2)).1.value type ρ) ∧
      e2.value type ρ = φ ((match e1.conn? with
        | some c => exprEliminateEqChain eq c e1 e2
        | none => (e1, e2)).2.value type ρ) := by
    cases e1.conn? with
    | none => exact ⟨id, monotone_id, rfl, rfl⟩
    | some c => exact step c e1 e2
  unfold exprEliminateEqWith
  generalize (match e1.conn? with
    | some c => exprEliminateEqChain eq c e1 e2
    | none => (e1, e2)) = p at first ⊢
  obtain ⟨a, b⟩ := p
  obtain ⟨φ, hφ, h1, h2⟩ := first
  simp only [exprEliminateYn_value h]
  cases hb : b.conn? with
  | none => exact ⟨φ, hφ, h1, h2⟩
  | some c =>
    by_cases hc : a.conn? = some c
    · simpa [hc] using ⟨φ, hφ, h1, h2⟩
    · obtain ⟨ψ, hψ, h3, h4⟩ := step c a b
      refine ⟨φ ∘ ψ, hφ.comp hψ, ?_, ?_⟩
      · simp [hc, h1, h3]
      · simp [hc, h2, h4]

/-- Expressions that `expr_eq` identifies have the same value. -/
theorem exprEqAux_sound (h : Standard type ρ) (n : ℕ) : EqSound type ρ (exprEqAux n) := by
  induction n with
  | zero => intro a b hab; simp [exprEqAux] at hab
  | succ n ih =>
    have chain (a b : Expr) (hab : (match exprEliminateEqWith (exprEqAux n) a b with
        | (.symbol s, .symbol t) => decide (s = t)
        | _ => false) = true) : a.value type ρ = b.value type ρ := by
      obtain ⟨φ, _, ha, hb⟩ := exprEliminateEqWith_sound h ih a b
      split at hab
      · rename_i s t hst
        rw [ha, hb, hst, of_decide_eq_true hab]
      · simp at hab
    intro a b hab
    unfold exprEqAux at hab
    split at hab
    · obtain ⟨rfl, rfl⟩ := of_decide_eq_true hab; rfl
    · obtain ⟨rfl, rfl⟩ := of_decide_eq_true hab; rfl
    · rw [of_decide_eq_true hab]
    · simp only [Expr.value, ih _ _ hab]
    · exact chain _ _ hab
    · exact chain _ _ hab
    · simp at hab

theorem exprEq_sound (h : Standard type ρ) : EqSound type ρ exprEq :=
  fun a b hab => exprEqAux_sound h _ a b hab

theorem exprEliminateEq_sound (h : Standard type ρ) (e1 e2 : Expr) :
    ∃ φ : Tristate → Tristate, Monotone φ ∧
      e1.value type ρ = φ ((exprEliminateEq e1 e2).1.value type ρ) ∧
      e2.value type ρ = φ ((exprEliminateEq e1 e2).2.value type ρ) :=
  exprEliminateEqWith_sound h (exprEq_sound h) e1 e2

theorem exprExtractEqChain_cancels (h : Standard type ρ) (c : Conn) (e1 e2 : Expr) :
    Cancels type ρ c e1 e2 (exprExtractEqChain c e1 e2).1.1 (exprExtractEqChain c e1 e2).1.2 := by
  have operand (s : Expr × Bool) (b : Expr) :
      Cancels type ρ c s.1 b (extractEqOperand c s b).1.1 (extractEqOperand c s b).2 := by
    unfold extractEqOperand
    split_ifs with hab
    · exact Cancels.neutral h c (exprEq_sound h _ _ hab)
    · exact Cancels.refl c _ _
  have inner (s : Expr × Bool) (e2 : Expr) :=
    Expr.visit_rel (R := fun (s : Expr × Bool) b (s' : Expr × Bool) b' =>
      Cancels type ρ c s.1 b s'.1 b') operand (fun _ _ _ _ _ _ _ => Cancels.chain) e2 s
  exact (Expr.visit_rel (R := fun (s : Expr × Bool) a (s' : Expr × Bool) a' =>
    Cancels type ρ c s.1 a s'.1 a') (fun s a => (inner (a, s.2) s.1).swap)
    (fun _ _ _ _ _ _ _ => Cancels.chain) e1 (e2, false)).swap

theorem exprExtractEq_cancels (h : Standard type ρ) (c : Conn) (e1 e2 : Expr) :
    Cancels type ρ c e1 e2 (exprExtractEq c e1 e2).1 (exprExtractEq c e1 e2).2 := by
  obtain ⟨k, h1, h2⟩ := exprExtractEqChain_cancels h c e1 e2
  refine ⟨k, ?_, ?_⟩
  · unfold exprExtractEq
    split <;> simp_all [exprEliminateYn_value h]
  · unfold exprExtractEq
    split <;> simp_all [exprEliminateYn_value h]

end Soundness

end Grasshopper.Kconfig
