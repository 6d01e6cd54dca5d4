import Mathlib.Algebra.BigOperators.Group.List.Basic
import Mathlib.Algebra.Group.WithOne.Defs
import Grasshopper.Kconfig.Expr.Definite

/-! # Reordered and re-associated expressions

Two expressions are rearrangements of each other if they differ in the order and the grouping of
the operands of chains, at any depth. Up to rearrangement the chains of one type are a commutative
semigroup, so that a chain is the product of its operands.
-/

namespace Grasshopper.Kconfig

/-- `e2` has the operands of `e1`, reordered and re-associated at any depth. -/
inductive Rearranged : Expr → Expr → Prop where
  | refl (e) : Rearranged e e
  | symm {e e'} : Rearranged e e' → Rearranged e' e
  | trans {e e' e''} : Rearranged e e' → Rearranged e' e'' → Rearranged e e''
  | comm (c : Conn) (l r) : Rearranged (c.mk l r) (c.mk r l)
  | assoc (c : Conn) (x y z) : Rearranged (c.mk (c.mk x y) z) (c.mk x (c.mk y z))
  | chain (c : Conn) {l l' r r'} :
    Rearranged l l' → Rearranged r r' → Rearranged (c.mk l r) (c.mk l' r')
  | not {e e'} : Rearranged e e' → Rearranged (.not e) (.not e')

instance rearrangement : Setoid Expr where
  r := Rearranged
  iseqv := ⟨.refl, .symm, .trans⟩

/-- An expression up to rearrangement. -/
abbrev Arrangement := Quotient rearrangement

def Expr.arranged (e : Expr) : Arrangement := Quotient.mk _ e

theorem arranged_eq_iff {e e' : Expr} : e.arranged = e'.arranged ↔ Rearranged e e' :=
  Quotient.eq

/-! ## What a rearrangement keeps -/

/-- What is left of an expression when the operands of its chain are forgotten. -/
inductive Head where
  | atom (e : Expr)
  | not (k : Arrangement)
  | chain (c : Conn)

def Expr.head : Expr → Head
  | not e => .not e.arranged
  | and _ _ => .chain .and
  | or _ _ => .chain .or
  | e => .atom e

theorem Conn.head_mk (c : Conn) (l r : Expr) : (c.mk l r).head = .chain c := by cases c <;> rfl

theorem Conn.conn_mk (c : Conn) (l r : Expr) : (c.mk l r).conn? = some c := by cases c <;> rfl

theorem Rearranged.head {e e' : Expr} (h : Rearranged e e') : e.head = e'.head := by
  induction h with
  | refl e => rfl
  | symm _ ih => exact ih.symm
  | trans _ _ ih ih' => exact ih.trans ih'
  | comm c l r => rw [c.head_mk, c.head_mk]
  | assoc c x y z => rw [c.head_mk, c.head_mk]
  | chain c _ _ _ _ => rw [c.head_mk, c.head_mk]
  | not h _ => rw [Expr.head, Expr.head, arranged_eq_iff.2 h]

theorem Rearranged.symbol {s : Sym} {e : Expr} (h : Rearranged (.symbol s) e) :
    e = .symbol s := by
  have hhead := h.head
  cases e <;> cases hhead
  rfl

theorem Rearranged.equal {a b : Sym} {e : Expr} (h : Rearranged (.equal a b) e) :
    e = .equal a b := by
  have hhead := h.head
  cases e <;> cases hhead
  rfl

theorem Rearranged.unequal {a b : Sym} {e : Expr} (h : Rearranged (.unequal a b) e) :
    e = .unequal a b := by
  have hhead := h.head
  cases e <;> cases hhead
  rfl

theorem rearranged_not_iff {e e' : Expr} :
    Rearranged (.not e) (.not e') ↔ Rearranged e e' := by
  refine ⟨fun h => ?_, .not⟩
  have hhead := h.head
  rw [Expr.head, Expr.head, Head.not.injEq] at hhead
  exact arranged_eq_iff.1 hhead

section Chains
variable {c : Conn}

theorem Expr.operands_mk (l r : Expr) :
    (c.mk l r).operands c = l.operands c ++ r.operands c := by
  cases c <;> simp [Conn.mk, operands]

theorem Expr.operands_of_conn {e : Expr} (h : e.conn? ≠ some c) : e.operands c = [e] := by
  cases e with
  | and l r =>
    rw [operands, if_neg]
    rintro rfl
    exact h rfl
  | or l r =>
    rw [operands, if_neg]
    rintro rfl
    exact h rfl
  | _ => rfl

theorem Conn.mk_conn_ne {d : Conn} (h : d ≠ c) (l r : Expr) : (d.mk l r).conn? ≠ some c := by
  rw [d.conn_mk]
  rintro ⟨⟩
  exact h rfl

/-- A chain is two of its parts. -/
theorem Expr.exists_of_conn {e : Expr} (h : e.conn? = some c) : ∃ l r, e = c.mk l r := by
  cases e with
  | and l r | or l r =>
    obtain rfl := Option.some.inj h
    exact ⟨l, r, rfl⟩
  | _ => cases h

/-- Induction on the chains of one type. -/
theorem Expr.chain_induction {P : Expr → Prop} (single : ∀ e : Expr, e.conn? ≠ some c → P e)
    (chain : ∀ l r, P l → P r → P (c.mk l r)) (e : Expr) : P e := by
  induction e with
  | and l r ihl ihr =>
    by_cases hc : Conn.and = c
    · subst hc
      exact chain l r ihl ihr
    · exact single _ (Conn.mk_conn_ne hc l r)
  | or l r ihl ihr =>
    by_cases hc : Conn.or = c
    · subst hc
      exact chain l r ihl ihr
    · exact single _ (Conn.mk_conn_ne hc l r)
  | _ => exact single _ (by simp [conn?])

/-- The operands are the same, in another order and rearranged. -/
theorem Rearranged.operands {e e' : Expr} (h : Rearranged e e') (c : Conn) :
    ((e.operands c).map Expr.arranged).Perm ((e'.operands c).map Expr.arranged) := by
  have single {x y : Expr} (hx : x.conn? ≠ some c) (hy : y.conn? ≠ some c)
      (h : Rearranged x y) :
      ((x.operands c).map Expr.arranged).Perm ((y.operands c).map Expr.arranged) := by
    rw [Expr.operands_of_conn hx, Expr.operands_of_conn hy, List.map_singleton,
      List.map_singleton, arranged_eq_iff.2 h]
  induction h with
  | refl e => exact .refl _
  | symm _ ih => exact ih.symm
  | trans _ _ ih ih' => exact ih.trans ih'
  | comm d l r =>
    by_cases hd : d = c
    · subst hd
      rw [Expr.operands_mk, Expr.operands_mk, List.map_append, List.map_append]
      exact List.perm_append_comm
    · exact single (Conn.mk_conn_ne hd _ _) (Conn.mk_conn_ne hd _ _) (.comm d l r)
  | assoc d x y z =>
    by_cases hd : d = c
    · subst hd
      simp only [Expr.operands_mk, List.append_assoc]
      exact .refl _
    · exact single (Conn.mk_conn_ne hd _ _) (Conn.mk_conn_ne hd _ _) (.assoc d x y z)
  | chain d hl hr ihl ihr =>
    by_cases hd : d = c
    · subst hd
      rw [Expr.operands_mk, Expr.operands_mk, List.map_append, List.map_append]
      exact ihl.append ihr
    · exact single (Conn.mk_conn_ne hd _ _) (Conn.mk_conn_ne hd _ _) (.chain d hl hr)
  | not h _ => exact single (by simp [Expr.conn?]) (by simp [Expr.conn?]) (.not h)

/-! ## Chains as products -/

/-- Arrangements with the chain of type `c` as their product. -/
def Chained (_ : Conn) := Arrangement

instance : CommSemigroup (Chained c) where
  mul := Quotient.map₂ c.mk fun _ _ hl _ _ hr => Rearranged.chain c hl hr
  mul_assoc x y z := by
    induction x, y, z using Quotient.inductionOn₃ with
    | _ x y z => exact Quotient.sound (Rearranged.assoc c x y z)
  mul_comm x y := by
    induction x, y using Quotient.inductionOn₂ with
    | _ x y => exact Quotient.sound (Rearranged.comm c x y)

/-- An arrangement as a factor. -/
def factor (c : Conn) (k : Arrangement) : WithOne (Chained c) := WithOne.coe k

theorem factor_mk (l r : Expr) :
    factor c (c.mk l r).arranged = factor c l.arranged * factor c r.arranged := rfl

/-- A chain is the product of its operands. -/
theorem prod_operands (e : Expr) :
    (((e.operands c).map Expr.arranged).map (factor c)).prod = factor c e.arranged := by
  induction e using Expr.chain_induction (c := c) with
  | single e he =>
    rw [Expr.operands_of_conn he]
    simp
  | chain l r ihl ihr =>
    rw [Expr.operands_mk, List.map_append, List.map_append, List.prod_append, ihl, ihr, factor_mk]

/-- Chains with the same operands are rearrangements of each other. -/
theorem rearranged_of_operands {e e' : Expr}
    (h : ((e.operands c).map Expr.arranged).Perm ((e'.operands c).map Expr.arranged)) :
    Rearranged e e' := by
  have hprod := (h.map (factor c)).prod_eq
  rw [prod_operands, prod_operands] at hprod
  exact arranged_eq_iff.1 (WithOne.coe_inj.1 hprod)

end Chains

/-! ## How many operands are symbols of a kind -/

/-- The expression is a symbol with the property `q`. -/
def Expr.isSymbol (q : Sym → Bool) : Expr → Bool
  | symbol s => q s
  | _ => false

/-- Each chain, at any depth, has at most `k` operands that are symbols with the property `q`. -/
def Expr.Limited (q : Sym → Bool) (k : ℕ) : Expr → Prop
  | and l r => ((and l r).operands .and).countP (isSymbol q) ≤ k ∧ l.Limited q k ∧ r.Limited q k
  | or l r => ((or l r).operands .or).countP (isSymbol q) ≤ k ∧ l.Limited q k ∧ r.Limited q k
  | not e => e.Limited q k
  | _ => True

section Limited
variable {q : Sym → Bool} {k : ℕ} {c : Conn}

theorem Expr.limited_mk (l r : Expr) :
    (c.mk l r).Limited q k ↔
      ((c.mk l r).operands c).countP (isSymbol q) ≤ k ∧ l.Limited q k ∧ r.Limited q k := by
  cases c <;> rfl

theorem Rearranged.isSymbol {e e' : Expr} (h : Rearranged e e') :
    e.isSymbol q = e'.isSymbol q := by
  cases e with
  | symbol s => rw [h.symbol]
  | _ =>
    cases e' with
    | symbol s => rw [h.symm.symbol]
    | _ => rfl

/-- `isSymbol` on arrangements. -/
def Arrangement.isSymbol (q : Sym → Bool) : Arrangement → Bool :=
  Quotient.lift (Expr.isSymbol q) fun _ _ h => Rearranged.isSymbol h

theorem countP_arranged (ls : List Expr) :
    ls.countP (Expr.isSymbol q) = (ls.map Expr.arranged).countP (Arrangement.isSymbol q) := by
  rw [List.countP_map]
  exact List.countP_congr fun _ _ => Iff.rfl

theorem Rearranged.countP {e e' : Expr} (h : Rearranged e e') (c : Conn) :
    (e.operands c).countP (Expr.isSymbol q) = (e'.operands c).countP (Expr.isSymbol q) := by
  rw [countP_arranged, countP_arranged, (h.operands c).countP_eq]

/-- A rearrangement keeps the limit. -/
theorem Rearranged.limited {e e' : Expr} (h : Rearranged e e') :
    e.Limited q k ↔ e'.Limited q k := by
  induction h with
  | refl e => exact Iff.rfl
  | symm _ ih => exact ih.symm
  | trans _ _ ih ih' => exact ih.trans ih'
  | comm c l r =>
    rw [Expr.limited_mk, Expr.limited_mk, (Rearranged.comm c l r).countP c,
      and_comm (a := l.Limited q k)]
  | assoc c x y z =>
    have hcount := (Rearranged.assoc c x y z).countP (q := q) c
    simp only [Expr.limited_mk, Expr.operands_mk, List.countP_append] at hcount ⊢
    constructor
    · rintro ⟨hk, ⟨-, hx, hy⟩, hz⟩
      exact ⟨by omega, hx, by omega, hy, hz⟩
    · rintro ⟨hk, hx, -, hy, hz⟩
      exact ⟨by omega, ⟨by omega, hx, hy⟩, hz⟩
  | chain c hl hr ihl ihr =>
    rw [Expr.limited_mk, Expr.limited_mk, (Rearranged.chain c hl hr).countP c, ihl, ihr]
  | not _ ih => exact ih

theorem Expr.Limited.operands {e : Expr} (h : e.Limited q k) :
    ∀ x ∈ e.operands c, x.Limited q k := by
  induction e using Expr.chain_induction (c := c) with
  | single e he =>
    rw [Expr.operands_of_conn he, List.forall_mem_singleton]
    exact h
  | chain l r ihl ihr =>
    rw [Expr.limited_mk] at h
    rw [Expr.operands_mk, List.forall_mem_append]
    exact ⟨ihl h.2.1, ihr h.2.2⟩

theorem Expr.Limited.countP {e : Expr} (h : e.Limited q k) (he : e.conn? = some c) :
    (e.operands c).countP (isSymbol q) ≤ k := by
  obtain ⟨l, r, rfl⟩ := Expr.exists_of_conn he
  exact ((Expr.limited_mk l r).1 h).1

/-- The limit holds of a chain if it holds of its operands and their number. -/
theorem Expr.limited_of_operands {e : Expr} (hcount : (e.operands c).countP (isSymbol q) ≤ k)
    (h : ∀ x ∈ e.operands c, x.Limited q k) : e.Limited q k := by
  induction e using Expr.chain_induction (c := c) with
  | single e he =>
    rw [Expr.operands_of_conn he, List.forall_mem_singleton] at h
    exact h
  | chain l r ihl ihr =>
    refine (Expr.limited_mk l r).2 ⟨hcount, ?_⟩
    rw [Expr.operands_mk, List.forall_mem_append] at h
    rw [Expr.operands_mk, List.countP_append] at hcount
    exact ⟨ihl (by omega) h.1, ihr (by omega) h.2⟩

end Limited

end Grasshopper.Kconfig
