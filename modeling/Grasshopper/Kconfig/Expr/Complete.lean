import Grasshopper.Library.Cancel
import Grasshopper.Kconfig.Expr.Rearrange

/-! # What `expr_eq` finds

`expr_eq` strikes out equal operands of two chains in pairs. Of expressions without `y`, `m` and `n`
as operands it finds those that are rearrangements of each other, but not if a chain has two quoted
constants as operands: `SYMBOL_CONST` has the bits `SYMBOL_YES` and `SYMBOL_NO`, so that these are
never struck out.
-/

namespace Grasshopper.Kconfig

open Cancel

/-- `symbol_yes`, `symbol_mod` and `symbol_no`. -/
def Sym.isYmn : Sym → Bool
  | yes | mod | no => true
  | _ => false

/-- A quoted constant. -/
def Sym.isQuoted : Sym → Bool
  | const _ => true
  | _ => false

/-- No operand of a chain is `y`, `m` or `n`. -/
def Expr.NoYmn (e : Expr) : Prop := e.Limited Sym.isYmn 0

/-- No chain has two quoted constants as operands. -/
def Expr.FewConstants (e : Expr) : Prop := e.Limited Sym.isQuoted 1

/-- The limit on arrangements. -/
def Arrangement.Limited (q : Sym → Bool) (k : ℕ) : Arrangement → Prop :=
  Quotient.lift (Expr.Limited q k) fun _ _ h => propext (Rearranged.limited h)

/-- Operands with this arrangement are struck out. -/
def Arrangement.Strikable (k : Arrangement) : Prop :=
  k.Limited Sym.isQuoted 1 ∧ k.isSymbol Sym.isQuoted = false

theorem strikable_iff {e : Expr} :
    e.arranged.Strikable ↔ e.FewConstants ∧ e.isSymbol Sym.isQuoted = false := Iff.rfl

/-- The equality finds rearrangements of small expressions. -/
structure Finds (eq : Expr → Expr → Bool) (n : ℕ) : Prop where
  iff : ∀ x y, x.size + y.size ≤ n → x.NoYmn → y.NoYmn →
    (eq x y = true ↔ Rearranged x y ∧ x.FewConstants)
  symbol : ∀ s y, eq (.symbol s) y = true → y = .symbol s
  symbol' : ∀ s x, eq x (.symbol s) = true → x = .symbol s

/-- The operands that are not neutral. -/
def Expr.left (c : Conn) (e : Expr) : List Expr :=
  (e.operands c).filter fun x => decide (x ≠ .symbol c.neutral)

/-- Operands that are worth striking out. -/
structure Small (k : ℕ) (x : Expr) : Prop where
  noYmn : x.NoYmn
  ymn : x.isSymbol Sym.isYmn = false
  size : x.size ≤ k

section Operands
variable {c : Conn}

theorem Expr.left_mk (l r : Expr) : (c.mk l r).left c = l.left c ++ r.left c := by
  rw [left, operands_mk, List.filter_append, left, left]

theorem Expr.left_of_conn {e : Expr} (h : e.conn? ≠ some c) :
    e.left c = if e = .symbol c.neutral then [] else [e] := by
  rw [left, operands_of_conn h]
  by_cases he : e = .symbol c.neutral <;> simp [he]

@[simp] theorem Expr.left_neutral : (Expr.symbol c.neutral).left c = [] := by
  rw [left_of_conn (by simp [conn?]), if_pos rfl]

theorem Expr.visit_mk {σ : Type} {f : σ → Expr → σ × Expr} (s : σ) (l r : Expr) :
    (c.mk l r).visit c f s =
      ((r.visit c f (l.visit c f s).1).1,
        c.mk (l.visit c f s).2 (r.visit c f (l.visit c f s).1).2) := by
  cases c <;> simp [Conn.mk, visit]

theorem Expr.visit_of_conn {σ : Type} {f : σ → Expr → σ × Expr} {e : Expr}
    (h : e.conn? ≠ some c) (s : σ) : e.visit c f s = f s e := by
  cases e with
  | and l r =>
    rw [visit, if_neg]
    rintro rfl
    exact h rfl
  | or l r =>
    rw [visit, if_neg]
    rintro rfl
    exact h rfl
  | _ => rfl

/-- What holds of the action on an operand and composes along a chain holds of the walk. -/
theorem Expr.visit_operands {σ : Type} {f : σ → Expr → σ × Expr}
    {R : σ → Expr → σ → Expr → Prop}
    (operand : ∀ s e, e.conn? ≠ some c → R s e (f s e).1 (f s e).2)
    (chain : ∀ s l s₁ l' r s₂ r', R s l s₁ l' → R s₁ r s₂ r' → R s (c.mk l r) s₂ (c.mk l' r'))
    (e : Expr) (s : σ) : R s e (e.visit c f s).1 (e.visit c f s).2 := by
  induction e using Expr.chain_induction (c := c) generalizing s with
  | single e he =>
    rw [visit_of_conn he]
    exact operand s e he
  | chain l r ihl ihr =>
    rw [visit_mk]
    exact chain _ _ _ _ _ _ _ (ihl s) (ihr _)

theorem Expr.size_lt_of_mem_operands {e x : Expr} (he : e.conn? = some c)
    (hx : x ∈ e.operands c) : x.size < e.size := by
  have hsize := e.size_operands (c := c)
  have hle := size_le_operandsSize hx
  have htwo := Expr.two_le_operands he
  omega

/-- The operands of a chain without `y`, `m` and `n`. -/
theorem Expr.NoYmn.small {e : Expr} (h : e.NoYmn) (he : e.conn? = some c) :
    ∀ x ∈ e.operands c, Small (e.size - 1) x := by
  intro x hx
  have hcount := List.countP_eq_zero.1 (Nat.le_zero.1 (Expr.Limited.countP h he)) x hx
  have hsize := size_lt_of_mem_operands he hx
  exact ⟨Expr.Limited.operands h x hx, by simpa using hcount, by omega⟩

theorem Small.ne_neutral {k : ℕ} {x : Expr} (h : Small k x) : x ≠ .symbol c.neutral := by
  rintro rfl
  have hymn := h.ymn
  cases c <;> cases hymn

theorem Expr.NoYmn.left_eq {e : Expr} (h : e.NoYmn) (he : e.conn? = some c) :
    e.left c = e.operands c := by
  rw [left, List.filter_eq_self]
  intro x hx
  exact decide_eq_true (h.small he x hx).ne_neutral

end Operands

/-! ## Striking out operands -/

section Cancelling
variable {c : Conn} {eq : Expr → Expr → Bool} {n k k' : ℕ}

theorem cancelEq_of_not {a b : Expr} (h : eq a b = false) : cancelEq eq c a b = (a, b) := by
  unfold cancelEq
  split
  · simp [h]
  · simp [h]

theorem cancelEq_of_eq {a b : Expr} (h : eq a b = true)
    (hsym : ∀ s : Sym, a = .symbol s → b = .symbol s → s.isYesNo = false) :
    cancelEq eq c a b = (.symbol c.neutral, .symbol c.neutral) := by
  unfold cancelEq
  split
  · rename_i s t
    have hskip : ¬(s = t ∧ s.isYesNo = true) := by
      rintro ⟨rfl, hs⟩
      simp [hsym s rfl rfl] at hs
    rw [if_neg hskip, if_pos h]
  · simp [h]

theorem cancelEq_symbol {s : Sym} (h : s.isYesNo = true) :
    cancelEq eq c (.symbol s) (.symbol s) = (.symbol s, .symbol s) := by
  simp [cancelEq, h]

theorem Conn.neutral_isYesNo (c : Conn) : c.neutral.isYesNo = true := by cases c <;> rfl

theorem Finds.cancelEq_neutral (heq : Finds eq n) (b : Expr) :
    cancelEq eq c (.symbol c.neutral) b = (.symbol c.neutral, b) := by
  cases h : eq (.symbol c.neutral) b with
  | false => exact cancelEq_of_not h
  | true =>
    rw [heq.symbol _ _ h]
    exact cancelEq_symbol c.neutral_isYesNo

theorem Finds.cancelEq_neutral' (heq : Finds eq n) (a : Expr) :
    cancelEq eq c a (.symbol c.neutral) = (a, .symbol c.neutral) := by
  cases h : eq a (.symbol c.neutral) with
  | false => exact cancelEq_of_not h
  | true =>
    rw [heq.symbol' _ _ h]
    exact cancelEq_symbol c.neutral_isYesNo

/-- A symbol that is skipped is a quoted constant. -/
theorem Small.isQuoted {s : Sym} (h : Small k (.symbol s)) (hs : s.isYesNo = true) :
    s.isQuoted = true := by
  have hymn := h.ymn
  cases s with
  | const n => rfl
  | yes | mod | no => cases hymn
  | config n | choice k => cases hs

/-- A pair of operands. -/
theorem Finds.cancelEq_struck (heq : Finds eq n) (hn : k + k' ≤ n) {a b : Expr}
    (ha : a.conn? ≠ some c) (hb : b.conn? ≠ some c) (hsa : ∀ x ∈ a.left c, Small k x)
    (hsb : ∀ x ∈ b.left c, Small k' x) :
    Struck Expr.arranged Arrangement.Strikable (a.left c) (b.left c)
      ((cancelEq eq c a b).1.left c) ((cancelEq eq c a b).2.left c) := by
  by_cases ha0 : a = .symbol c.neutral
  · rw [ha0, heq.cancelEq_neutral]
    exact .keep (by simp)
  by_cases hb0 : b = .symbol c.neutral
  · rw [hb0, heq.cancelEq_neutral']
    exact .keep (by simp)
  rw [Expr.left_of_conn ha, if_neg ha0, List.forall_mem_singleton] at hsa
  rw [Expr.left_of_conn hb, if_neg hb0, List.forall_mem_singleton] at hsb
  have hiff := heq.iff a b (by have := hsa.size; have := hsb.size; omega) hsa.noYmn hsb.noYmn
  cases hab : eq a b with
  | false =>
    rw [cancelEq_of_not hab, Expr.left_of_conn ha, Expr.left_of_conn hb, if_neg ha0, if_neg hb0]
    refine .keep ?_
    simp only [List.forall_mem_singleton]
    intro harranged hstrikable
    rw [hiff.2 ⟨arranged_eq_iff.1 harranged, (strikable_iff.1 hstrikable).1⟩] at hab
    cases hab
  | true =>
    obtain ⟨hrearranged, hfew⟩ := hiff.1 hab
    cases hquoted : a.isSymbol Sym.isQuoted with
    | true =>
      -- both are the same quoted constant, and stay
      cases a with
      | symbol s =>
        obtain rfl := hrearranged.symbol
        have hskip : s.isYesNo = true := by
          cases s <;> first | rfl | cases hquoted
        rw [cancelEq_symbol hskip, Expr.left_of_conn ha, if_neg ha0]
        refine .keep ?_
        simp [strikable_iff, hquoted]
      | _ => cases hquoted
    | false =>
      have hcancel : cancelEq eq c a b = (.symbol c.neutral, .symbol c.neutral) := by
        refine cancelEq_of_eq hab fun s hs _ => ?_
        subst hs
        by_contra hskip
        have hquoted' := hsa.isQuoted (by simpa using hskip)
        rw [Expr.isSymbol, hquoted'] at hquoted
        cases hquoted
      rw [hcancel, Expr.left_of_conn ha, Expr.left_of_conn hb, if_neg ha0, if_neg hb0]
      simp only [Expr.left_neutral]
      exact .pair (arranged_eq_iff.2 hrearranged) (strikable_iff.2 ⟨hfew, hquoted⟩)

theorem cancelEq_conn {a b : Expr} (ha : a.conn? ≠ some c) :
    (cancelEq eq c a b).1.conn? ≠ some c := by
  unfold cancelEq
  split <;> split_ifs <;> first | exact ha | simp [Expr.conn?]

/-- One operand against a chain. -/
theorem Finds.visit_struck (heq : Finds eq n) (hn : k + k' ≤ n) (e a : Expr)
    (ha : a.conn? ≠ some c) (hsa : ∀ x ∈ a.left c, Small k x) (hse : ∀ x ∈ e.left c, Small k' x) :
    (e.visit c (cancelEq eq c) a).1.conn? ≠ some c ∧
      Struck Expr.arranged Arrangement.Strikable (a.left c) (e.left c)
        ((e.visit c (cancelEq eq c) a).1.left c) ((e.visit c (cancelEq eq c) a).2.left c) := by
  refine Expr.visit_operands (c := c) (f := cancelEq eq c)
    (R := fun a e a' e' => a.conn? ≠ some c → (∀ x ∈ a.left c, Small k x) →
      (∀ x ∈ e.left c, Small k' x) → a'.conn? ≠ some c ∧
        Struck Expr.arranged Arrangement.Strikable (a.left c) (e.left c) (a'.left c) (e'.left c))
    ?_ ?_ e a ha hsa hse
  · intro a b hb ha hsa hsb
    exact ⟨cancelEq_conn ha, heq.cancelEq_struck hn ha hb hsa hsb⟩
  · intro a l a₁ l' r a₂ r' hl hr ha hsa hse
    rw [Expr.left_mk, List.forall_mem_append] at hse
    obtain ⟨ha₁, hl⟩ := hl ha hsa hse.1
    obtain ⟨ha₂, hr⟩ := hr ha₁ (fun x hx => hsa x (hl.left hx)) hse.2
    rw [Expr.left_mk, Expr.left_mk]
    exact ⟨ha₂, hl.append hr⟩

/-- One chain against another. -/
theorem Finds.eliminateEqChain_struck (heq : Finds eq n) (hn : k + k' ≤ n) (e1 e2 : Expr)
    (h1 : ∀ x ∈ e1.left c, Small k x) (h2 : ∀ x ∈ e2.left c, Small k' x) :
    Struck Expr.arranged Arrangement.Strikable (e1.left c) (e2.left c)
      ((exprEliminateEqChain eq c e1 e2).1.left c)
      ((exprEliminateEqChain eq c e1 e2).2.left c) := by
  refine (Expr.visit_operands (c := c)
    (f := fun e2 a => (e2.visit c (cancelEq eq c) a).swap)
    (R := fun e2 a e2' a' => (∀ x ∈ e2.left c, Small k' x) → (∀ x ∈ a.left c, Small k x) →
      Struck Expr.arranged Arrangement.Strikable (e2.left c) (a.left c) (e2'.left c) (a'.left c))
    ?_ ?_ e1 e2 h2 h1).swap
  · intro e2 a ha h2 hsa
    exact (heq.visit_struck hn e2 a ha hsa h2).2.swap
  · intro e2 l e2₁ l' r e2₂ r' hl hr h2 hse
    rw [Expr.left_mk, List.forall_mem_append] at hse
    have hl := hl h2 hse.1
    have hr := hr (fun x hx => h2 x (hl.left hx)) hse.2
    rw [Expr.left_mk, Expr.left_mk]
    exact hl.append hr

theorem exprEliminateEqChain_conn {e1 e2 : Expr} (h1 : e1.conn? = some c)
    (h2 : e2.conn? = some c) :
    (exprEliminateEqChain eq c e1 e2).1.conn? = some c ∧
      (exprEliminateEqChain eq c e1 e2).2.conn? = some c := by
  have visit_conn {σ : Type} (f : σ → Expr → σ × Expr) (s : σ) {e : Expr}
      (he : e.conn? = some c) : (e.visit c f s).2.conn? = some c := by
    obtain ⟨l, r, rfl⟩ := Expr.exists_of_conn he
    rw [Expr.visit_mk, Conn.conn_mk]
  constructor
  · exact visit_conn _ e2 h1
  · refine Expr.visit_operands (c := c) (f := fun e2 a => (e2.visit c (cancelEq eq c) a).swap)
      (R := fun e2 _ e2' _ => e2.conn? = some c → e2'.conn? = some c) ?_ ?_ e1 e2 h2
    · intro e2 a _ h
      exact visit_conn _ a h
    · intro e2 l e2₁ l' r e2₂ r' hl hr h
      exact hr (hl h)

end Cancelling

/-! ## What is left -/

section Collapse
variable {c : Conn} {k : ℕ}

/-- `expr_eliminate_yn` does nothing to an expression without constants. -/
theorem Expr.NoYmn.eliminateYn {e : Expr} (h : e.NoYmn) : exprEliminateYn e = e := by
  have chain (c : Conn) (l r : Expr) (h : (c.mk l r).NoYmn) (hl : exprEliminateYn l = l)
      (hr : exprEliminateYn r = r) : exprEliminateYn (c.mk l r) = c.mk l r := by
    have hcount := ((Expr.limited_mk l r).1 h).1
    have hno (s : Sym) (hs : s.isYmn = true) : l ≠ .symbol s ∧ r ≠ .symbol s := by
      have hone : ((Expr.symbol s).operands c).countP (isSymbol Sym.isYmn) = 1 := by
        rw [operands_of_conn (by simp [conn?])]
        simp [isSymbol, hs]
      rw [operands_mk, List.countP_append] at hcount
      constructor
      · rintro rfl
        omega
      · rintro rfl
        omega
    have hyes := hno .yes rfl
    have hno := hno .no rfl
    cases c <;> simp [Conn.mk, exprEliminateYn, hl, hr, hyes, hno]
  induction e with
  | and l r ihl ihr => exact chain .and l r h (ihl h.2.1) (ihr h.2.2)
  | or l r ihl ihr => exact chain .or l r h (ihl h.2.1) (ihr h.2.2)
  | _ => rfl

/-- What an expression becomes whose operands, but for the neutral ones, are `ls`. -/
def Collapsed (c : Conn) (ls : List Expr) (e : Expr) : Prop :=
  match ls with
  | [] => e = .symbol c.neutral
  | [x] => e = x
  | _ => e.conn? = some c

theorem Collapsed.ne_dual {ls : List Expr} {e : Expr} (h : Collapsed c ls e)
    (hsmall : ∀ x ∈ ls, Small k x) : e ≠ .symbol c.dual.neutral := by
  rintro rfl
  match ls with
  | [] => cases c <;> cases h
  | [x] =>
    have hymn := (hsmall x List.mem_cons_self).ymn
    obtain rfl : Expr.symbol c.dual.neutral = x := h
    cases c <;> cases hymn
  | _ :: _ :: _ => simp [Collapsed, Expr.conn?] at h

theorem Collapsed.eq_neutral_iff {ls : List Expr} {e : Expr} (h : Collapsed c ls e)
    (hsmall : ∀ x ∈ ls, Small k x) : e = .symbol c.neutral ↔ ls = [] := by
  match ls with
  | [] => simpa [Collapsed] using h
  | [x] =>
    obtain rfl : e = x := h
    simpa using (hsmall e List.mem_cons_self).ne_neutral
  | _ :: _ :: _ =>
    refine iff_of_false ?_ (by simp)
    rintro rfl
    simp [Collapsed, Expr.conn?] at h

theorem exprEliminateYn_mk {l r : Expr} (hl : exprEliminateYn l ≠ .symbol c.dual.neutral)
    (hr : exprEliminateYn r ≠ .symbol c.dual.neutral) :
    exprEliminateYn (c.mk l r) =
      if exprEliminateYn l = .symbol c.neutral then exprEliminateYn r
      else if exprEliminateYn r = .symbol c.neutral then exprEliminateYn l
      else c.mk (exprEliminateYn l) (exprEliminateYn r) := by
  cases c with
  | and =>
    change exprEliminateYn l ≠ .symbol .no at hl
    change exprEliminateYn r ≠ .symbol .no at hr
    rw [Conn.mk, exprEliminateYn, if_neg hl, if_neg hr]
    rfl
  | or =>
    change exprEliminateYn l ≠ .symbol .yes at hl
    change exprEliminateYn r ≠ .symbol .yes at hr
    rw [Conn.mk, exprEliminateYn, if_neg hl, if_neg hr]
    rfl

/-- An expression collapses to what is left in it. -/
theorem exprEliminateYn_collapsed {e : Expr} (h : ∀ x ∈ e.left c, Small k x) :
    Collapsed c (e.left c) (exprEliminateYn e) := by
  induction e using Expr.chain_induction (c := c) with
  | single e he =>
    rw [Expr.left_of_conn he] at h ⊢
    split_ifs with hneutral
    · rw [hneutral]
      rfl
    · rw [if_neg hneutral, List.forall_mem_singleton] at h
      exact h.noYmn.eliminateYn
  | chain l r ihl ihr =>
    rw [Expr.left_mk, List.forall_mem_append] at h
    have hl := ihl h.1
    have hr := ihr h.2
    rw [Expr.left_mk, exprEliminateYn_mk (hl.ne_dual h.1) (hr.ne_dual h.2)]
    simp only [hl.eq_neutral_iff h.1, hr.eq_neutral_iff h.2]
    cases hleft : l.left c with
    | nil => simpa using hr
    | cons x ls =>
      cases hright : r.left c with
      | nil => simpa [hleft] using hl
      | cons y rs =>
        simp only [reduceCtorEq, if_false]
        cases ls <;> simp [Collapsed, Conn.conn_mk]

end Collapse

/-! ## What is found -/

section Found
variable {c : Conn} {n : ℕ}

theorem exprEliminateEqWith_of_conn (eq : Expr → Expr → Bool) {e1 e2 : Expr}
    (h1 : e1.conn? = some c) (h2 : e2.conn? = some c) :
    exprEliminateEqWith eq e1 e2 =
      (exprEliminateYn (exprEliminateEqChain eq c e1 e2).1,
        exprEliminateYn (exprEliminateEqChain eq c e1 e2).2) := by
  obtain ⟨h1', h2'⟩ : (exprEliminateEqChain eq c e1 e2).1.conn? = some c ∧
      (exprEliminateEqChain eq c e1 e2).2.conn? = some c := exprEliminateEqChain_conn h1 h2
  simp [exprEliminateEqWith, h1, h1', h2']

theorem exprEqAux_of_conn {e1 e2 : Expr} (h1 : e1.conn? = some c) (h2 : e2.conn? = some c) :
    exprEqAux (n + 1) e1 e2 = match exprEliminateEqWith (exprEqAux n) e1 e2 with
      | (.symbol s, .symbol t) => decide (s = t)
      | _ => false := by
  obtain ⟨l, r, rfl⟩ := Expr.exists_of_conn h1
  obtain ⟨l', r', rfl⟩ := Expr.exists_of_conn h2
  cases c <;> rfl

/-- Two chains are found equal if they collapse to the same symbol. -/
theorem exprEqAux_chain {e1 e2 : Expr} (h1 : e1.conn? = some c) (h2 : e2.conn? = some c) :
    exprEqAux (n + 1) e1 e2 = true ↔
      ∃ s, exprEliminateYn (exprEliminateEqChain (exprEqAux n) c e1 e2).1 = .symbol s ∧
        exprEliminateYn (exprEliminateEqChain (exprEqAux n) c e1 e2).2 = .symbol s := by
  rw [exprEqAux_of_conn h1 h2, exprEliminateEqWith_of_conn (exprEqAux n) h1 h2]
  constructor
  · intro h
    split at h
    · rename_i s t hpair
      rw [Prod.mk.injEq] at hpair
      obtain rfl := of_decide_eq_true h
      exact ⟨s, hpair⟩
    · cases h
  · rintro ⟨s, hs1, hs2⟩
    simp [hs1, hs2]

theorem exprEqAux_symbol {s : Sym} {y : Expr} (h : exprEqAux n (.symbol s) y = true) :
    y = .symbol s := by
  cases n with
  | zero => cases h
  | succ n =>
    cases y <;> simp [exprEqAux] at h
    rw [h]

theorem exprEqAux_symbol' {s : Sym} {x : Expr} (h : exprEqAux n x (.symbol s) = true) :
    x = .symbol s := by
  cases n with
  | zero => cases h
  | succ n =>
    cases x <;> simp [exprEqAux] at h
    rw [h]

theorem Collapsed.of_symbol {U : List Expr} {s : Sym} (h : Collapsed c U (.symbol s)) :
    U = [] ∧ s = c.neutral ∨ U = [.symbol s] := by
  match U with
  | [] => exact .inl ⟨rfl, Expr.symbol.inj h⟩
  | [x] =>
    obtain rfl : Expr.symbol s = x := h
    exact .inr rfl
  | _ :: _ :: _ => cases h

/-- If both collapse to one symbol then they hold nothing, or just that symbol. -/
theorem Collapsed.both {k k' : ℕ} {U V : List Expr} {s : Sym} (hU : Collapsed c U (.symbol s))
    (hV : Collapsed c V (.symbol s)) (hsU : ∀ x ∈ U, Small k x) (hsV : ∀ x ∈ V, Small k' x) :
    U = V ∧ U.length ≤ 1 ∧ ∀ x ∈ U, x = .symbol s := by
  obtain ⟨rfl, rfl⟩ | rfl := hU.of_symbol
  · obtain ⟨rfl, -⟩ | rfl := hV.of_symbol
    · simp
    · exact absurd rfl (hsV _ List.mem_cons_self).ne_neutral
  · obtain ⟨rfl, rfl⟩ | rfl := hV.of_symbol
    · exact absurd rfl (hsU _ List.mem_cons_self).ne_neutral
    · simp

theorem Expr.exists_of_isSymbol {q : Sym → Bool} {e : Expr} (h : e.isSymbol q = true) :
    ∃ s, e = .symbol s := by
  cases e with
  | symbol s => exact ⟨s, rfl⟩
  | _ => cases h

/-- Chains with equal operands are found equal, if at most one operand is never struck out. -/
theorem Finds.chain_iff {e1 e2 : Expr} (heq : Finds (exprEqAux n) n)
    (hn : e1.size + e2.size ≤ n + 1) (h1 : e1.conn? = some c) (h2 : e2.conn? = some c)
    (hp1 : e1.NoYmn) (hp2 : e2.NoYmn) :
    exprEqAux (n + 1) e1 e2 = true ↔ Rearranged e1 e2 ∧ e1.FewConstants := by
  have hs1 : ∀ x ∈ e1.left c, Small (e1.size - 1) x := hp1.left_eq h1 ▸ hp1.small h1
  have hs2 : ∀ x ∈ e2.left c, Small (e2.size - 1) x := hp2.left_eq h2 ▸ hp2.small h2
  have hpos1 := e1.size_pos
  have hstruck := heq.eliminateEqChain_struck (by omega) e1 e2 hs1 hs2
  rw [exprEqAux_chain h1 h2]
  generalize exprEliminateEqChain (exprEqAux n) c e1 e2 = r at hstruck ⊢
  have hs1' : ∀ x ∈ r.1.left c, Small (e1.size - 1) x := fun x hx => hs1 x (hstruck.left hx)
  have hs2' : ∀ x ∈ r.2.left c, Small (e2.size - 1) x := fun x hx => hs2 x (hstruck.right hx)
  have hcollapsed1 := exprEliminateYn_collapsed hs1'
  have hcollapsed2 := exprEliminateYn_collapsed hs2'
  have hcount := hstruck.countP_eq (p := Expr.isSymbol Sym.isQuoted)
    (q := Arrangement.isSymbol Sym.isQuoted) (fun _ => rfl) fun _ hk => hk.2
  rw [hp1.left_eq h1] at hcount
  constructor
  · rintro ⟨s, hsym1, hsym2⟩
    rw [hsym1] at hcollapsed1
    rw [hsym2] at hcollapsed2
    obtain ⟨hsame, hlen, hall⟩ := hcollapsed1.both hcollapsed2 hs1' hs2'
    have hperm := hstruck.perm_iff.2 (by rw [hsame])
    rw [hp1.left_eq h1, hp2.left_eq h2] at hperm
    refine ⟨rearranged_of_operands hperm, Expr.limited_of_operands (c := c) ?_ fun x hx => ?_⟩
    · rw [hcount]
      exact List.countP_le_length.trans hlen
    · obtain hok | ⟨a, ha, harranged⟩ := hstruck.ok_or (hp1.left_eq h1 ▸ hx)
      · exact hok.1
      · rw [hall a ha, arranged_eq_iff] at harranged
        rw [harranged.symbol]
        exact trivial
  · rintro ⟨hrearranged, hfew⟩
    have hperm := hrearranged.operands c
    rw [← hp1.left_eq h1, ← hp2.left_eq h2, hstruck.perm_iff] at hperm
    -- whatever is left is a quoted constant
    have hquoted : ∀ x ∈ r.1.left c, x.isSymbol Sym.isQuoted = true := by
      intro x hx
      have hnot := hstruck.not_ok hperm x hx
      rw [strikable_iff, not_and, Bool.not_eq_false] at hnot
      have hmem := hstruck.left hx
      rw [hp1.left_eq h1] at hmem
      exact hnot (hfew.operands x hmem)
    have hlen : (r.1.left c).length ≤ 1 := by
      rw [← List.countP_eq_length.2 hquoted, ← hcount]
      exact hfew.countP h1
    cases hleft1 : r.1.left c with
    | nil =>
      rw [hleft1, List.map_nil, List.nil_perm, List.map_eq_nil_iff] at hperm
      rw [hleft1] at hcollapsed1
      rw [hperm] at hcollapsed2
      exact ⟨c.neutral, hcollapsed1, hcollapsed2⟩
    | cons x ls =>
      rw [hleft1] at hlen hquoted hcollapsed1 hperm
      obtain rfl : ls = [] := List.length_eq_zero_iff.1 (by simpa using hlen)
      obtain ⟨s, rfl⟩ := Expr.exists_of_isSymbol (hquoted x List.mem_cons_self)
      rw [List.map_singleton, List.singleton_perm, eq_comm, List.map_eq_singleton_iff] at hperm
      obtain ⟨y, hleft2, hy⟩ := hperm
      rw [hleft2, (arranged_eq_iff.1 hy.symm).symbol] at hcollapsed2
      exact ⟨s, hcollapsed1, hcollapsed2⟩

/-- `expr_eq` finds the rearrangements without two quoted constants in a chain. -/
theorem exprEqAux_finds (n : ℕ) : Finds (exprEqAux n) n := by
  induction n with
  | zero =>
    refine ⟨fun x y hsize => ?_, fun _ _ => exprEqAux_symbol, fun _ _ => exprEqAux_symbol'⟩
    have hpos := x.size_pos
    omega
  | succ n ih =>
    refine ⟨fun x y hsize hx hy => ?_, fun _ _ => exprEqAux_symbol, fun _ _ => exprEqAux_symbol'⟩
    have mismatch (h : x.head ≠ y.head) (h' : exprEqAux (n + 1) x y = false) :
        exprEqAux (n + 1) x y = true ↔ Rearranged x y ∧ x.FewConstants := by
      refine iff_of_false (by simp [h']) fun hboth => h hboth.1.head
    -- an expression without operands is found equal to itself only
    have atom (hatom : ∀ e, Rearranged x e → e = x) (hfew : x.FewConstants)
        (h : exprEqAux (n + 1) x y = true ↔ y = x) :
        exprEqAux (n + 1) x y = true ↔ Rearranged x y ∧ x.FewConstants := by
      rw [h]
      refine ⟨?_, fun hboth => hatom y hboth.1⟩
      rintro rfl
      exact ⟨.refl _, hfew⟩
    cases x <;> cases y
    case symbol.symbol s t =>
      exact atom (fun _ => Rearranged.symbol) trivial (by simp [exprEqAux, eq_comm])
    case equal.equal a b a' b' =>
      exact atom (fun _ => Rearranged.equal) trivial
        (by simp [exprEqAux, @eq_comm _ a, @eq_comm _ b])
    case unequal.unequal a b a' b' =>
      exact atom (fun _ => Rearranged.unequal) trivial
        (by simp [exprEqAux, @eq_comm _ a, @eq_comm _ b])
    case not.not x y =>
      rw [exprEqAux, rearranged_not_iff]
      exact ih.iff x y (by simp only [Expr.size] at hsize; omega) hx hy
    case and.and l r l' r' => exact ih.chain_iff hsize rfl rfl hx hy
    case or.or l r l' r' => exact ih.chain_iff hsize rfl rfl hx hy
    all_goals exact mismatch (by simp [Expr.head]) rfl

/-- Without `y`, `m` and `n` as operands, `expr_eq` finds the rearrangements that have at most one
quoted constant in a chain. -/
theorem exprEq_iff {e1 e2 : Expr} (h1 : e1.NoYmn) (h2 : e2.NoYmn) :
    exprEq e1 e2 = true ↔ Rearranged e1 e2 ∧ e1.FewConstants :=
  (exprEqAux_finds _).iff e1 e2 le_rfl h1 h2

end Found

end Grasshopper.Kconfig
