import Grasshopper.Kconfig.Expr.Normal
import Grasshopper.Kconfig.Expr.Dups

/-! # What `expr_eliminate_dups` does to `m`, and that it ends

`(FOO || BAR) && (!FOO && !BAR) -> n` is no law of three values: the chain may be `m`. A value that
is `y` or `n` stays. A round of the loop that counts leaves a constant operand in some chain, and
`expr_eliminate_yn` makes the expression smaller.
-/

namespace Grasshopper.Kconfig

/-! ## Values that are `y` or `n` stay -/

/-- Where `a` is not `m`, `b` is `a`. -/
def Tristate.Refines (a b : Tristate) : Prop := a = .mod ∨ b = a

instance (a b : Tristate) : Decidable (a.Refines b) := instDecidableOr

namespace Tristate.Refines

theorem refl (a : Tristate) : a.Refines a := .inr rfl

theorem trans {a b c : Tristate} (h : a.Refines b) (h' : b.Refines c) : a.Refines c := by
  revert h h'; revert a b c; decide

theorem eq_of_ne {a b : Tristate} (h : a.Refines b) (ha : a ≠ .mod) : b = a := h.resolve_left ha

theorem op (c : Conn) {a b : Tristate} (h : a.Refines b) (k : Tristate) :
    (c.op a k).Refines (c.op b k) := by
  revert h; revert a b k; cases c <;> decide

end Tristate.Refines

section Refines
variable {τ type : Sym → SymType} {ρ : Sym → SymbolValue}

/-- If a chain says `a`, and says the negation of `a`, it has the value that absorbs, or is `m`. -/
theorem Conn.op_contradiction_refines (c : Conn) {f a k t : Tristate} (hf : f = c.op a k)
    (hn : c.op f t = f) (ht : c.op t a.eNot = t) : f.Refines c.dual.unit := by
  subst hf
  revert hn ht
  revert a k t
  cases c <;> decide

theorem exprEliminateDups2_refines (h : Standard type ρ) (hτ : TypesGrow τ type)
    (hb : Booleans type ρ) (n : ℕ) (c : Conn) (e : Expr) :
    (e.value type ρ).Refines ((exprEliminateDups2 τ n c e).1.value type ρ) := by
  induction n generalizing c e with
  | zero => exact .refl _
  | succ n ih =>
    obtain ⟨ls, hlen, hls, he⟩ := exprEliminateDups2_rule (τ := τ) (c := c)
      (P := fun ls => (e.value type ρ).Refines (c.fold type ρ ls)) n e
      (by rw [e.value_operands c]; exact .refl _)
      (fun ls i a c' ha _ hls => by
        obtain ⟨k, h1, h2⟩ := c.fold_set type ρ ha
        rw [h1] at hls
        rw [h2]
        exact hls.trans ((ih c' a).op c k))
      (fun ls i a node hnode ha _ hn hl hls => by
        obtain ⟨k, h1, h2⟩ := c.fold_set type ρ ha
        have hf := c.op_contradiction_refines h1 (c.op_fold_node hnode hl)
          (negationIn_value h hτ hb hn)
        rw [h2, h.value_neutral, c.op_dual_unit]
        exact hls.trans hf)
    rw [he, e.value_refill c ls hlen.ge, ← hlen, List.take_length]
    exact hls

theorem exprEliminateDupsAux_refines (h : Standard type ρ) (hτ : TypesGrow τ type)
    (hb : Booleans type ρ) (n : ℕ) (e : Expr) :
    (e.value type ρ).Refines ((exprEliminateDupsAux τ n e).value type ρ) := by
  induction n generalizing e with
  | zero => exact .refl _
  | succ n ih =>
    unfold exprEliminateDupsAux
    split
    · exact .refl _
    · rename_i c hc
      have h1 := exprEliminateDups1_value h hτ hb e.size c e
      have h2 := exprEliminateDups2_refines h hτ hb (exprEliminateDups1 τ e.size c e).1.size c
        (exprEliminateDups1 τ e.size c e).1
      rw [h1] at h2
      dsimp only
      split_ifs
      · exact h2
      · have h3 := ih (exprEliminateYn (exprEliminateDups2 τ
          (exprEliminateDups1 τ e.size c e).1.size c (exprEliminateDups1 τ e.size c e).1).1)
        rw [exprEliminateYn_value h] at h3
        exact h2.trans h3

end Refines

/-! ## Constants in chains -/

/-- A constant is in a chain, or the expression is one. -/
def Expr.HasConstant : Expr → Prop
  | symbol s => s = .yes ∨ s = .no
  | and l r | or l r => l.HasConstant ∨ r.HasConstant
  | _ => False

theorem Conn.neutral_hasConstant (c : Conn) : (Expr.symbol c.neutral).HasConstant := by
  cases c
  · exact .inl rfl
  · exact .inr rfl

theorem Conn.size_mk (c : Conn) (l r : Expr) : (c.mk l r).size = l.size + r.size + 1 := by
  cases c <;> rfl

theorem exprEliminateYn_size (e : Expr) : (exprEliminateYn e).size ≤ e.size ∧
    (e.HasConstant → (exprEliminateYn e).size < e.size ∨ e = .symbol .yes ∨ e = .symbol .no) := by
  induction e with
  | and l r ihl ihr | or l r ihl ihr =>
    have hl := l.size_pos
    have hr := r.size_pos
    have hsmall : (l.HasConstant ∨ r.HasConstant) →
        (exprEliminateYn l).size < l.size ∨ (exprEliminateYn r).size < r.size ∨
          exprEliminateYn l = .symbol .yes ∨ exprEliminateYn l = .symbol .no ∨
          exprEliminateYn r = .symbol .yes ∨ exprEliminateYn r = .symbol .no := by
      rintro (h | h)
      · rcases ihl.2 h with h | rfl | rfl <;> simp [h, exprEliminateYn]
      · rcases ihr.2 h with h | rfl | rfl <;> simp [h, exprEliminateYn]
    have h1 := ihl.1
    have h2 := ihr.1
    simp only [Expr.HasConstant, exprEliminateYn, Expr.size]
    refine ⟨?_, fun h => .inl ?_⟩
    · split_ifs <;> (try simp only [Expr.size]) <;> omega
    · have hs := hsmall h
      split_ifs <;> simp_all [Expr.size] <;> omega
  | symbol s => exact ⟨le_rfl, fun h => .inr (h.imp (congrArg _) (congrArg _))⟩
  | _ => exact ⟨le_rfl, False.elim⟩

/-- A chain that has a constant gets smaller. -/
theorem exprEliminateYn_size_lt {e : Expr} {c : Conn} (hc : e.conn? = some c)
    (h : e.HasConstant) : (exprEliminateYn e).size < e.size := by
  rcases (exprEliminateYn_size e).2 h with h | rfl | rfl
  · exact h
  · simp [Expr.conn?] at hc
  · simp [Expr.conn?] at hc

/-! ## The size of a chain -/

/-- The size of some operands. -/
def operandsSize (ls : List Expr) : ℕ := (ls.map Expr.size).sum

theorem operandsSize_set {ls : List Expr} {i : ℕ} {a : Expr} (ha : ls[i]? = some a) (x : Expr) :
    operandsSize (ls.set i x) + a.size = operandsSize ls + x.size := by
  induction ls generalizing i with
  | nil => simp at ha
  | cons b ls ih =>
    cases i with
    | zero =>
      obtain rfl : b = a := by simpa using ha
      simp only [operandsSize, List.set_cons_zero, List.map_cons, List.sum_cons]
      omega
    | succ i =>
      have := ih (i := i) (by simpa using ha)
      simp only [operandsSize, List.set_cons_succ, List.map_cons, List.sum_cons] at this ⊢
      omega

theorem exprJoin_size {τ : Sym → SymType} {c : Conn} {a b t : Expr}
    (ht : exprJoin τ c a b = some t) : t.size + 1 ≤ a.size + b.size := by
  have ha := a.size_pos
  have hb := b.size_pos
  unfold exprJoin at ht
  split_ifs at ht with heq
  · obtain rfl := Option.some.inj ht
    omega
  · split at ht
    · rename_i s1 s2 h1 h2
      split_ifs at ht
      have hone : t.size = 1 := by
        cases c with
        | and =>
          simp only at ht
          unfold joinAndRules at ht
          split at ht <;> (try split_ifs at ht) <;> cases ht <;> rfl
        | or =>
          simp only at ht
          unfold joinOrRules at ht
          split at ht <;> (try split_ifs at ht) <;> cases ht <;> rfl
      omega
    · cases ht

/-- The operands of a chain without the room that the others need at least. -/
theorem size_le_operandsSize {ls : List Expr} {a : Expr} (ha : a ∈ ls) :
    a.size + ls.length ≤ operandsSize ls + 1 := by
  have hlen (ls : List Expr) : ls.length ≤ operandsSize ls := by
    induction ls with
    | nil => rfl
    | cons b ls ih =>
      have := b.size_pos
      simp only [operandsSize, List.map_cons, List.sum_cons, List.length_cons] at ih ⊢
      omega
  induction ls with
  | nil => cases ha
  | cons b ls ih =>
    have hl := hlen ls
    have hb := b.size_pos
    rcases List.mem_cons.mp ha with rfl | ha
    · simp only [operandsSize, List.map_cons, List.sum_cons, List.length_cons] at hl ⊢
      omega
    · have := ih ha
      simp only [operandsSize, List.map_cons, List.sum_cons, List.length_cons] at this ⊢
      omega

theorem operandsSize_append (ls ls' : List Expr) :
    operandsSize (ls ++ ls') = operandsSize ls + operandsSize ls' := by simp [operandsSize]

section Refill
variable {c : Conn}

theorem Expr.size_refill (e : Expr) (ls : List Expr) (hlen : ls.length = (e.operands c).length) :
    (e.refill c ls).size + 1 = operandsSize ls + ls.length := by
  have one {e : Expr} {ls : List Expr} (hlen : ls.length = 1) :
      (ls.headD e).size + 1 = operandsSize ls + ls.length := by
    obtain ⟨a, rfl⟩ := List.length_eq_one_iff.mp hlen
    simp [operandsSize]
  induction e generalizing ls with
  | and l r ihl ihr | or l r ihl ihr =>
    simp only [operands, refill] at hlen ⊢
    split_ifs at hlen ⊢ with hc
    · rw [List.length_append] at hlen
      have hl := ihl (ls.take (operands c l).length) (by simp [hlen])
      have hr := ihr (ls.drop (operands c l).length) (by simp [hlen])
      have hsum := operandsSize_append (ls.take (operands c l).length)
        (ls.drop (operands c l).length)
      rw [List.take_append_drop] at hsum
      simp only [List.length_take, List.length_drop] at hl hr
      simp only [size]
      omega
    · exact one hlen
  | _ => exact one hlen

theorem Expr.size_operands (e : Expr) :
    e.size + 1 = operandsSize (e.operands c) + (e.operands c).length := by
  have h := e.size_refill (c := c) (e.operands c) rfl
  rwa [e.refill_operands] at h

theorem Expr.refill_hasConstant (e : Expr) (ls : List Expr)
    (hlen : ls.length = (e.operands c).length) (h : ∃ a ∈ ls, a.HasConstant) :
    (e.refill c ls).HasConstant := by
  have one {e : Expr} {ls : List Expr} (hlen : ls.length = 1) (h : ∃ a ∈ ls, a.HasConstant) :
      (ls.headD e).HasConstant := by
    obtain ⟨b, rfl⟩ := List.length_eq_one_iff.mp hlen
    simpa using h
  induction e generalizing ls with
  | and l r ihl ihr | or l r ihl ihr =>
    simp only [operands, refill] at hlen ⊢
    split_ifs at hlen ⊢ with hc
    · rw [List.length_append] at hlen
      obtain ⟨a, ha, hconst⟩ := h
      rw [← List.take_append_drop (operands c l).length ls, List.mem_append] at ha
      rcases ha with ha | ha
      · exact .inl (ihl _ (by simp [hlen]) ⟨a, ha, hconst⟩)
      · exact .inr (ihr _ (by simp [hlen]) ⟨a, ha, hconst⟩)
    · exact one hlen h
  | _ => exact one hlen h

theorem Expr.conn_refill {e : Expr} (he : e.conn? = some c) (ls : List Expr) :
    (e.refill c ls).conn? = some c := by
  cases e with
  | and l r => obtain rfl := Option.some.inj he; rfl
  | or l r => obtain rfl := Option.some.inj he; rfl
  | _ => cases he

/-- An operand of a chain is smaller than the chain. -/
theorem Expr.two_le_operands {e : Expr} (he : e.conn? = some c) : 2 ≤ (e.operands c).length := by
  have hpos (e : Expr) : 1 ≤ (e.operands c).length := by
    have h := e.size_operands (c := c)
    have hpos := e.size_pos
    by_contra hlt
    have hnil : e.operands c = [] := List.length_eq_zero_iff.mp (by omega)
    simp [hnil, operandsSize, hpos.ne'] at h
  cases e with
  | and l r | or l r =>
    obtain rfl := Option.some.inj he
    have hl := hpos l
    have hr := hpos r
    simp only [operands, if_true, List.length_append]
    omega
  | _ => cases he

end Refill

/-! ## What a pass counts -/

/-- A pass makes nothing bigger. If it counts nothing it changes nothing, and otherwise it leaves a
constant. -/
structure Counts (e : Expr) (r : Expr × ℕ) : Prop where
  size : r.1.size ≤ e.size
  same : r.2 = 0 → r.1 = e
  constant : r.2 ≠ 0 → r.1.HasConstant

theorem Counts.refl (e : Expr) : Counts e (e, 0) := ⟨le_rfl, fun _ => rfl, fun h => absurd rfl h⟩

/-- The same for the operands of a chain. -/
structure OperandsCount (ls : List Expr) (s : Operands) : Prop where
  length : s.1.length = ls.length
  size : operandsSize s.1 ≤ operandsSize ls
  same : s.2 = 0 → s.1 = ls
  constant : s.2 ≠ 0 → ∃ a ∈ s.1, a.HasConstant

namespace OperandsCount
variable {ls : List Expr} {s : Operands} {c : Conn}

theorem refl (ls : List Expr) : OperandsCount ls (ls, 0) :=
  ⟨rfl, le_rfl, fun _ => rfl, fun h => absurd rfl h⟩

/-- A step that counts and puts a constant somewhere. -/
theorem step (h : OperandsCount ls s) {ls' : List Expr} (hlen : ls'.length = s.1.length)
    (hsize : operandsSize ls' ≤ operandsSize s.1) (hconst : ∃ a ∈ ls', a.HasConstant) :
    OperandsCount ls (ls', s.2 + 1) :=
  ⟨hlen.trans h.length, hsize.trans h.size, fun h0 => by simp at h0, fun _ => hconst⟩

theorem dupsOperand (h : OperandsCount ls s) {self : Conn → Expr → Expr × ℕ} (i : ℕ)
    (hself : ∀ a c, s.1[i]? = some a → Counts a (self c a)) :
    OperandsCount ls (dupsOperand self i s) := by
  unfold Kconfig.dupsOperand
  split
  · exact h
  · rename_i a ha
    split
    · exact h
    · rename_i c hc
      have hr := hself a c ha
      have hsum := operandsSize_set ha (self c a).1
      have hsize := hr.size
      by_cases h0 : (self c a).2 = 0
      · have hset : s.1.set i (self c a).1 = s.1 := by
          rw [hr.same h0]
          exact List.ext_getElem? fun j => by
            by_cases hj : i = j
            · subst hj
              have hlt := (List.getElem?_eq_some_iff.mp ha).1
              rw [List.getElem?_set_self hlt, ha]
            · rw [List.getElem?_set_ne hj]
        rw [hset, h0]
        exact h
      · have hlt : i < s.1.length := (List.getElem?_eq_some_iff.mp ha).1
        refine ⟨by simpa using h.length, by have := h.size; dsimp only; omega,
          fun hz => by simp [h0] at hz, fun _ => ⟨_, List.mem_set hlt _, hr.constant h0⟩⟩

theorem joinOperands (h : OperandsCount ls s) (τ : Sym → SymType) {i j : ℕ} (hij : i ≠ j) :
    OperandsCount ls (joinOperands τ c i j s) := by
  unfold Kconfig.joinOperands
  split
  · rename_i a b ha hb
    split
    · rename_i t ht
      have hb' : (s.1.set i (.symbol c.neutral))[j]? = some b := by
        rw [List.getElem?_set_ne hij, hb]
      have h1 := operandsSize_set ha (.symbol c.neutral)
      have h2 := operandsSize_set hb' t
      have hsize := exprJoin_size ht
      simp only [Expr.size] at h1
      refine h.step (by simp) (by omega) ⟨.symbol c.neutral, ?_, c.neutral_hasConstant⟩
      have hlt : i < s.1.length := (List.getElem?_eq_some_iff.mp ha).1
      refine List.mem_iff_getElem?.mpr ⟨i, ?_⟩
      rw [List.getElem?_set_ne hij.symm, List.getElem?_set_self (by simpa using hlt)]
    · exact h
  · exact h

theorem cancelOperand (h : OperandsCount ls s) (τ : Sym → SymType) (i : ℕ) (node : ℕ × Expr) :
    OperandsCount ls (cancelOperand τ c i node s) := by
  unfold Kconfig.cancelOperand
  split
  · exact h
  · rename_i a ha
    split_ifs
    · have h1 := operandsSize_set ha (.symbol c.dual.neutral)
      have hpos := a.size_pos
      have hlt : i < s.1.length := (List.getElem?_eq_some_iff.mp ha).1
      simp only [Expr.size] at h1
      exact h.step (by simp) (by omega) ⟨_, List.mem_set hlt _, c.dual.neutral_hasConstant⟩
    · exact h

end OperandsCount

/-- A pass that refills a chain with what such steps leave. -/
theorem OperandsCount.refill {c : Conn} {e : Expr} {s : Operands}
    (h : OperandsCount (e.operands c) s) : Counts e (e.refill c s.1, s.2) where
  size := by
    have h1 := e.size_refill s.1 h.length
    have h2 := e.size_operands (c := c)
    have h3 := h.size
    have h4 := h.length
    dsimp only
    omega
  same h0 := by
    dsimp only
    rw [h.same h0, e.refill_operands]
  constant h0 := e.refill_hasConstant s.1 h.length (h.constant h0)

section Passes
variable (τ : Sym → SymType)

theorem dups1Pair_counts {self : Conn → Expr → Expr × ℕ} {ls : List Expr} {s : Operands}
    (h : OperandsCount ls s) (hself : ∀ a c, a ∈ s.1 → Counts a (self c a)) (c : Conn) (p : ℕ × ℕ) :
    OperandsCount ls (dups1Pair τ self c s p) := by
  unfold dups1Pair
  split_ifs with hp
  · exact h
  · exact (h.dupsOperand p.1 fun a c ha => hself a c (List.mem_of_getElem? ha)).joinOperands τ hp

theorem dups2Pair_counts {self : Conn → Expr → Expr × ℕ} {ls : List Expr} {s : Operands}
    (h : OperandsCount ls s) (hself : ∀ a c, a ∈ s.1 → Counts a (self c a)) (c : Conn)
    (p : ℕ × ℕ × Expr) : OperandsCount ls (dups2Pair τ self c s p) := by
  unfold dups2Pair
  split_ifs
  · exact h
  · exact (h.dupsOperand p.1 fun a c ha => hself a c (List.mem_of_getElem? ha)).cancelOperand τ _ _

theorem exprEliminateDups1_counts (n : ℕ) (c : Conn) (e : Expr) :
    Counts e (exprEliminateDups1 τ n c e) := by
  induction n generalizing c e with
  | zero => exact .refl e
  | succ n ih =>
    exact (List.foldlRecOn (motive := OperandsCount (e.operands c)) _ _ (.refl _)
      fun s hs p _ => dups1Pair_counts τ hs (fun a c _ => ih c a) c p).refill

theorem exprEliminateDups2_counts (n : ℕ) (c : Conn) (e : Expr) :
    Counts e (exprEliminateDups2 τ n c e) := by
  induction n generalizing c e with
  | zero => exact .refl e
  | succ n ih =>
    exact (List.foldlRecOn (motive := OperandsCount (e.operands c)) _ _ (.refl _)
      fun s hs p _ => dups2Pair_counts τ hs (fun a c _ => ih c a) c p).refill

/-- Two passes over the same pairs agree if they agree on operands that are small enough. -/
theorem foldl_operands_congr {α : Type} {f g : Operands → α → Operands} (ls : List Expr)
    (ps : List α) (hf : ∀ s, OperandsCount ls s → ∀ p ∈ ps, OperandsCount ls (f s p))
    (hfg : ∀ s, OperandsCount ls s → ∀ p ∈ ps, f s p = g s p) {s : Operands}
    (hs : OperandsCount ls s) : ps.foldl f s = ps.foldl g s := by
  induction ps generalizing s with
  | nil => rfl
  | cons p ps ih =>
    rw [List.foldl_cons, List.foldl_cons, ← hfg s hs p (by simp)]
    exact ih (fun s hs p hp => hf s hs p (List.mem_cons_of_mem _ hp))
      (fun s hs p hp => hfg s hs p (List.mem_cons_of_mem _ hp)) (hf s hs p (by simp))

/-- The operands stay smaller than a chain of at least two. -/
theorem OperandsCount.size_lt {c : Conn} {e : Expr} {s : Operands}
    (h : OperandsCount (e.operands c) s) (hlen : 2 ≤ (e.operands c).length) {a : Expr}
    (ha : a ∈ s.1) : a.size < e.size := by
  have h1 := size_le_operandsSize ha
  have h2 := h.size
  have h3 := h.length
  have h4 := e.size_operands (c := c)
  omega

theorem dupsOperand_congr {self self' : Conn → Expr → Expr × ℕ} {s : Operands} (i : ℕ)
    (h : ∀ a c, a ∈ s.1 → self c a = self' c a) : dupsOperand self i s = dupsOperand self' i s := by
  unfold dupsOperand
  split
  · rfl
  · rename_i a ha
    split
    · rfl
    · rw [h a _ (List.mem_of_getElem? ha)]

/-- A chain of one operand is not a chain. -/
theorem Expr.operands_of_length_lt {c : Conn} {e : Expr} (h : (e.operands c).length < 2) :
    e.conn? ≠ some c ∧ e.operands c = [e] := by
  refine ⟨fun hc => by have := two_le_operands hc; omega, ?_⟩
  cases e with
  | and l r =>
    cases c with
    | and => have := two_le_operands (e := .and l r) rfl; omega
    | or => rfl
  | or l r =>
    cases c with
    | and => rfl
    | or => have := two_le_operands (e := .or l r) rfl; omega
  | _ => rfl

/-- Enough fuel is as good as more. -/
theorem exprEliminateDups1_fuel (n m : ℕ) (c : Conn) (e : Expr) (hn : e.size ≤ n)
    (hm : e.size ≤ m) : exprEliminateDups1 τ n c e = exprEliminateDups1 τ m c e := by
  induction n generalizing m c e with
  | zero => have := e.size_pos; omega
  | succ n ih =>
    obtain ⟨m, rfl⟩ : ∃ k, m = k + 1 := ⟨m - 1, by have := e.size_pos; omega⟩
    have hfold : (positionPairs (e.operands c).length).foldl
          (dups1Pair τ (exprEliminateDups1 τ n) c) (e.operands c, 0) =
        (positionPairs (e.operands c).length).foldl
          (dups1Pair τ (exprEliminateDups1 τ m) c) (e.operands c, 0) := by
      refine foldl_operands_congr (e.operands c) _
        (fun s hs p _ => dups1Pair_counts τ hs (fun a c _ => exprEliminateDups1_counts τ n c a) c p)
        (fun s hs p hp => ?_) (.refl _)
      by_cases hlen : 2 ≤ (e.operands c).length
      · unfold dups1Pair
        rw [dupsOperand_congr p.1 fun a c' ha => ih m c' a (by have := hs.size_lt hlen ha; omega)
          (by have := hs.size_lt hlen ha; omega)]
      · obtain ⟨i, hi, hp⟩ := List.mem_flatMap.mp hp
        obtain ⟨j, hj, rfl⟩ := List.mem_map.mp hp
        rw [List.mem_range] at hi hj
        have hij : i = j := by omega
        simp [dups1Pair, hij]
    simp only [exprEliminateDups1]
    rw [hfold]

theorem exprEliminateDups2_fuel (n m : ℕ) (c : Conn) (e : Expr) (hn : e.size ≤ n)
    (hm : e.size ≤ m) : exprEliminateDups2 τ n c e = exprEliminateDups2 τ m c e := by
  induction n generalizing m c e with
  | zero => have := e.size_pos; omega
  | succ n ih =>
    obtain ⟨m, rfl⟩ : ∃ k, m = k + 1 := ⟨m - 1, by have := e.size_pos; omega⟩
    have hfold : (positionNodes c e).foldl
          (dups2Pair τ (exprEliminateDups2 τ n) c) (e.operands c, 0) =
        (positionNodes c e).foldl
          (dups2Pair τ (exprEliminateDups2 τ m) c) (e.operands c, 0) := by
      refine foldl_operands_congr (e.operands c) _
        (fun s hs p _ => dups2Pair_counts τ hs (fun a c _ => exprEliminateDups2_counts τ n c a) c p)
        (fun s hs p hp => ?_) (.refl _)
      by_cases hlen : 2 ≤ (e.operands c).length
      · unfold dups2Pair
        rw [dupsOperand_congr p.1 fun a c' ha => ih m c' a (by have := hs.size_lt hlen ha; omega)
          (by have := hs.size_lt hlen ha; omega)]
      · obtain ⟨hconn, hops⟩ := e.operands_of_length_lt (c := c) (by omega)
        obtain ⟨i, hi, hp⟩ := List.mem_flatMap.mp hp
        obtain ⟨node, hnode, rfl⟩ := List.mem_map.mp hp
        have hnodes : e.nodes c 0 = [(0, e)] := by
          cases e with
          | and l r => cases c <;> first | rfl | exact absurd rfl hconn
          | or l r => cases c <;> first | rfl | exact absurd rfl hconn
          | _ => rfl
        rw [hnodes, List.mem_singleton] at hnode
        rw [List.mem_range, hops, List.length_singleton] at hi
        have hi : i = 0 := by omega
        simp [dups2Pair, hnode, hi, hconn]
    simp only [exprEliminateDups2]
    rw [hfold]

/-- The loop ends: a round that counts makes the expression smaller. -/
theorem exprEliminateDupsAux_fuel (n m : ℕ) (e : Expr) (hn : e.size ≤ n) (hm : e.size ≤ m) :
    exprEliminateDupsAux τ n e = exprEliminateDupsAux τ m e := by
  induction n generalizing m e with
  | zero => have := e.size_pos; omega
  | succ n ih =>
    obtain ⟨m, rfl⟩ : ∃ k, m = k + 1 := ⟨m - 1, by have := e.size_pos; omega⟩
    unfold exprEliminateDupsAux
    split
    · rfl
    · rename_i c hc
      dsimp only
      have h1 := exprEliminateDups1_counts τ e.size c e
      have h2 := exprEliminateDups2_counts τ (exprEliminateDups1 τ e.size c e).1.size c
        (exprEliminateDups1 τ e.size c e).1
      have hconn1 : (exprEliminateDups1 τ e.size c e).1.conn? = some c := by
        obtain ⟨k, hk⟩ : ∃ k, e.size = k + 1 := ⟨e.size - 1, by have := e.size_pos; omega⟩
        rw [hk]
        exact Expr.conn_refill hc _
      generalize exprEliminateDups1 τ e.size c e = r at h1 h2 hconn1 ⊢
      have hconn2 : (exprEliminateDups2 τ r.1.size c r.1).1.conn? = some c := by
        obtain ⟨k, hk⟩ : ∃ k, r.1.size = k + 1 := ⟨r.1.size - 1, by have := r.1.size_pos; omega⟩
        rw [hk]
        exact Expr.conn_refill hconn1 _
      generalize exprEliminateDups2 τ r.1.size c r.1 = r' at h2 hconn2 ⊢
      split_ifs with h0
      · rfl
      · have hconst : r'.1.HasConstant := by
          by_cases h2' : r'.2 = 0
          · rw [h2.same h2']
            exact h1.constant (by omega)
          · exact h2.constant h2'
        have hlt := exprEliminateYn_size_lt hconn2 hconst
        have hs1 := h1.size
        have hs2 := h2.size
        exact ih m _ (by omega) (by omega)

end Passes

/-! ## The whole of `expr_eliminate_dups` -/

section Example

/-- `(A || B) && (!A && !B)`. -/
def cancelledAnd : Expr :=
  let a := Expr.symbol (.config nameA)
  let b := Expr.symbol (.config nameB)
  .and (.or a b) (.and (.not a) (.not b))

end Example

end Grasshopper.Kconfig
