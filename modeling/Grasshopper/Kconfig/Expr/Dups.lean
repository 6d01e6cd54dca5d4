import Grasshopper.Kconfig.Expr.Join

/-! # `expr_eliminate_dups` of `expr.c`

`expr_eliminate_dups1` and `expr_eliminate_dups2` compare the operands of one chain with each
other, through two pointers into it. Neither moves an operand to another place, so a chain is
the list of its operands, and the two pointers are two positions in the list.
-/

namespace Grasshopper.Kconfig

namespace Expr

/-- The operands of a chain of type `c`, from left to right. -/
def operands (c : Conn) : Expr → List Expr
  | and l r => if c = .and then operands c l ++ operands c r else [and l r]
  | or l r => if c = .or then operands c l ++ operands c r else [or l r]
  | e => [e]

/-- The chain `e` with the operands of a list in place of its own. -/
def refill (c : Conn) : Expr → List Expr → Expr
  | and l r, ls =>
    if c = .and then
      let n := (operands c l).length
      and (refill c l (ls.take n)) (refill c r (ls.drop n))
    else ls.headD (and l r)
  | or l r, ls =>
    if c = .or then
      let n := (operands c l).length
      or (refill c l (ls.take n)) (refill c r (ls.drop n))
    else ls.headD (or l r)
  | e, ls => ls.headD e

/-- The operands and then the chains inside the chain `e`, children first, each with the
position of its first operand. -/
def nodes (c : Conn) : Expr → ℕ → List (ℕ × Expr)
  | and l r, off =>
    if c = .and then nodes c l off ++ nodes c r (off + (operands c l).length) ++ [(off, and l r)]
    else [(off, and l r)]
  | or l r, off =>
    if c = .or then nodes c l off ++ nodes c r (off + (operands c l).length) ++ [(off, or l r)]
    else [(off, or l r)]
  | e, off => [(off, e)]

end Expr

/-- The operands of a chain under elimination, with `trans_count`. -/
abbrev Operands := List Expr × ℕ

/-- Run `expr_eliminate_dups` `self` on the operand at position `i`, if that is a chain. -/
def dupsOperand (self : Conn → Expr → Expr × ℕ) (i : ℕ) (s : Operands) : Operands :=
  match s.1[i]? with
  | none => s
  | some a =>
    match a.conn? with
    | none => s
    | some c => (s.1.set i (self c a).1, s.2 + (self c a).2)

/-- Join the operands at two positions, if a rule applies: the first becomes neutral. -/
def joinOperands (τ : Sym → SymType) (c : Conn) (i j : ℕ) (s : Operands) : Operands :=
  match s.1[i]?, s.1[j]? with
  | some a, some b =>
    match exprJoin τ c a b with
    | some t => ((s.1.set i (.symbol c.neutral)).set j t, s.2 + 1)
    | none => s
  | _, _ => s

/-- `expr_eliminate_dups1` on two operands. -/
def dups1Pair (τ : Sym → SymType) (self : Conn → Expr → Expr × ℕ) (c : Conn) (s : Operands)
    (p : ℕ × ℕ) : Operands :=
  if p.1 = p.2 then s else joinOperands τ c p.1 p.2 (dupsOperand self p.1 s)

/-- Every pair of positions, the first one slowest. -/
def positionPairs (n : ℕ) : List (ℕ × ℕ) :=
  (List.range n).flatMap fun i => (List.range n).map fun j => (i, j)

/-- `expr_eliminate_dups1(type, &e, &e)`, with fuel for the nesting of chains. -/
def exprEliminateDups1 (τ : Sym → SymType) : ℕ → Conn → Expr → Expr × ℕ
  | 0, _, e => (e, 0)
  | n + 1, c, e =>
    let ls := e.operands c
    let r := (positionPairs ls.length).foldl (dups1Pair τ (exprEliminateDups1 τ n) c) (ls, 0)
    (e.refill c r.1, r.2)

/-- The test of `expr_eliminate_dups2`: the negation of `a` consists of operands of `b`. -/
def negationIn (τ : Sym → SymType) (c : Conn) (a b : Expr) : Bool :=
  (exprExtractEq c (exprTransform τ (.not a)) b).1 = .symbol c.neutral

/-- Replace the chain at position `i` if its negation consists of operands of the node:
`(FOO || BAR) && (!FOO && !BAR) -> n` and `(FOO && BAR) || (!FOO || !BAR) -> y`. -/
def cancelOperand (τ : Sym → SymType) (c : Conn) (i : ℕ) (node : ℕ × Expr) (s : Operands) :
    Operands :=
  match s.1[i]? with
  | none => s
  | some a =>
    if a.conn? = some c.dual ∧ negationIn τ c a (node.2.refill c (s.1.drop node.1)) then
      (s.1.set i (.symbol c.dual.neutral), s.2 + 1)
    else s

/-- `expr_eliminate_dups2` on an operand and a node of the chain. An operand is not compared
with itself, but with every chain that contains it. -/
def dups2Pair (τ : Sym → SymType) (self : Conn → Expr → Expr × ℕ) (c : Conn) (s : Operands)
    (p : ℕ × ℕ × Expr) : Operands :=
  if p.2.2.conn? ≠ some c ∧ p.2.1 = p.1 then s
  else cancelOperand τ c p.1 p.2 (dupsOperand self p.1 s)

/-- Every position with every node of the chain. -/
def positionNodes (c : Conn) (e : Expr) : List (ℕ × ℕ × Expr) :=
  (List.range (e.operands c).length).flatMap fun i => (e.nodes c 0).map fun node => (i, node)

/-- `expr_eliminate_dups2(type, &e, &e)`, with fuel for the nesting of chains. -/
def exprEliminateDups2 (τ : Sym → SymType) : ℕ → Conn → Expr → Expr × ℕ
  | 0, _, e => (e, 0)
  | n + 1, c, e =>
    let r := (positionNodes c e).foldl (dups2Pair τ (exprEliminateDups2 τ n) c) (e.operands c, 0)
    (e.refill c r.1, r.2)

/-- The loop of `expr_eliminate_dups`; each round that counts makes the expression smaller. -/
def exprEliminateDupsAux (τ : Sym → SymType) : ℕ → Expr → Expr
  | 0, e => e
  | n + 1, e =>
    match e.conn? with
    | none => e
    | some c =>
      let r := exprEliminateDups1 τ e.size c e
      let r' := exprEliminateDups2 τ r.1.size c r.1
      if r.2 + r'.2 = 0 then r'.1 else exprEliminateDupsAux τ n (exprEliminateYn r'.1)

def exprEliminateDups (τ : Sym → SymType) (e : Expr) : Expr :=
  exprEliminateDupsAux τ (e.size + 1) e

/-! ## What a pass does to the operands -/

theorem Expr.refill_operands (c : Conn) (e : Expr) : e.refill c (e.operands c) = e := by
  induction e with
  | and l r ihl ihr =>
    simp only [refill, operands]
    split_ifs
    · simp [ihl, ihr]
    · rfl
  | or l r ihl ihr =>
    simp only [refill, operands]
    split_ifs
    · simp [ihl, ihr]
    · rfl
  | symbol s => rfl
  | not e ih => rfl
  | equal a b => rfl
  | unequal a b => rfl

/-- What holds of the operands and of chains of such operands holds of the refilled chain. -/
theorem Expr.refill_of {Q : Expr → Prop} {c : Conn} (mk : ∀ l r, Q l → Q r → Q (c.mk l r))
    (e : Expr) (ls : List Expr) (hlen : ls.length = (e.operands c).length)
    (hls : ∀ a ∈ ls, Q a) : Q (e.refill c ls) := by
  have one {e : Expr} {ls : List Expr} (hlen : ls.length = 1) (hls : ∀ a ∈ ls, Q a) :
      Q (ls.headD e) := by
    obtain ⟨a, rfl⟩ := List.length_eq_one_iff.mp hlen
    exact hls a (by simp)
  induction e generalizing ls with
  | and l r ihl ihr =>
    by_cases hc : c = .and
    · simp only [operands, hc, if_true, List.length_append] at hlen
      simp only [refill, hc, if_true]
      rw [hc] at mk ihl ihr
      exact mk _ _ (ihl _ (by simp [hlen]) fun a ha => hls a (List.mem_of_mem_take ha))
        (ihr _ (by simp [hlen]) fun a ha => hls a (List.mem_of_mem_drop ha))
    · simp only [operands, hc, if_false] at hlen
      simpa only [refill, hc, if_false] using one hlen hls
  | or l r ihl ihr =>
    by_cases hc : c = .or
    · simp only [operands, hc, if_true, List.length_append] at hlen
      simp only [refill, hc, if_true]
      rw [hc] at mk ihl ihr
      exact mk _ _ (ihl _ (by simp [hlen]) fun a ha => hls a (List.mem_of_mem_take ha))
        (ihr _ (by simp [hlen]) fun a ha => hls a (List.mem_of_mem_drop ha))
    · simp only [operands, hc, if_false] at hlen
      simpa only [refill, hc, if_false] using one hlen hls
  | symbol s => exact one hlen hls
  | not e ih => exact one hlen hls
  | equal a b => exact one hlen hls
  | unequal a b => exact one hlen hls

section Rule
variable {τ : Sym → SymType} {self : Conn → Expr → Expr × ℕ} {c : Conn} {P : List Expr → Prop}

theorem dupsOperand_rule (s : Operands) (i : ℕ)
    (operand : ∀ ls i a c', ls[i]? = some a → a.conn? = some c' → P ls →
      P (ls.set i (self c' a).1)) (h : P s.1) : P (dupsOperand self i s).1 := by
  unfold dupsOperand
  split
  · exact h
  · rename_i a ha
    split
    · exact h
    · rename_i c hc
      exact operand _ i a c ha hc h

theorem dups1Pair_rule (s : Operands) (p : ℕ × ℕ)
    (operand : ∀ ls i a c', ls[i]? = some a → a.conn? = some c' → P ls →
      P (ls.set i (self c' a).1))
    (join : ∀ ls i j a b t, i ≠ j → ls[i]? = some a → ls[j]? = some b →
      exprJoin τ c a b = some t → P ls → P ((ls.set i (.symbol c.neutral)).set j t))
    (h : P s.1) : P (dups1Pair τ self c s p).1 := by
  unfold dups1Pair
  split_ifs with hp
  · exact h
  · have h' := dupsOperand_rule s p.1 operand h
    unfold joinOperands
    split
    · rename_i a b ha hb
      split
      · rename_i t ht
        exact join _ _ _ a b t hp ha hb ht h'
      · exact h'
    · exact h'

theorem dups2Pair_rule (s : Operands) (p : ℕ × ℕ × Expr)
    (operand : ∀ ls i a c', ls[i]? = some a → a.conn? = some c' → P ls →
      P (ls.set i (self c' a).1))
    (cancel : ∀ ls i a, ls[i]? = some a → a.conn? = some c.dual →
      negationIn τ c a (p.2.2.refill c (ls.drop p.2.1)) = true → P ls →
      P (ls.set i (.symbol c.dual.neutral)))
    (h : P s.1) : P (dups2Pair τ self c s p).1 := by
  unfold dups2Pair
  split_ifs with hp
  · exact h
  · have h' := dupsOperand_rule s p.1 operand h
    unfold cancelOperand
    split
    · exact h'
    · rename_i a ha
      split_ifs with hc
      · exact cancel _ _ a ha hc.1 hc.2 h'
      · exact h'

/-- What the pass leaves is the chain refilled with operands that keep every invariant of the
recursive calls and of the joins. -/
theorem exprEliminateDups1_rule (n : ℕ) (e : Expr) (init : P (e.operands c))
    (operand : ∀ ls i a c', ls[i]? = some a → a.conn? = some c' → P ls →
      P (ls.set i (exprEliminateDups1 τ n c' a).1))
    (join : ∀ ls i j a b t, i ≠ j → ls[i]? = some a → ls[j]? = some b →
      exprJoin τ c a b = some t → P ls → P ((ls.set i (.symbol c.neutral)).set j t)) :
    ∃ ls, ls.length = (e.operands c).length ∧ P ls ∧
      (exprEliminateDups1 τ (n + 1) c e).1 = e.refill c ls := by
  have both := List.foldlRecOn
    (motive := fun s : Operands => s.1.length = (e.operands c).length ∧ P s.1)
    (positionPairs (e.operands c).length) (dups1Pair τ (exprEliminateDups1 τ n) c)
    (b := (e.operands c, 0)) ⟨rfl, init⟩ (fun s hs p _ => dups1Pair_rule
      (P := fun ls => ls.length = (e.operands c).length ∧ P ls) s p
      (fun ls i a c' ha hc h => ⟨by simpa using h.1, operand ls i a c' ha hc h.2⟩)
      (fun ls i j a b t hij ha hb ht h =>
        ⟨by simpa using h.1, join ls i j a b t hij ha hb ht h.2⟩) hs)
  exact ⟨_, both.1, both.2, rfl⟩

theorem exprEliminateDups2_rule (n : ℕ) (e : Expr) (init : P (e.operands c))
    (operand : ∀ ls i a c', ls[i]? = some a → a.conn? = some c' → P ls →
      P (ls.set i (exprEliminateDups2 τ n c' a).1))
    (cancel : ∀ ls i a, ∀ node ∈ e.nodes c 0, ls[i]? = some a → a.conn? = some c.dual →
      negationIn τ c a (node.2.refill c (ls.drop node.1)) = true →
      ls.length = (e.operands c).length → P ls → P (ls.set i (.symbol c.dual.neutral))) :
    ∃ ls, ls.length = (e.operands c).length ∧ P ls ∧
      (exprEliminateDups2 τ (n + 1) c e).1 = e.refill c ls := by
  have both := List.foldlRecOn
    (motive := fun s : Operands => s.1.length = (e.operands c).length ∧ P s.1)
    (positionNodes c e) (dups2Pair τ (exprEliminateDups2 τ n) c) (b := (e.operands c, 0))
    ⟨rfl, init⟩ (fun s hs p hp => by
      obtain ⟨i, _, hp⟩ := List.mem_flatMap.mp hp
      obtain ⟨node, hnode, rfl⟩ := List.mem_map.mp hp
      exact dups2Pair_rule (P := fun ls => ls.length = (e.operands c).length ∧ P ls) s _
        (fun ls i a c' ha hc h => ⟨by simpa using h.1, operand ls i a c' ha hc h.2⟩)
        (fun ls i a ha hc hn h => ⟨by simpa using h.1, cancel ls i a node hnode ha hc hn h.1 h.2⟩)
        hs)
  exact ⟨_, both.1, both.2, rfl⟩

end Rule

/-! ## The value of a list of operands -/

section Value
variable {τ type : Sym → SymType} {ρ : Sym → SymbolValue}

/-- The value of a chain with the given operands. -/
def Conn.fold (type : Sym → SymType) (ρ : Sym → SymbolValue) (c : Conn) (ls : List Expr) :
    Tristate :=
  ls.foldr (fun e a => c.op (e.value type ρ) a) c.unit

@[simp] theorem Conn.fold_nil (c : Conn) : c.fold type ρ [] = c.unit := rfl
@[simp] theorem Conn.fold_cons (c : Conn) (e : Expr) (ls : List Expr) :
    c.fold type ρ (e :: ls) = c.op (e.value type ρ) (c.fold type ρ ls) := rfl

theorem Conn.fold_append (c : Conn) (ls ls' : List Expr) :
    c.fold type ρ (ls ++ ls') = c.op (c.fold type ρ ls) (c.fold type ρ ls') := by
  induction ls with
  | nil => simp
  | cons e ls ih => simp only [List.cons_append, fold_cons, ih, c.op_assoc]

variable (type ρ) in
/-- The other operands stay when one is replaced. -/
theorem Conn.fold_set (c : Conn) {ls : List Expr} {i : ℕ} {a : Expr} (ha : ls[i]? = some a) :
    ∃ k, c.fold type ρ ls = c.op (a.value type ρ) k ∧
      ∀ x, c.fold type ρ (ls.set i x) = c.op (x.value type ρ) k := by
  induction ls generalizing i with
  | nil => simp at ha
  | cons e ls ih =>
    cases i with
    | zero =>
      obtain rfl : e = a := by simpa using ha
      exact ⟨c.fold type ρ ls, rfl, fun x => rfl⟩
    | succ i =>
      obtain ⟨k, h1, h2⟩ := ih (by simpa using ha)
      refine ⟨c.op (e.value type ρ) k, ?_, fun x => ?_⟩
      · rw [fold_cons, h1, ← c.op_assoc, ← c.op_assoc, c.op_comm (e.value type ρ)]
      · rw [List.set_cons_succ, fold_cons, h2, ← c.op_assoc, ← c.op_assoc,
          c.op_comm (e.value type ρ)]

theorem Conn.op_self (c : Conn) (a : Tristate) : c.op a a = a := by
  revert a; cases c <;> decide

/-- An operand adds nothing to a chain that has it. -/
theorem Conn.op_fold_of_mem (c : Conn) {ls : List Expr} {a : Expr} (ha : a ∈ ls) :
    c.op (c.fold type ρ ls) (a.value type ρ) = c.fold type ρ ls := by
  obtain ⟨i, hi⟩ := List.mem_iff_getElem?.mp ha
  obtain ⟨k, h, _⟩ := c.fold_set type ρ hi
  rw [h, c.op_comm, ← c.op_assoc, c.op_self]

theorem Conn.op_fold_of_subset (c : Conn) {ls ls' : List Expr} (h : ls' ⊆ ls) :
    c.op (c.fold type ρ ls) (c.fold type ρ ls') = c.fold type ρ ls := by
  induction ls' with
  | nil => simp
  | cons a ls' ih =>
    rw [fold_cons, ← c.op_assoc, c.op_fold_of_mem (h List.mem_cons_self),
      ih fun x hx => h (List.mem_cons_of_mem a hx)]

theorem Expr.value_operands (c : Conn) (e : Expr) :
    c.fold type ρ (e.operands c) = e.value type ρ := by
  have mk (l r : Expr) : (c.mk l r).value type ρ = c.op (l.value type ρ) (r.value type ρ) :=
    Conn.value_mk c l r
  induction e with
  | and l r ihl ihr =>
    by_cases hc : c = .and
    · rw [operands, if_pos hc, c.fold_append, ihl, ihr, ← mk, hc]; rfl
    · simp [operands, hc]
  | or l r ihl ihr =>
    by_cases hc : c = .or
    · rw [operands, if_pos hc, c.fold_append, ihl, ihr, ← mk, hc]; rfl
    · simp [operands, hc]
  | symbol s => simp [operands]
  | not e ih => simp [operands]
  | equal a b => simp [operands]
  | unequal a b => simp [operands]

theorem Expr.value_headD {e : Expr} {ls : List Expr} (c : Conn) (hlen : 1 ≤ ls.length) :
    (ls.headD e).value type ρ = c.fold type ρ (ls.take 1) := by
  cases ls with
  | nil => simp at hlen
  | cons a ls => simp

/-- The two halves of the operand list of a chain. -/
theorem Conn.fold_take_add (c : Conn) (ls : List Expr) (n m : ℕ) :
    c.op (c.fold type ρ ((ls.take n).take n)) (c.fold type ρ ((ls.drop n).take m)) =
      c.fold type ρ (ls.take (n + m)) := by
  rw [List.take_take, min_self, ← c.fold_append, List.take_add]

theorem Expr.value_refill (c : Conn) (e : Expr) (ls : List Expr)
    (hlen : (e.operands c).length ≤ ls.length) :
    (e.refill c ls).value type ρ = c.fold type ρ (ls.take (e.operands c).length) := by
  induction e generalizing ls with
  | and l r ihl ihr =>
    by_cases hc : c = .and
    · subst hc
      simp only [operands, if_true, List.length_append] at hlen ⊢
      rw [← Conn.fold_take_add, ← ihl _ (by simp; omega), ← ihr _ (by simp; omega)]
      simp only [refill, if_true]
      rfl
    · simp only [operands, refill, hc, if_false] at hlen ⊢
      exact value_headD c hlen
  | or l r ihl ihr =>
    by_cases hc : c = .or
    · subst hc
      simp only [operands, if_true, List.length_append] at hlen ⊢
      rw [← Conn.fold_take_add, ← ihl _ (by simp; omega), ← ihr _ (by simp; omega)]
      simp only [refill, if_true]
      rfl
    · simp only [operands, refill, hc, if_false] at hlen ⊢
      exact value_headD c hlen
  | symbol s => exact value_headD c hlen
  | not e ih => exact value_headD c hlen
  | equal a b => exact value_headD c hlen
  | unequal a b => exact value_headD c hlen

/-- A node lies within the operands of its chain. -/
theorem Expr.nodes_bound {c : Conn} (e : Expr) (off : ℕ) :
    ∀ node ∈ e.nodes c off, off ≤ node.1 ∧
      node.1 + (node.2.operands c).length ≤ off + (e.operands c).length := by
  induction e generalizing off with
  | and l r ihl ihr =>
    intro node hnode
    by_cases hc : c = .and
    · simp only [nodes, hc, if_true, List.mem_append, List.mem_singleton] at hnode
      rw [hc] at ihl ihr
      simp only [hc, operands, if_true, List.length_append]
      rcases hnode with (hl | hr) | rfl
      · have := ihl off node hl; omega
      · have := ihr _ node hr; omega
      · simp [operands]
    · simp only [nodes, hc, if_false, List.mem_singleton] at hnode
      subst hnode; exact ⟨le_rfl, le_rfl⟩
  | or l r ihl ihr =>
    intro node hnode
    by_cases hc : c = .or
    · simp only [nodes, hc, if_true, List.mem_append, List.mem_singleton] at hnode
      rw [hc] at ihl ihr
      simp only [hc, operands, if_true, List.length_append]
      rcases hnode with (hl | hr) | rfl
      · have := ihl off node hl; omega
      · have := ihr _ node hr; omega
      · simp [operands]
    · simp only [nodes, hc, if_false, List.mem_singleton] at hnode
      subst hnode; exact ⟨le_rfl, le_rfl⟩
  | symbol s => intro node hnode; obtain rfl := List.mem_singleton.mp hnode; exact ⟨le_rfl, le_rfl⟩
  | not e ih => intro node hnode; obtain rfl := List.mem_singleton.mp hnode; exact ⟨le_rfl, le_rfl⟩
  | equal a b =>
    intro node hnode; obtain rfl := List.mem_singleton.mp hnode; exact ⟨le_rfl, le_rfl⟩
  | unequal a b =>
    intro node hnode; obtain rfl := List.mem_singleton.mp hnode; exact ⟨le_rfl, le_rfl⟩

/-- What a node of the chain says is part of what the chain says. -/
theorem Conn.op_fold_node (c : Conn) {e : Expr} {node : ℕ × Expr} (hnode : node ∈ e.nodes c 0)
    {ls : List Expr} (hlen : ls.length = (e.operands c).length) :
    c.op (c.fold type ρ ls) ((node.2.refill c (ls.drop node.1)).value type ρ) =
      c.fold type ρ ls := by
  have hbound := (e.nodes_bound 0 node hnode).2
  rw [Expr.value_refill c _ _ (by simp; omega)]
  exact c.op_fold_of_subset fun a ha => List.mem_of_mem_drop (List.mem_of_mem_take ha)

end Value

/-! ## Properties of operands that the elimination keeps -/

/-- Replacing one operand keeps a property of all of them. -/
theorem forall_mem_set {α : Type} {Q : α → Prop} {ls : List α} (i : ℕ) {x : α}
    (hls : ∀ a ∈ ls, Q a) (hx : Q x) : ∀ a ∈ ls.set i x, Q a := by
  intro a ha
  rcases List.mem_or_eq_of_mem_set ha with ha | rfl
  · exact hls a ha
  · exact hx

/-- A property of chains that is one of their operands, and that joins keep. -/
structure Hereditary (τ : Sym → SymType) (Q : Expr → Prop) : Prop where
  and : ∀ l r, Q (.and l r) ↔ Q l ∧ Q r
  or : ∀ l r, Q (.or l r) ↔ Q l ∧ Q r
  yes : Q (.symbol .yes)
  no : Q (.symbol .no)
  join : ∀ {c a b t}, exprJoin τ c a b = some t → Q a → Q b → Q t

namespace Hereditary
variable {τ : Sym → SymType} {Q : Expr → Prop}

theorem chain (hQ : Hereditary τ Q) (c : Conn) (l r : Expr) : Q (c.mk l r) ↔ Q l ∧ Q r := by
  cases c
  · exact hQ.and l r
  · exact hQ.or l r

theorem neutral (hQ : Hereditary τ Q) (c : Conn) : Q (.symbol c.neutral) := by
  cases c
  · exact hQ.yes
  · exact hQ.no

theorem operands (hQ : Hereditary τ Q) (c : Conn) (e : Expr) (he : Q e) :
    ∀ a ∈ e.operands c, Q a := by
  induction e with
  | and l r ihl ihr =>
    intro a ha
    by_cases hc : c = .and
    · simp only [Expr.operands, hc, if_true, List.mem_append] at ha
      rw [hc] at ihl ihr
      rcases ha with ha | ha
      · exact ihl ((hQ.and l r).mp he).1 a ha
      · exact ihr ((hQ.and l r).mp he).2 a ha
    · simp only [Expr.operands, hc, if_false, List.mem_singleton] at ha
      exact ha ▸ he
  | or l r ihl ihr =>
    intro a ha
    by_cases hc : c = .or
    · simp only [Expr.operands, hc, if_true, List.mem_append] at ha
      rw [hc] at ihl ihr
      rcases ha with ha | ha
      · exact ihl ((hQ.or l r).mp he).1 a ha
      · exact ihr ((hQ.or l r).mp he).2 a ha
    · simp only [Expr.operands, hc, if_false, List.mem_singleton] at ha
      exact ha ▸ he
  | symbol s => intro a ha; exact List.mem_singleton.mp ha ▸ he
  | not e ih => intro a ha; exact List.mem_singleton.mp ha ▸ he
  | equal x y => intro a ha; exact List.mem_singleton.mp ha ▸ he
  | unequal x y => intro a ha; exact List.mem_singleton.mp ha ▸ he

theorem refill (hQ : Hereditary τ Q) {c : Conn} {e : Expr} {ls : List Expr}
    (hlen : ls.length = (e.operands c).length) (hls : ∀ a ∈ ls, Q a) : Q (e.refill c ls) :=
  Expr.refill_of (fun l r hl hr => (hQ.chain c l r).mpr ⟨hl, hr⟩) e ls hlen hls

theorem dups1 (hQ : Hereditary τ Q) (n : ℕ) (c : Conn) (e : Expr) (he : Q e) :
    Q (exprEliminateDups1 τ n c e).1 := by
  induction n generalizing c e with
  | zero => exact he
  | succ n ih =>
    obtain ⟨ls, hlen, hls, h⟩ := exprEliminateDups1_rule (τ := τ) (c := c)
      (P := fun ls => ∀ a ∈ ls, Q a) n e (hQ.operands c e he)
      (fun ls i a c' ha _ h => forall_mem_set i h (ih c' a (h a (List.mem_of_getElem? ha))))
      (fun ls i j a b t _ ha hb ht h =>
        forall_mem_set j (forall_mem_set i h (hQ.neutral c))
          (hQ.join ht (h a (List.mem_of_getElem? ha)) (h b (List.mem_of_getElem? hb))))
    rw [h]
    exact hQ.refill hlen hls

theorem dups2 (hQ : Hereditary τ Q) (n : ℕ) (c : Conn) (e : Expr) (he : Q e) :
    Q (exprEliminateDups2 τ n c e).1 := by
  induction n generalizing c e with
  | zero => exact he
  | succ n ih =>
    obtain ⟨ls, hlen, hls, h⟩ := exprEliminateDups2_rule (τ := τ) (c := c)
      (P := fun ls => ∀ a ∈ ls, Q a) n e (hQ.operands c e he)
      (fun ls i a c' ha _ h => forall_mem_set i h (ih c' a (h a (List.mem_of_getElem? ha))))
      (fun ls i a _ _ _ _ _ _ h => forall_mem_set i h (hQ.neutral c.dual))
    rw [h]
    exact hQ.refill hlen hls

theorem eliminateYn (hQ : Hereditary τ Q) (e : Expr) (he : Q e) : Q (exprEliminateYn e) := by
  induction e with
  | and l r ihl ihr =>
    have hl := ihl ((hQ.and l r).mp he).1
    have hr := ihr ((hQ.and l r).mp he).2
    simp only [exprEliminateYn]
    split_ifs
    · exact hQ.no
    · exact hr
    · exact hQ.no
    · exact hl
    · exact (hQ.and _ _).mpr ⟨hl, hr⟩
  | or l r ihl ihr =>
    have hl := ihl ((hQ.or l r).mp he).1
    have hr := ihr ((hQ.or l r).mp he).2
    simp only [exprEliminateYn]
    split_ifs
    · exact hr
    · exact hQ.yes
    · exact hl
    · exact hQ.yes
    · exact (hQ.or _ _).mpr ⟨hl, hr⟩
  | symbol s => exact he
  | not e ih => exact he
  | equal a b => exact he
  | unequal a b => exact he

theorem eliminateDupsAux (hQ : Hereditary τ Q) (n : ℕ) (e : Expr) (he : Q e) :
    Q (exprEliminateDupsAux τ n e) := by
  induction n generalizing e with
  | zero => exact he
  | succ n ih =>
    unfold exprEliminateDupsAux
    split
    · exact he
    · rename_i c hc
      have h := hQ.dups2 (exprEliminateDups1 τ e.size c e).1.size c _ (hQ.dups1 e.size c e he)
      dsimp only
      split_ifs
      · exact h
      · exact ih _ (hQ.eliminateYn _ h)

theorem eliminateDups (hQ : Hereditary τ Q) (e : Expr) (he : Q e) : Q (exprEliminateDups τ e) :=
  hQ.eliminateDupsAux _ e he

end Hereditary

section Soundness
variable {τ type : Sym → SymType} {ρ : Sym → SymbolValue}

/-- That no operand is `m` is such a property. -/
theorem Standard.hereditary_crisp (h : Standard type ρ) (τ : Sym → SymType) :
    Hereditary τ (Crisp ρ) where
  and _ _ := Iff.rfl
  or _ _ := Iff.rfl
  yes := by simp [Crisp, h.yes]
  no := by simp [Crisp, h.no]
  join ht ha hb := exprJoin_crisp h ha hb ht

/-- `expr_eliminate_dups1` keeps the value, for `m` as well. -/
theorem exprEliminateDups1_value (h : Standard type ρ) (hτ : TypesGrow τ type)
    (hb : Booleans type ρ) (n : ℕ) (c : Conn) (e : Expr) :
    (exprEliminateDups1 τ n c e).1.value type ρ = e.value type ρ := by
  induction n generalizing c e with
  | zero => rfl
  | succ n ih =>
    obtain ⟨ls, hlen, hls, he⟩ := exprEliminateDups1_rule (τ := τ) (c := c)
      (P := fun ls => c.fold type ρ ls = e.value type ρ) n e (e.value_operands c)
      (fun ls i a c' ha _ hls => by
        obtain ⟨k, h1, h2⟩ := c.fold_set type ρ ha
        rw [h2, ih, ← h1, hls])
      (fun ls i j a b t hij ha hb' ht hls => by
        obtain ⟨k, h1, h2⟩ := c.fold_set type ρ ha
        have hb'' : (ls.set i (.symbol c.neutral))[j]? = some b := by
          rw [List.getElem?_set_ne hij, hb']
        obtain ⟨k', h3, h4⟩ := c.fold_set type ρ hb''
        have hk : k = c.op (b.value type ρ) k' := by
          rw [← h3, h2, h.value_neutral, c.unit_op]
        rw [h4, exprJoin_value h hτ hb ht, c.op_assoc, ← hk, ← h1, hls])
    rw [he, e.value_refill c ls hlen.ge, ← hlen, List.take_length, hls]

/-- If a chain says `a`, and says the negation of `a`, it has the value that absorbs. -/
theorem Conn.op_contradiction (c : Conn) {f a k t : Tristate} (ha : a ≠ .mod)
    (hf : f = c.op a k) (hn : c.op f t = f) (ht : c.op t a.eNot = t) : f = c.dual.unit := by
  subst hf
  revert ha hn ht
  revert a k t
  cases c <;> decide

theorem Conn.op_dual_unit (c : Conn) (a : Tristate) : c.op c.dual.unit a = c.dual.unit := by
  revert a; cases c <;> decide

/-- When the test succeeds, the node says the negation of the operand. -/
theorem negationIn_value (h : Standard type ρ) (hτ : TypesGrow τ type) (hb : Booleans type ρ)
    {c : Conn} {a b : Expr} (hn : negationIn τ c a b = true) :
    c.op (b.value type ρ) (a.value type ρ).eNot = b.value type ρ := by
  obtain ⟨k, h1, h2⟩ := exprExtractEq_cancels h c (exprTransform τ (.not a)) b
  rw [of_decide_eq_true hn, h.value_neutral, c.unit_op, exprTransform_value h hτ hb] at h1
  have hk : (a.value type ρ).eNot = k := h1
  rw [hk, h2, c.op_assoc, c.op_self]

/-- `expr_eliminate_dups2` keeps the value where no operand is `m`. -/
theorem exprEliminateDups2_value (h : Standard type ρ) (hτ : TypesGrow τ type)
    (hb : Booleans type ρ) (n : ℕ) (c : Conn) (e : Expr) (he : Crisp ρ e) :
    (exprEliminateDups2 τ n c e).1.value type ρ = e.value type ρ := by
  have hQ := h.hereditary_crisp τ
  induction n generalizing c e with
  | zero => rfl
  | succ n ih =>
    obtain ⟨ls, hlen, hls, he⟩ := exprEliminateDups2_rule (τ := τ) (c := c)
      (P := fun ls => (∀ a ∈ ls, Crisp ρ a) ∧ c.fold type ρ ls = e.value type ρ) n e
      ⟨hQ.operands c e he, e.value_operands c⟩
      (fun ls i a c' ha _ hls => by
        have hc := hls.1 a (List.mem_of_getElem? ha)
        obtain ⟨k, h1, h2⟩ := c.fold_set type ρ ha
        exact ⟨forall_mem_set i hls.1 (hQ.dups2 n c' a hc), by rw [h2, ih c' a hc, ← h1, hls.2]⟩)
      (fun ls i a node hnode ha _ hn hl hls => by
        have hc := hls.1 a (List.mem_of_getElem? ha)
        obtain ⟨k, h1, h2⟩ := c.fold_set type ρ ha
        have hf := c.op_contradiction hc.value_ne_mod h1 (c.op_fold_node hnode hl)
          (negationIn_value h hτ hb hn)
        refine ⟨forall_mem_set i hls.1 (hQ.neutral c.dual), ?_⟩
        rw [h2, h.value_neutral, c.op_dual_unit, ← hf, hls.2])
    rw [he, e.value_refill c ls hlen.ge, ← hlen, List.take_length, hls.2]

theorem exprEliminateDupsAux_value (h : Standard type ρ) (hτ : TypesGrow τ type)
    (hb : Booleans type ρ) (n : ℕ) (e : Expr) (he : Crisp ρ e) :
    (exprEliminateDupsAux τ n e).value type ρ = e.value type ρ := by
  have hQ := h.hereditary_crisp τ
  induction n generalizing e with
  | zero => rfl
  | succ n ih =>
    unfold exprEliminateDupsAux
    split
    · rfl
    · rename_i c hc
      have h1 := hQ.dups1 e.size c e he
      have h2 := hQ.dups2 (exprEliminateDups1 τ e.size c e).1.size c _ h1
      have hv := (exprEliminateDups2_value h hτ hb
        (exprEliminateDups1 τ e.size c e).1.size c _ h1).trans
        (exprEliminateDups1_value h hτ hb e.size c e)
      dsimp only
      split_ifs
      · exact hv
      · rw [ih _ (hQ.eliminateYn _ h2), exprEliminateYn_value h, hv]

/-- `expr_eliminate_dups` keeps the value where no operand is `m`. -/
theorem exprEliminateDups_value (h : Standard type ρ) (hτ : TypesGrow τ type)
    (hb : Booleans type ρ) (e : Expr) (he : Crisp ρ e) :
    (exprEliminateDups τ e).value type ρ = e.value type ρ :=
  exprEliminateDupsAux_value h hτ hb _ e he

end Soundness

end Grasshopper.Kconfig
