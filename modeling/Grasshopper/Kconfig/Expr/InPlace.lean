import Grasshopper.Kconfig.Expr.Memory

/-! # `expr_eq` on expressions in memory

An expression that is owned has its nodes to itself, so that it can be changed in place; the
arguments of `expr_eq` are only read, and may share nodes. Each function refines the one on
expressions, and what it does not own stays.
-/

namespace Grasshopper.Kconfig

/-- Induction with the two chain types as one case. -/
theorem Expr.conn_induction {P : Expr → Prop} (symbol : ∀ s, P (.symbol s))
    (equal : ∀ a b, P (.equal a b)) (unequal : ∀ a b, P (.unequal a b))
    (not : ∀ e, P e → P (.not e)) (chain : ∀ (c : Conn) l r, P l → P r → P (c.mk l r))
    (e : Expr) : P e := by
  induction e with
  | symbol s => exact symbol s
  | equal a b => exact equal a b
  | unequal a b => exact unequal a b
  | not e ih => exact not e ih
  | and l r ihl ihr => exact chain .and l r ihl ihr
  | or l r ihl ihr => exact chain .or l r ihl ihr

/-- Addresses from `next` on are free. -/
def Memory.Fresh (m : Memory) : Prop := ∀ q, m.next ≤ q → m.cell q = none

/-- A chain at `p` with operands that have nodes of their own. -/
def OwnsChain (m : Memory) (c : Conn) (p : ℕ) (L R : ℕ → Set ℕ → Prop) (S : Set ℕ) : Prop :=
  ∃ l r T U, m.cell p = some (.chain c l r) ∧ L l T ∧ R r U ∧ p ∉ T ∧ p ∉ U ∧ Disjoint T U ∧
    S = insert p (T ∪ U)

/-- The expression at `p` has the nodes `S`, each of them once. -/
def OwnsAt (m : Memory) : Expr → ℕ → Set ℕ → Prop
  | .symbol s, p, S => m.cell p = some (.symbol s) ∧ S = {p}
  | .equal a b, p, S => m.cell p = some (.equal a b) ∧ S = {p}
  | .unequal a b, p, S => m.cell p = some (.unequal a b) ∧ S = {p}
  | .not e, p, S => ∃ q T, m.cell p = some (.not q) ∧ OwnsAt m e q T ∧ p ∉ T ∧ S = insert p T
  | .and l r, p, S => OwnsChain m .and p (OwnsAt m l) (OwnsAt m r) S
  | .or l r, p, S => OwnsChain m .or p (OwnsAt m l) (OwnsAt m r) S

/-- There is an expression at `p`, which may share nodes. -/
def ReadsAt (m : Memory) : Expr → ℕ → Prop
  | .symbol s, p => m.cell p = some (.symbol s)
  | .equal a b, p => m.cell p = some (.equal a b)
  | .unequal a b, p => m.cell p = some (.unequal a b)
  | .not e, p => ∃ q, m.cell p = some (.not q) ∧ ReadsAt m e q
  | .and l r, p => ∃ a b, m.cell p = some (.chain .and a b) ∧ ReadsAt m l a ∧ ReadsAt m r b
  | .or l r, p => ∃ a b, m.cell p = some (.chain .or a b) ∧ ReadsAt m l a ∧ ReadsAt m r b

/-- A run on the nodes `S` that leaves the nodes `S'`: everything else that was allocated stays. -/
structure Changes (m : Memory) (S : Set ℕ) (m' : Memory) (S' : Set ℕ) : Prop where
  fresh : m'.Fresh
  next : m.next ≤ m'.next
  same : ∀ q < m.next, q ∉ S → m'.cell q = m.cell q
  new : ∀ q ∈ S', q ∈ S ∨ m.next ≤ q

section Ownership
variable {m m' m'' : Memory} {e l r : Expr} {p q : ℕ} {S S' S'' T U : Set ℕ} {c : Conn}

theorem owns_mk :
    OwnsAt m (c.mk l r) p S ↔ OwnsChain m c p (OwnsAt m l) (OwnsAt m r) S := by
  cases c <;> rfl

theorem reads_mk :
    ReadsAt m (c.mk l r) p ↔
      ∃ a b, m.cell p = some (.chain c a b) ∧ ReadsAt m l a ∧ ReadsAt m r b := by
  cases c <;> rfl

theorem OwnsAt.root_mem (h : OwnsAt m e p S) : p ∈ S := by
  induction e using Expr.conn_induction generalizing p S with
  | chain c l r =>
    obtain ⟨_, _, _, _, _, _, _, _, _, _, rfl⟩ := owns_mk.1 h
    exact Set.mem_insert _ _
  | not e =>
    obtain ⟨_, _, _, _, _, rfl⟩ := h
    exact Set.mem_insert _ _
  | _ =>
    rw [h.2]
    exact rfl

theorem OwnsAt.congr (h : OwnsAt m e p S) (hsame : ∀ q ∈ S, m'.cell q = m.cell q) :
    OwnsAt m' e p S := by
  induction e using Expr.conn_induction generalizing p S with
  | chain c l r ihl ihr =>
    obtain ⟨a, b, T, U, hcell, hl, hr, hpT, hpU, hdisjoint, rfl⟩ := owns_mk.1 h
    refine owns_mk.2 ⟨a, b, T, U, ?_, ihl hl fun q hq => ?_, ihr hr fun q hq => ?_, hpT, hpU,
      hdisjoint, rfl⟩
    · rw [hsame p (Set.mem_insert _ _), hcell]
    · exact hsame q (.inr (.inl hq))
    · exact hsame q (.inr (.inr hq))
  | not e ih =>
    obtain ⟨a, T, hcell, he, hp, rfl⟩ := h
    refine ⟨a, T, ?_, ih he fun q hq => hsame q (.inr hq), hp, rfl⟩
    rw [hsame p (Set.mem_insert _ _), hcell]
  | _ =>
    obtain ⟨hcell, rfl⟩ := h
    exact ⟨by rw [hsame p rfl, hcell], rfl⟩

theorem OwnsAt.cell_ne_none (h : OwnsAt m e p S) : ∀ q ∈ S, m.cell q ≠ none := by
  induction e using Expr.conn_induction generalizing p S with
  | chain c l r ihl ihr =>
    obtain ⟨a, b, T, U, hcell, hl, hr, -, -, -, rfl⟩ := owns_mk.1 h
    rintro q (rfl | hq | hq)
    · simp [hcell]
    · exact ihl hl q hq
    · exact ihr hr q hq
  | not e ih =>
    obtain ⟨a, T, hcell, he, -, rfl⟩ := h
    rintro q (rfl | hq)
    · simp [hcell]
    · exact ih he q hq
  | _ =>
    obtain ⟨hcell, rfl⟩ := h
    rintro q rfl
    simp [hcell]

theorem Memory.Fresh.lt (hm : m.Fresh) (h : m.cell q ≠ none) : q < m.next := by
  by_contra hq
  exact h (hm q (Nat.le_of_not_lt hq))

theorem OwnsAt.lt (h : OwnsAt m e p S) (hm : m.Fresh) : ∀ q ∈ S, q < m.next :=
  fun q hq => hm.lt (h.cell_ne_none q hq)

theorem OwnsAt.reads (h : OwnsAt m e p S) : ReadsAt m e p := by
  induction e using Expr.conn_induction generalizing p S with
  | chain c l r ihl ihr =>
    obtain ⟨a, b, T, U, hcell, hl, hr, -, -, -, -⟩ := owns_mk.1 h
    exact reads_mk.2 ⟨a, b, hcell, ihl hl, ihr hr⟩
  | not e ih =>
    obtain ⟨a, T, hcell, he, -, -⟩ := h
    exact ⟨a, hcell, ih he⟩
  | _ => exact h.1

theorem ReadsAt.congr (h : ReadsAt m e p) (hm : m.Fresh)
    (hsame : ∀ q < m.next, m'.cell q = m.cell q) : ReadsAt m' e p := by
  have hcell {p : ℕ} {x : Cell} (hx : m.cell p = some x) : m'.cell p = some x := by
    rw [hsame p (hm.lt (by simp [hx])), hx]
  induction e using Expr.conn_induction generalizing p with
  | chain c l r ihl ihr =>
    obtain ⟨a, b, hp, hl, hr⟩ := reads_mk.1 h
    exact reads_mk.2 ⟨a, b, hcell hp, ihl hl, ihr hr⟩
  | not e ih =>
    obtain ⟨a, hp, he⟩ := h
    exact ⟨a, hcell hp, ih he⟩
  | _ => exact hcell h

/-- Only a symbol has a symbol in its node. -/
theorem ReadsAt.symbol_iff {x : Cell} (h : ReadsAt m e p) (hx : m.cell p = some x) (s : Sym) :
    x = .symbol s ↔ e = .symbol s := by
  induction e using Expr.conn_induction with
  | chain c l r =>
    obtain ⟨a, b, hp, -⟩ := reads_mk.1 h
    rw [hx, Option.some.injEq] at hp
    cases c <;> simp [hp, Conn.mk]
  | not e =>
    obtain ⟨a, hp, -⟩ := h
    rw [hx, Option.some.injEq] at hp
    simp [hp]
  | _ =>
    rw [ReadsAt, hx, Option.some.injEq] at h
    simp [h]

namespace Changes

theorem refl (hm : m.Fresh) (S : Set ℕ) : Changes m S m S :=
  ⟨hm, le_rfl, fun _ _ _ => rfl, fun _ hq => .inl hq⟩

theorem trans (h : Changes m S m' S') (h' : Changes m' S' m'' S'') : Changes m S m'' S'' where
  fresh := h'.fresh
  next := h.next.trans h'.next
  same q hq hS := by
    rw [h'.same q (hq.trans_le h.next), h.same q hq hS]
    intro hS'
    obtain hS' | hq' := h.new q hS'
    · exact hS hS'
    · omega
  new q hq := by
    obtain hq | hq := h'.new q hq
    · exact h.new q hq
    · exact .inr (h.next.trans hq)

/-- More nodes that stay. -/
theorem frame (h : Changes m S m' S') (T : Set ℕ) : Changes m (S ∪ T) m' (S' ∪ T) where
  fresh := h.fresh
  next := h.next
  same q hq hS := h.same q hq fun hS' => hS (.inl hS')
  new q hq := by
    obtain hq | hq := hq
    · exact (h.new q hq).imp_left .inl
    · exact .inl (.inr hq)

theorem weaken (h : Changes m S m' S') (hS : S ⊆ T) (hS' : U ⊆ S') : Changes m T m' U where
  fresh := h.fresh
  next := h.next
  same q hq hT := h.same q hq fun hmem => hT (hS hmem)
  new q hq := (h.new q (hS' hq)).imp_left (@hS q)

theorem notMem (h : Changes m S m' S') (hq : q < m.next) (hS : q ∉ S) : q ∉ S' := by
  intro hS'
  obtain hS' | hle := h.new q hS'
  · exact hS hS'
  · omega

theorem disjoint (h : Changes m S m' S') (hT : ∀ q ∈ T, q < m.next) (hdisjoint : Disjoint S T) :
    Disjoint S' T := by
  rw [Set.disjoint_right] at hdisjoint ⊢
  exact fun q hq => h.notMem (hT q hq) (hdisjoint hq)

theorem owns (h : Changes m S m' S') (hm : m.Fresh) (he : OwnsAt m e p T)
    (hdisjoint : Disjoint S T) : OwnsAt m' e p T :=
  he.congr fun q hq => h.same q (he.lt hm q hq) (Set.disjoint_right.1 hdisjoint hq)

theorem reads (h : Changes m ∅ m' S') (hm : m.Fresh) (he : ReadsAt m e p) : ReadsAt m' e p :=
  he.congr hm fun q hq => h.same q hq (Set.notMem_empty q)

/-- Nodes that did not exist before. -/
theorem add (h : Changes m S m' S') (h' : Changes m' ∅ m'' T) : Changes m S m'' (S' ∪ T) := by
  refine h.trans ((h'.frame S').weaken ?_ ?_)
  · rw [Set.empty_union]
  · rw [Set.union_comm]

theorem disjoint_add (hm : m.Fresh) (h : Changes m ∅ m' S') (he : OwnsAt m e p T) :
    Disjoint T S' :=
  (h.disjoint (he.lt hm) (Set.empty_disjoint T)).symm

theorem owns_add (hm : m.Fresh) (h : Changes m ∅ m' S') (he : OwnsAt m e p T) : OwnsAt m' e p T :=
  h.owns hm he (Set.empty_disjoint T)

theorem alloc (hm : m.Fresh) (x : Cell) : Changes m ∅ (m.alloc x).2 {m.next} where
  fresh q hq := by
    change m.next + 1 ≤ q at hq
    rw [m.cell_alloc_of_ne x (by omega)]
    exact hm q (by omega)
  next := Nat.le_succ _
  same q hq _ := m.cell_alloc_of_ne x hq.ne
  new q hq := .inr (le_of_eq hq.symm)

theorem write (hm : m.Fresh) (hp : p < m.next) (x : Cell) : Changes m {p} (m.write p x) {p} where
  fresh q hq := by
    change m.next ≤ q at hq
    rw [m.cell_write_of_ne p x (by omega)]
    exact hm q hq
  next := le_rfl
  same q _ hS := m.cell_write_of_ne p x hS
  new q hq := .inl hq

theorem free (hm : m.Fresh) (p : ℕ) : Changes m {p} (m.free p) ∅ where
  fresh q hq := by
    rcases eq_or_ne q p with rfl | hne
    · exact Function.update_self ..
    · rw [m.cell_free_of_ne p hne]
      exact hm q hq
  next := le_rfl
  same q _ hS := m.cell_free_of_ne p hS
  new q hq := hq.elim

end Changes

/-- A chain is put together at `p`. -/
theorem owns_write (hl : OwnsAt m l q S) {q' : ℕ} (hr : OwnsAt m r q' T) (hp : p ∉ S)
    (hp' : p ∉ T) (hdisjoint : Disjoint S T) :
    OwnsAt (m.write p (.chain c q q')) (c.mk l r) p (insert p (S ∪ T)) := by
  refine owns_mk.2 ⟨q, q', S, T, m.cell_write p _, hl.congr fun x hx => ?_,
    hr.congr fun x hx => ?_, hp, hp', hdisjoint, rfl⟩
  · exact m.cell_write_of_ne p _ fun hxp => hp (hxp ▸ hx)
  · exact m.cell_write_of_ne p _ fun hxp => hp' (hxp ▸ hx)

end Ownership

/-! ## `expr_copy` and `expr_free` -/

theorem exprCopy_spec {n : ℕ} {e : Expr} {m : Memory} {p : ℕ} (hm : m.Fresh)
    (he : ReadsAt m e p) (hn : e.size ≤ n) :
    ∃ p' m' S, exprCopy n p m = some (p', m') ∧ OwnsAt m' e p' S ∧ Changes m ∅ m' S ∧
      m'.transCount = m.transCount := by
  induction e using Expr.conn_induction generalizing n m p with
  | chain c l r ihl ihr =>
    rw [Conn.size_mk] at hn
    obtain ⟨n, rfl⟩ : ∃ k, n = k + 1 := ⟨n - 1, by omega⟩
    obtain ⟨a, b, hcell, hl, hr⟩ := reads_mk.1 he
    have halloc := Changes.alloc hm (.chain c a b)
    obtain ⟨a', m₁, S, hcopyl, hownl, hl', hcountl⟩ :=
      ihl halloc.fresh (halloc.reads hm hl) (by omega : l.size ≤ n)
    obtain ⟨b', m₂, T, hcopyr, hownr, hr', hcountr⟩ :=
      ihr hl'.fresh (hl'.reads halloc.fresh (halloc.reads hm hr)) (by omega : r.size ≤ n)
    have hpS : m.next ∉ S := hl'.notMem (Nat.lt_succ_self _) (Set.notMem_empty _)
    have hnext : m.next < m₁.next := lt_of_lt_of_le (Nat.lt_succ_self _) hl'.next
    have hpT : m.next ∉ T := hr'.notMem hnext (Set.notMem_empty _)
    have hp : m.next < m₂.next := hnext.trans_le hr'.next
    refine ⟨m.next, m₂.write m.next (.chain c a' b'), insert m.next (S ∪ T), ?_,
      owns_write (hr'.owns_add hl'.fresh hownl) hownr hpS hpT (hr'.disjoint_add hl'.fresh hownl),
      ?_, ?_⟩
    · simp only [exprCopy, hcell, Option.bind_eq_bind, Option.bind_some]
      rw [m.alloc_eq]
      simp [hcopyl, hcopyr]
    · rw [Set.insert_eq]
      refine ((halloc.add hl').add hr').trans ?_
      rw [Set.union_assoc]
      exact (Changes.write hr'.fresh hp _).frame _
    · exact (hcountr.trans hcountl :)
  | not e ih =>
    rw [Expr.size] at hn
    obtain ⟨n, rfl⟩ : ∃ k, n = k + 1 := ⟨n - 1, by omega⟩
    obtain ⟨a, hcell, he⟩ := he
    have halloc := Changes.alloc hm (.not a)
    obtain ⟨a', m₁, S, hcopy, hown, he', hcount⟩ :=
      ih halloc.fresh (halloc.reads hm he) (by omega : e.size ≤ n)
    have hpS : m.next ∉ S := he'.notMem (Nat.lt_succ_self _) (Set.notMem_empty _)
    have hp : m.next < m₁.next := lt_of_lt_of_le (Nat.lt_succ_self _) he'.next
    refine ⟨m.next, m₁.write m.next (.not a'), insert m.next S, ?_,
      ⟨a', S, m₁.cell_write _ _, hown.congr fun q hq => ?_, hpS, rfl⟩, ?_, hcount⟩
    · simp only [exprCopy, hcell, Option.bind_eq_bind, Option.bind_some]
      rw [m.alloc_eq]
      simp [hcopy]
    · exact m₁.cell_write_of_ne _ _ fun hqp => hpS (hqp ▸ hq)
    · rw [Set.insert_eq]
      exact (halloc.add he').trans ((Changes.write he'.fresh hp _).frame _)
  | _ =>
    obtain ⟨n, rfl⟩ : ∃ k, n = k + 1 := ⟨n - 1, by simp only [Expr.size] at hn; omega⟩
    refine ⟨m.next, _, {m.next}, ?_, ⟨m.cell_alloc _, rfl⟩, Changes.alloc hm _, rfl⟩
    rw [ReadsAt] at he
    simp [exprCopy, he, Memory.alloc]

theorem exprFree_spec {n : ℕ} {e : Expr} {m : Memory} {p : ℕ} {S : Set ℕ} (hm : m.Fresh)
    (he : OwnsAt m e p S) (hn : e.size ≤ n) :
    ∃ m', exprFree n p m = some m' ∧ Changes m S m' ∅ := by
  induction e using Expr.conn_induction generalizing n m p S with
  | chain c l r ihl ihr =>
    rw [Conn.size_mk] at hn
    obtain ⟨n, rfl⟩ : ∃ k, n = k + 1 := ⟨n - 1, by omega⟩
    obtain ⟨a, b, T, U, hcell, hl, hr, hpT, hpU, hdisjoint, rfl⟩ := owns_mk.1 he
    obtain ⟨m₁, hfreel, hl'⟩ := ihl hm hl (by omega : l.size ≤ n)
    obtain ⟨m₂, hfreer, hr'⟩ := ihr hl'.fresh (hl'.owns hm hr hdisjoint) (by omega : r.size ≤ n)
    refine ⟨m₂.free p, ?_, ?_⟩
    · simp [exprFree, hcell, hfreel, hfreer]
    · have hl' := hl'.frame (insert p U)
      have hr' := hr'.frame {p}
      simp only [Set.empty_union, Set.union_insert, Set.union_singleton, insert_empty_eq]
        at hl' hr'
      exact hl'.trans (hr'.trans (Changes.free hr'.fresh p))
  | not e ih =>
    rw [Expr.size] at hn
    obtain ⟨n, rfl⟩ : ∃ k, n = k + 1 := ⟨n - 1, by omega⟩
    obtain ⟨a, T, hcell, he, -, rfl⟩ := he
    obtain ⟨m₁, hfree, he'⟩ := ih hm he (by omega : e.size ≤ n)
    refine ⟨m₁, by simp [exprFree, hcell, hfree], he'.weaken (Set.subset_insert _ _) subset_rfl⟩
  | _ =>
    obtain ⟨n, rfl⟩ : ∃ k, n = k + 1 := ⟨n - 1, by simp only [Expr.size] at hn; omega⟩
    obtain ⟨hcell, rfl⟩ := he
    exact ⟨m.free p, by simp [exprFree, hcell], Changes.free hm p⟩

/-! ## `expr_eliminate_yn` -/

section EliminateYn
variable {n : ℕ} {m m' : Memory} {e l r : Expr} {p q a b : ℕ} {S T U : Set ℕ}

theorem OwnsAt.exists_cell (h : OwnsAt m e p S) : ∃ x, m.cell p = some x :=
  Option.ne_none_iff_exists'.1 (h.cell_ne_none p h.root_mem)

/-- The node of an expression is copied to `p`. -/
theorem OwnsAt.move (h : OwnsAt m e q U) (hp : m'.cell p = m.cell q)
    (hsame : ∀ x ∈ U, x ≠ q → m'.cell x = m.cell x) (hpU : p ∉ U) :
    ∃ U', OwnsAt m' e p U' ∧ U' ⊆ insert p U := by
  induction e using Expr.conn_induction with
  | chain c l r =>
    obtain ⟨a, b, T, V, hcell, hl, hr, hqT, hqV, hdisjoint, rfl⟩ := owns_mk.1 h
    refine ⟨insert p (T ∪ V), owns_mk.2 ⟨a, b, T, V, hp.trans hcell, hl.congr fun x hx => ?_,
      hr.congr fun x hx => ?_, fun h => hpU (.inr (.inl h)), fun h => hpU (.inr (.inr h)),
      hdisjoint, rfl⟩, Set.insert_subset_insert (Set.subset_insert _ _)⟩
    · exact hsame x (.inr (.inl hx)) fun hxq => hqT (hxq ▸ hx)
    · exact hsame x (.inr (.inr hx)) fun hxq => hqV (hxq ▸ hx)
  | not e =>
    obtain ⟨a, T, hcell, he, hqT, rfl⟩ := h
    refine ⟨insert p T, ⟨a, T, hp.trans hcell, he.congr fun x hx => ?_,
      fun h => hpU (.inr h), rfl⟩, Set.insert_subset_insert (Set.subset_insert _ _)⟩
    exact hsame x (.inr hx) fun hxq => hqT (hxq ▸ hx)
  | _ =>
    obtain ⟨hcell, rfl⟩ := h
    exact ⟨{p}, ⟨hp.trans hcell, rfl⟩, Set.singleton_subset_iff.2 (Set.mem_insert _ _)⟩

theorem becomeSymbol_spec (s : Sym) (hm : m.Fresh) (hl : OwnsAt m l a T) (hr : OwnsAt m r b U)
    (hdisjoint : Disjoint T U) (hp : p < m.next) (hln : l.size ≤ n)
    (hrn : r.size ≤ n) :
    ∃ m' S', becomeSymbol n p a b s m = some (p, m') ∧ OwnsAt m' (.symbol s) p S' ∧
      Changes m (insert p (T ∪ U)) m' S' := by
  obtain ⟨m₁, hfreel, hl'⟩ := exprFree_spec hm hl hln
  obtain ⟨m₂, hfreer, hr'⟩ := exprFree_spec hl'.fresh (hl'.owns hm hr hdisjoint) hrn
  refine ⟨m₂.write p (.symbol s), {p}, ?_, ⟨m₂.cell_write _ _, rfl⟩, ?_⟩
  · simp [becomeSymbol, hfreel, hfreer]
  · have hp₂ : p < m₂.next := hp.trans_le (hl'.next.trans hr'.next)
    have hl' := hl'.frame (insert p U)
    have hr' := hr'.frame {p}
    simp only [Set.empty_union, Set.union_insert, Set.union_singleton, insert_empty_eq]
      at hl' hr'
    exact hl'.trans (hr'.trans (Changes.write hr'.fresh hp₂ _))

theorem becomeOperand_spec (hm : m.Fresh) (he : OwnsAt m e q U) {dead : ℕ} (hdead : dead ∉ U)
    (hp : p < m.next) (hpU : p ∉ U) :
    ∃ m' S', becomeOperand p dead q m = some (p, m') ∧ OwnsAt m' e p S' ∧
      Changes m (insert p (insert dead U)) m' S' := by
  obtain ⟨x, hx⟩ := he.exists_cell
  have hq := he.root_mem
  have hqdead : q ≠ dead := fun h => hdead (h ▸ hq)
  have hqp : q ≠ p := fun h => hpU (h ▸ hq)
  have hx₁ : (m.free dead).cell q = some x := by rw [m.cell_free_of_ne dead hqdead, hx]
  have hfree := Changes.free hm dead
  have hwrite := Changes.write (m := m.free dead) hfree.fresh hp x
  have hkept := Changes.free hwrite.fresh q
  have hcell : (((m.free dead).write p x).free q).cell p = m.cell q := by
    rw [Memory.cell_free_of_ne _ _ hqp.symm, Memory.cell_write, hx]
  have hsame : ∀ y ∈ U, y ≠ q → (((m.free dead).write p x).free q).cell y = m.cell y := by
    intro y hy hyq
    have hyp : y ≠ p := fun h => hpU (h ▸ hy)
    have hydead : y ≠ dead := fun h => hdead (h ▸ hy)
    rw [Memory.cell_free_of_ne _ _ hyq, Memory.cell_write_of_ne _ _ _ hyp,
      Memory.cell_free_of_ne _ _ hydead]
  obtain ⟨U', hown, hsub⟩ := he.move hcell hsame hpU
  refine ⟨_, U', by simp [becomeOperand, hx₁], hown, ?_⟩
  have hfree := hfree.frame (insert p U)
  have hwrite := hwrite.frame U
  have hkept := (hkept.frame (insert p U)).weaken (T := insert p U)
    (by simp [hq]) (by simpa using hsub)
  rw [Set.empty_union, Set.singleton_union, Set.insert_comm] at hfree
  rw [Set.singleton_union] at hwrite
  exact hfree.trans (hwrite.trans hkept)

theorem exprEliminateYn_size_le (e : Expr) : (exprEliminateYn e).size ≤ e.size :=
  (exprEliminateYn_size e).1

/-- A chain in memory whose operands are done: one of the branches at the end. -/
theorem eliminateYn_end {c : Conn} (hm : m.Fresh) (hl : OwnsAt m l a T) (hr : OwnsAt m r b U)
    (hpT : p ∉ T) (hpU : p ∉ U) (hdisjoint : Disjoint T U) (hp : m.cell p = some (.chain c a b))
    (hln : l.size ≤ n) (hrn : r.size ≤ n) :
    (∀ s, ∃ m' S', becomeSymbol n p a b s m = some (p, m') ∧ OwnsAt m' (.symbol s) p S' ∧
      Changes m (insert p (T ∪ U)) m' S') ∧
    (∀ s, l = .symbol s → ∃ m' S', becomeOperand p a b m = some (p, m') ∧ OwnsAt m' r p S' ∧
      Changes m (insert p (T ∪ U)) m' S') ∧
    (∀ s, r = .symbol s → ∃ m' S', becomeOperand p b a m = some (p, m') ∧ OwnsAt m' l p S' ∧
      Changes m (insert p (T ∪ U)) m' S') ∧
    ∃ m' S', some (p, m) = some (p, m') ∧ OwnsAt m' (c.mk l r) p S' ∧
      Changes m (insert p (T ∪ U)) m' S' := by
  have hlt : p < m.next := hm.lt (by simp [hp])
  refine ⟨fun s => becomeSymbol_spec s hm hl hr hdisjoint hlt hln hrn, ?_, ?_, ?_⟩
  · rintro s rfl
    obtain ⟨hcell, rfl⟩ := hl
    rw [Set.disjoint_singleton_left] at hdisjoint
    obtain ⟨m', S', hrun, hown, hch⟩ := becomeOperand_spec hm hr hdisjoint hlt hpU
    exact ⟨m', S', hrun, hown, by rwa [Set.singleton_union]⟩
  · rintro s rfl
    obtain ⟨hcell, rfl⟩ := hr
    rw [Set.disjoint_singleton_right] at hdisjoint
    obtain ⟨m', S', hrun, hown, hch⟩ := becomeOperand_spec hm hl hdisjoint hlt hpT
    exact ⟨m', S', hrun, hown, by rwa [Set.union_singleton]⟩
  · exact ⟨m, _, rfl, owns_mk.2 ⟨a, b, T, U, hp, hl, hr, hpT, hpU, hdisjoint, rfl⟩,
      .refl hm _⟩

theorem eliminateYn_spec (hm : m.Fresh) (he : OwnsAt m e p S) (hn : e.size ≤ n) :
    ∃ m' S', eliminateYn n p m = some (p, m') ∧ OwnsAt m' (exprEliminateYn e) p S' ∧
      Changes m S m' S' := by
  induction e using Expr.conn_induction generalizing n m p S with
  | chain c l r ihl ihr =>
    rw [Conn.size_mk] at hn
    obtain ⟨n, rfl⟩ : ∃ k, n = k + 1 := ⟨n - 1, by omega⟩
    obtain ⟨a, b, T, U, hcell, hl, hr, hpT, hpU, hdisjoint, rfl⟩ := owns_mk.1 he
    have hp : p < m.next := he.lt hm p he.root_mem
    obtain ⟨m₁, T', hrunl, hownl, hl'⟩ := ihl hm hl (by omega : l.size ≤ n)
    obtain ⟨m₂, U', hrunr, hownr, hr'⟩ :=
      ihr hl'.fresh (hl'.owns hm hr hdisjoint) (by omega : r.size ≤ n)
    -- the nodes of the operands stay apart
    have hpT' : p ∉ T' := hl'.notMem hp hpT
    have hpU' : p ∉ U' := hr'.notMem (hp.trans_le hl'.next) hpU
    have hT'U : Disjoint T' U := hl'.disjoint (hr.lt hm) hdisjoint
    have hT'U' : Disjoint T' U' := (hr'.disjoint (hownl.lt hl'.fresh) hT'U.symm).symm
    have hwrite := Changes.write (m := m₂) hr'.fresh (p := p)
      (hp.trans_le (hl'.next.trans hr'.next)) (.chain c a b)
    have hownl₃ := hwrite.owns hr'.fresh (hr'.owns hl'.fresh hownl hT'U.symm)
      (Set.disjoint_singleton_left.2 hpT')
    have hownr₃ := hwrite.owns hr'.fresh hownr (Set.disjoint_singleton_left.2 hpU')
    obtain ⟨x, hx⟩ := hownl₃.exists_cell
    obtain ⟨y, hy⟩ := hownr₃.exists_cell
    have hx' := hownl₃.reads.symbol_iff hx
    have hy' := hownr₃.reads.symbol_iff hy
    have hall : Changes m (insert p (T ∪ U)) (m₂.write p (.chain c a b))
        (insert p (T' ∪ U')) := by
      have hl' := hl'.frame (insert p U)
      have hr' := hr'.frame (insert p T')
      have hwrite := hwrite.frame (T' ∪ U')
      rw [Set.union_insert, Set.union_insert] at hl' hr'
      rw [Set.union_comm U, Set.union_comm U'] at hr'
      rw [Set.singleton_union] at hwrite
      exact hl'.trans (hr'.trans hwrite)
    obtain ⟨hsymbol, hleft, hright, hkeep⟩ := eliminateYn_end (n := n) hwrite.fresh hownl₃ hownr₃
      hpT' hpU' hT'U' (m₂.cell_write p _) ((exprEliminateYn_size_le l).trans (by omega))
      ((exprEliminateYn_size_le r).trans (by omega))
    have finish {run : Option (ℕ × Memory)} {e : Expr}
        (h : ∃ m' S', run = some (p, m') ∧ OwnsAt m' e p S' ∧
          Changes (m₂.write p (.chain c a b)) (insert p (T' ∪ U')) m' S') :
        ∃ m' S', run = some (p, m') ∧ OwnsAt m' e p S' ∧
          Changes m (insert p (T ∪ U)) m' S' := by
      obtain ⟨m', S', hrun, hown, hch⟩ := h
      exact ⟨m', S', hrun, hown, hall.trans hch⟩
    cases c with
    | and =>
      rw [Conn.mk, exprEliminateYn]
      simp only [eliminateYn, hcell, hrunl, hrunr, hx, hy, hx', hy', Option.bind_eq_bind,
        Option.bind_some]
      split_ifs with h1 h2 h3 h4
      · exact finish (hsymbol .no)
      · exact finish (hleft .yes h2)
      · exact finish (hsymbol .no)
      · exact finish (hright .yes h4)
      · exact finish hkeep
    | or =>
      rw [Conn.mk, exprEliminateYn]
      simp only [eliminateYn, hcell, hrunl, hrunr, hx, hy, hx', hy', Option.bind_eq_bind,
        Option.bind_some]
      split_ifs with h1 h2 h3 h4
      · exact finish (hleft .no h1)
      · exact finish (hsymbol .yes)
      · exact finish (hright .no h3)
      · exact finish (hsymbol .yes)
      · exact finish hkeep
  | not e =>
    obtain ⟨n, rfl⟩ : ∃ k, n = k + 1 := ⟨n - 1, by simp only [Expr.size] at hn; omega⟩
    have hcell := he
    obtain ⟨a, T, hcell, -, -, -⟩ := hcell
    exact ⟨m, S, by simp [eliminateYn, hcell], he, .refl hm S⟩
  | _ =>
    obtain ⟨n, rfl⟩ : ∃ k, n = k + 1 := ⟨n - 1, by simp only [Expr.size] at hn; omega⟩
    exact ⟨m, S, by simp [eliminateYn, he.1], he, .refl hm S⟩

end EliminateYn

/-! ## `__expr_eliminate_eq` -/

/-- A comparison of two expressions that are only read. -/
def EqRun (eq : ℕ → ℕ → Memory → Option (Bool × Memory)) (fe : Expr → Expr → Bool) (k : ℕ) :
    Prop :=
  ∀ {m : Memory} {e1 e2 : Expr} {p q : ℕ}, m.Fresh → ReadsAt m e1 p → ReadsAt m e2 q →
    e1.size + e2.size ≤ k →
    ∃ m', eq p q m = some (fe e1 e2, m') ∧ Changes m ∅ m' ∅ ∧ m'.transCount = m.transCount

/-- A run that changes two expressions, each with nodes of its own. -/
def PairRun (f : ℕ → ℕ → Memory → Option (ℕ × ℕ × Memory)) (g : Expr → Expr → Expr × Expr)
    (e1 e2 : Expr) : Prop :=
  ∀ {m : Memory} {p q : ℕ} {S T : Set ℕ}, m.Fresh → OwnsAt m e1 p S → OwnsAt m e2 q T →
    Disjoint S T →
    ∃ p' q' m' S' T', f p q m = some (p', q', m') ∧ OwnsAt m' (g e1 e2).1 p' S' ∧
      OwnsAt m' (g e1 e2).2 q' T' ∧ Disjoint S' T' ∧ Changes m (S ∪ T) m' (S' ∪ T')

section EliminateEq
variable {eq : ℕ → ℕ → Memory → Option (Bool × Memory)} {fe : Expr → Expr → Bool}
  {c : Conn} {n k : ℕ} {m : Memory} {e e1 e2 l r : Expr} {p q a b : ℕ} {S T : Set ℕ}

theorem Cell.skipped_iff {x y : Cell} :
    x.skipped y = true ↔ ∃ s : Sym, x = .symbol s ∧ y = .symbol s ∧ s.isYesNo = true := by
  constructor
  · intro h
    unfold Cell.skipped at h
    split at h
    · rw [Bool.and_eq_true, decide_eq_true_eq] at h
      obtain ⟨rfl, hs⟩ := h
      exact ⟨_, rfl, rfl, hs⟩
    · cases h
  · rintro ⟨s, rfl, rfl, hs⟩
    simp [skipped, hs]

theorem ReadsAt.skipped_iff {x y : Cell} (h1 : ReadsAt m e1 p) (h2 : ReadsAt m e2 q)
    (hx : m.cell p = some x) (hy : m.cell q = some y) :
    x.skipped y = true ↔ ∃ s : Sym, e1 = .symbol s ∧ e2 = .symbol s ∧ s.isYesNo = true := by
  simp only [Cell.skipped_iff, h1.symbol_iff hx, h2.symbol_iff hy]

/-- Two expressions are freed, and a neutral symbol takes the place of each. -/
theorem becomeNeutral_spec (hm : m.Fresh) (h1 : OwnsAt m e1 p S) (h2 : OwnsAt m e2 q T)
    (hdisjoint : Disjoint S T) (hn1 : e1.size ≤ n) (hn2 : e2.size ≤ n) (count : ℕ) :
    ∃ m₁ m₂, exprFree n p { m with transCount := count } = some m₁ ∧
      exprFree n q m₁ = some m₂ ∧
      let m₃ := (m₂.alloc (.symbol c.neutral)).2
      let m₄ := (m₃.alloc (.symbol c.neutral)).2
      OwnsAt m₄ (.symbol c.neutral) m₂.next {m₂.next} ∧
        OwnsAt m₄ (.symbol c.neutral) m₃.next {m₃.next} ∧ m₂.next ≠ m₃.next ∧
        Changes m (S ∪ T) m₄ ({m₂.next} ∪ {m₃.next}) := by
  have hm' : Memory.Fresh { m with transCount := count } := hm
  obtain ⟨m₁, hfree1, hch1⟩ := exprFree_spec hm' (h1.congr fun _ _ => rfl) hn1
  obtain ⟨m₂, hfree2, hch2⟩ := exprFree_spec hch1.fresh
    (hch1.owns hm' (h2.congr fun _ _ => rfl) hdisjoint) hn2
  have halloc1 := Changes.alloc hch2.fresh (.symbol c.neutral)
  have halloc2 := Changes.alloc halloc1.fresh (.symbol c.neutral)
  refine ⟨m₁, m₂, hfree1, hfree2, ?_, ?_, ?_, ?_⟩
  · exact halloc2.owns_add halloc1.fresh ⟨m₂.cell_alloc _, rfl⟩
  · exact ⟨Memory.cell_alloc _ _, rfl⟩
  · exact (Nat.lt_succ_self m₂.next).ne
  · have hcount : Changes m (S ∪ T) { m with transCount := count } (S ∪ T) :=
      ⟨hm, le_rfl, fun _ _ _ => rfl, fun _ hq => .inl hq⟩
    have hch1 := hch1.frame T
    rw [Set.empty_union] at hch1
    exact hcount.trans (hch1.trans (hch2.trans (halloc1.add halloc2)))

theorem eliminateEqOperand_run (heq : EqRun eq fe k) (hk : e1.size + e2.size ≤ k)
    (hn : e1.size + e2.size ≤ n + 1) :
    PairRun (eliminateEqOperand eq c n) (cancelEq fe c) e1 e2 := by
  intro m p q S T hm h1 h2 hdisjoint
  obtain ⟨x, hx⟩ := h1.exists_cell
  obtain ⟨y, hy⟩ := h2.exists_cell
  have hskipped := h1.reads.skipped_iff h2.reads hx hy
  obtain ⟨m₁, hrun, hch, -⟩ := heq hm h1.reads h2.reads hk
  have hpos1 := e1.size_pos
  have hpos2 := e2.size_pos
  cases hskip : x.skipped y with
  | true =>
    obtain ⟨s, rfl, rfl, hs⟩ := hskipped.1 hskip
    rw [cancelEq_symbol hs]
    exact ⟨p, q, m, S, T, by simp [eliminateEqOperand, hx, hy, hskip], h1, h2, hdisjoint,
      .refl hm _⟩
  | false =>
    have h1' := hch.owns hm h1 (Set.empty_disjoint S)
    have h2' := hch.owns hm h2 (Set.empty_disjoint T)
    have hch := hch.frame (S ∪ T)
    rw [Set.empty_union] at hch
    cases hfe : fe e1 e2 with
    | false =>
      rw [cancelEq_of_not hfe]
      exact ⟨p, q, m₁, S, T, by simp [eliminateEqOperand, hx, hy, hskip, hrun, hfe], h1', h2',
        hdisjoint, hch⟩
    | true =>
      have hcancel : cancelEq fe c e1 e2 = (.symbol c.neutral, .symbol c.neutral) := by
        refine cancelEq_of_eq hfe fun s hs1 hs2 => ?_
        by_contra hs
        rw [hskipped.2 ⟨s, hs1, hs2, by simpa using hs⟩] at hskip
        cases hskip
      obtain ⟨m₂, m₃, hfree1, hfree2, hown1, hown2, hne, hch'⟩ :=
        becomeNeutral_spec (c := c) hch.fresh h1' h2' hdisjoint (by omega : e1.size ≤ n)
          (by omega : e2.size ≤ n) (m₁.transCount + 1)
      rw [hcancel]
      refine ⟨_, _, _, _, _, ?_, hown1, hown2, Set.disjoint_singleton.2 hne, hch.trans hch'⟩
      simp only [eliminateEqOperand, hx, hy, hskip, hrun, hfe, hfree1, hfree2,
        Option.bind_eq_bind, Option.bind_some, Bool.false_eq_true, if_false, if_true]
      rfl

/-- The two results the other way round. -/
def swapped (f : ℕ → ℕ → Memory → Option (ℕ × ℕ × Memory)) (p q : ℕ) (m : Memory) :
    Option (ℕ × ℕ × Memory) :=
  (f q p m).map fun r => (r.2.1, r.1, r.2.2)

theorem PairRun.swap {f : ℕ → ℕ → Memory → Option (ℕ × ℕ × Memory)}
    {g : Expr → Expr → Expr × Expr} (h : PairRun f g e1 e2) :
    PairRun (swapped f) (fun e2 e1 => (g e1 e2).swap) e2 e1 := by
  intro m p q S T hm h2 h1 hdisjoint
  obtain ⟨p', q', m', S', T', hrun, hown1, hown2, hdisjoint', hch⟩ := h hm h1 h2 hdisjoint.symm
  refine ⟨q', p', m', T', S', by simp [swapped, hrun], hown2, hown1, hdisjoint'.symm, ?_⟩
  rwa [Set.union_comm S, Set.union_comm T']

theorem swapped_eq_some {f : ℕ → ℕ → Memory → Option (ℕ × ℕ × Memory)} {m m' : Memory}
    {p' q' : ℕ} (h : swapped f p q m = some (p', q', m')) : f q p m = some (q', p', m') := by
  rw [swapped, Option.map_eq_some_iff] at h
  obtain ⟨⟨x, y, z⟩, hrun, heq⟩ := h
  simp only [Prod.mk.injEq] at heq
  obtain ⟨rfl, rfl, rfl⟩ := heq
  exact hrun

/-- A run on the left operand of a chain and then on the right one; the other expression is
changed by both. -/
theorem PairRun.chain {f : ℕ → ℕ → Memory → Option (ℕ × ℕ × Memory)}
    {g : Expr → Expr → Expr × Expr} (hl : PairRun f g l e) (hr : PairRun f g r (g l e).2)
    (hm : m.Fresh) (hown : OwnsAt m (c.mk l r) p S) (he : OwnsAt m e q T)
    (hdisjoint : Disjoint S T) :
    ∃ a b a' b' q₁ q₂ m₁ m₂ S' T', m.cell p = some (.chain c a b) ∧
      f a q m = some (a', q₁, m₁) ∧ f b q₁ (m₁.write p (.chain c a' b)) = some (b', q₂, m₂) ∧
      let m₃ := m₂.write p (.chain c a' b')
      OwnsAt m₃ (c.mk (g l e).1 (g r (g l e).2).1) p S' ∧
        OwnsAt m₃ (g r (g l e).2).2 q₂ T' ∧ Disjoint S' T' ∧ Changes m (S ∪ T) m₃ (S' ∪ T') := by
  have hp := hown.lt hm p hown.root_mem
  obtain ⟨a, b, U, V, hcell, hownl, hownr, hpU, hpV, hUV, rfl⟩ := owns_mk.1 hown
  rw [Set.disjoint_insert_left, Set.disjoint_union_left] at hdisjoint
  obtain ⟨hpT, hUT, hVT⟩ := hdisjoint
  obtain ⟨a', q₁, m₁, U', T₁, hrunl, hownl₁, he₁, hUT₁, hch₁⟩ := hl hm hownl he hUT
  have hV := Set.disjoint_union_left.2 ⟨hUV, hVT.symm⟩
  have hV₁ := hch₁.disjoint (hownr.lt hm) hV
  have hp₁ := hch₁.notMem hp (fun h => h.elim hpU hpT)
  -- the nodes at `p` and of the right operand stay while the left one is done
  have hwrite₁ := Changes.write hch₁.fresh (hp.trans_le hch₁.next) (.chain c a' b)
  have hownr₁ := hwrite₁.owns hch₁.fresh (hch₁.owns hm hownr hV)
    (Set.disjoint_singleton_left.2 hpV)
  have hownl₂ := hwrite₁.owns hch₁.fresh hownl₁
    (Set.disjoint_singleton_left.2 fun h => hp₁ (.inl h))
  have he₂ := hwrite₁.owns hch₁.fresh he₁ (Set.disjoint_singleton_left.2 fun h => hp₁ (.inr h))
  rw [Set.disjoint_union_left] at hV₁
  obtain ⟨b', q₂, m₂, V', T₂, hrunr, hownr₂, he₃, hVT₂, hch₂⟩ :=
    hr hwrite₁.fresh hownr₁ he₂ hV₁.2.symm
  have hU' := Set.disjoint_union_left.2 ⟨hV₁.1.symm, hUT₁.symm⟩
  have hU₂ := hch₂.disjoint (hownl₂.lt hwrite₁.fresh) hU'
  have hp₂ : p ∉ V' ∪ T₂ := hch₂.notMem (hp.trans_le (hch₁.next.trans hwrite₁.next))
    (fun h => h.elim hpV fun h => hp₁ (.inr h))
  have hwrite₂ := Changes.write hch₂.fresh
    (hp.trans_le (hch₁.next.trans (hwrite₁.next.trans hch₂.next))) (.chain c a' b')
  rw [Set.disjoint_union_left] at hU₂
  refine ⟨a, b, a', b', q₁, q₂, m₁, m₂, insert p (U' ∪ V'), T₂, hcell, hrunl, hrunr, ?_, ?_, ?_,
    ?_⟩
  · exact owns_write (hch₂.owns hwrite₁.fresh hownl₂ hU') hownr₂ (fun h => hp₁ (.inl h))
      (fun h => hp₂ (.inl h)) hU₂.1.symm
  · exact hwrite₂.owns hch₂.fresh he₃ (Set.disjoint_singleton_left.2 fun h => hp₂ (.inr h))
  · rw [Set.disjoint_insert_left, Set.disjoint_union_left]
    exact ⟨fun h => hp₂ (.inr h), hU₂.2.symm, hVT₂⟩
  · have hleft : Changes m (insert p (U ∪ V) ∪ T) m₁ (insert p (U' ∪ V) ∪ T₁) :=
      (hch₁.frame (insert p V)).weaken (by grind) (by grind)
    have hwrite₁ := (hwrite₁.frame (U' ∪ V ∪ T₁)).weaken
      (T := insert p (U' ∪ V) ∪ T₁) (U := insert p (U' ∪ V) ∪ T₁) (by grind) (by grind)
    have hright := (hch₂.frame (insert p U')).weaken
      (T := insert p (U' ∪ V) ∪ T₁) (U := insert p (U' ∪ V') ∪ T₂) (by grind) (by grind)
    have hwrite₂ := (hwrite₂.frame (U' ∪ V' ∪ T₂)).weaken
      (T := insert p (U' ∪ V') ∪ T₂) (U := insert p (U' ∪ V') ∪ T₂) (by grind) (by grind)
    exact hleft.trans (hwrite₁.trans (hright.trans hwrite₂))

theorem exprEliminateEqChain_left (l r e2 : Expr) :
    exprEliminateEqChain fe c (c.mk l r) e2 =
      (c.mk (exprEliminateEqChain fe c l e2).1
          (exprEliminateEqChain fe c r (exprEliminateEqChain fe c l e2).2).1,
        (exprEliminateEqChain fe c r (exprEliminateEqChain fe c l e2).2).2) := by
  rw [exprEliminateEqChain, Expr.visit_mk]
  rfl

theorem exprEliminateEqChain_of_conn {a : Expr} (ha : a.conn? ≠ some c) (e2 : Expr) :
    exprEliminateEqChain fe c a e2 = e2.visit c (cancelEq fe c) a := by
  rw [exprEliminateEqChain, Expr.visit_of_conn ha]
  rfl

theorem visit_cancelEq_conn {a : Expr} (ha : a.conn? ≠ some c) (e : Expr) :
    (e.visit c (cancelEq fe c) a).1.conn? ≠ some c := by
  refine Expr.visit_operands (c := c) (f := cancelEq fe c)
    (R := fun a _ a' _ => a.conn? ≠ some c → a'.conn? ≠ some c) ?_ ?_ e a ha
  · intro a b _ ha
    exact cancelEq_conn ha
  · intro a l a₁ l' r a₂ r' hl hr ha
    exact hr (hl ha)

theorem exprEliminateEqChain_right {a : Expr} (ha : a.conn? ≠ some c) (l r : Expr) :
    exprEliminateEqChain fe c a (c.mk l r) =
      ((exprEliminateEqChain fe c (exprEliminateEqChain fe c a l).1 r).1,
        c.mk (exprEliminateEqChain fe c a l).2
          (exprEliminateEqChain fe c (exprEliminateEqChain fe c a l).1 r).2) := by
  rw [exprEliminateEqChain_of_conn ha, exprEliminateEqChain_of_conn ha, Expr.visit_mk,
    exprEliminateEqChain_of_conn (visit_cancelEq_conn ha l)]

theorem exprEliminateEqChain_size (fe : Expr → Expr → Bool) (c : Conn) (e1 e2 : Expr) :
    (exprEliminateEqChain fe c e1 e2).1.size ≤ e1.size ∧
      (exprEliminateEqChain fe c e1 e2).2.size ≤ e2.size := by
  have operand (a b : Expr) : (cancelEq fe c a b).1.size ≤ a.size ∧
      (cancelEq fe c a b).2.size ≤ b.size := by
    have ha := a.size_pos
    have hb := b.size_pos
    unfold cancelEq
    split <;> split_ifs <;> simp only [Expr.size] at * <;> omega
  have inner (a e2 : Expr) := Expr.visit_rel (c := c) (f := cancelEq fe c)
    (R := fun a b a' b' => a'.size ≤ a.size ∧ b'.size ≤ b.size) operand
    (fun s l s₁ l' r s₂ r' hl hr => by simp only [Conn.size_mk]; omega) e2 a
  have outer := Expr.visit_rel (c := c) (f := fun e2 a => (e2.visit c (cancelEq fe c) a).swap)
    (R := fun e2 a e2' a' => e2'.size ≤ e2.size ∧ a'.size ≤ a.size)
    (fun e2 a => (inner a e2).symm)
    (fun s l s₁ l' r s₂ r' hl hr => by simp only [Conn.size_mk]; omega) e1 e2
  exact outer.symm

theorem OwnsAt.chain?_of_conn (h : OwnsAt m e p S) (he : e.conn? ≠ some c) :
    m.chain? c p = none := by
  induction e using Expr.conn_induction with
  | chain d l r =>
    obtain ⟨a, b, T, U, hcell, -⟩ := owns_mk.1 h
    rw [Conn.conn_mk, Ne, Option.some.injEq] at he
    simp [Memory.chain?, hcell, he]
  | not e =>
    obtain ⟨a, T, hcell, -⟩ := h
    simp [Memory.chain?, hcell]
  | _ => simp [Memory.chain?, h.1]

theorem Memory.chain?_of_cell (h : m.cell p = some (.chain c a b)) : m.chain? c p = some (a, b) := by
  simp [Memory.chain?, h]

/-- `__expr_eliminate_eq` on two chains, or on an operand and what it is compared with. -/
theorem eliminateEqChain_run (heq : EqRun eq fe k)
    (hk : e1.conn? = some c ∧ e1.size + e2.size ≤ k + 1 ∨ e1.size + e2.size ≤ k)
    (hn : e1.size + e2.size ≤ n) :
    PairRun (eliminateEqChain eq c n) (exprEliminateEqChain fe c) e1 e2 := by
  induction n generalizing e1 e2 with
  | zero =>
    have hpos := e1.size_pos
    omega
  | succ n ih =>
    intro m p q S T hm h1 h2 hdisjoint
    by_cases hconn1 : e1.conn? = some c
    · obtain ⟨l, r, rfl⟩ := Expr.exists_of_conn hconn1
      rw [Conn.size_mk] at hk hn
      have hr := r.size_pos
      have hl := l.size_pos
      have hsize : (exprEliminateEqChain fe c l e2).2.size ≤ e2.size :=
        (exprEliminateEqChain_size fe c l e2).2
      obtain ⟨a, b, a', b', q₁, q₂, m₁, m₂, S', T', hcell, hrunl, hrunr, hown1, hown2,
        hdisjoint', hch⟩ := PairRun.chain (ih (.inr (by omega)) (by omega))
          (ih (.inr (by omega)) (by omega)) hm h1 h2 hdisjoint
      refine ⟨p, q₂, _, S', T', ?_, ?_, ?_, hdisjoint', hch⟩
      · simp [eliminateEqChain, Memory.chain?_of_cell hcell, hrunl, hrunr]
      · rw [exprEliminateEqChain_left]
        exact hown1
      · rw [exprEliminateEqChain_left]
        exact hown2
    have hk : e1.size + e2.size ≤ k := hk.resolve_left fun h => hconn1 h.1
    have hchain1 := h1.chain?_of_conn hconn1
    by_cases hconn2 : e2.conn? = some c
    · obtain ⟨l, r, rfl⟩ := Expr.exists_of_conn hconn2
      rw [Conn.size_mk] at hk hn
      have hsize : (exprEliminateEqChain fe c e1 l).1.size ≤ e1.size :=
        (exprEliminateEqChain_size fe c e1 l).1
      have hl : PairRun (eliminateEqChain eq c n) (exprEliminateEqChain fe c) e1 l :=
        ih (.inr (by omega)) (by omega)
      have hr : PairRun (eliminateEqChain eq c n) (exprEliminateEqChain fe c)
          (exprEliminateEqChain fe c e1 l).1 r := ih (.inr (by omega)) (by omega)
      obtain ⟨a, b, a', b', q₁, q₂, m₁, m₂, S', T', hcell, hrunl, hrunr, hown2, hown1,
        hdisjoint', hch⟩ := PairRun.chain hl.swap hr.swap hm h2 h1 hdisjoint.symm
      refine ⟨q₂, q, m₂.write q (.chain c a' b'), T', S', ?_, ?_, ?_, hdisjoint'.symm, ?_⟩
      · simp [eliminateEqChain, hchain1, Memory.chain?_of_cell hcell, swapped_eq_some hrunl,
          swapped_eq_some hrunr]
      · rw [exprEliminateEqChain_right hconn1]
        exact hown1
      · rw [exprEliminateEqChain_right hconn1]
        exact hown2
      · rwa [Set.union_comm S, Set.union_comm T']
    · have hcancel : exprEliminateEqChain fe c e1 e2 = cancelEq fe c e1 e2 := by
        rw [exprEliminateEqChain_of_conn hconn1, Expr.visit_of_conn hconn2]
      rw [hcancel]
      obtain ⟨p', q', m', S', T', hrun, hrest⟩ :=
        eliminateEqOperand_run (c := c) heq hk hn hm h1 h2 hdisjoint
      refine ⟨p', q', m', S', T', ?_, hrest⟩
      simp [eliminateEqChain, hchain1, h2.chain?_of_conn hconn2, hrun]

theorem OwnsAt.conn? (h : OwnsAt m e p S) : m.conn? p = e.conn? := by
  induction e using Expr.conn_induction with
  | chain d l r =>
    obtain ⟨a, b, T, U, hcell, -⟩ := owns_mk.1 h
    simp [Memory.conn?, hcell, Conn.conn_mk]
  | not e =>
    obtain ⟨a, T, hcell, -⟩ := h
    simp [Memory.conn?, hcell, Expr.conn?]
  | _ => simp [Memory.conn?, h.1, Expr.conn?]

/-- `expr_eliminate_eq` on two chains of one type. -/
theorem eliminateEq_run (heq : EqRun eq fe k) (hk : e1.size + e2.size ≤ k + 1)
    (hn : e1.size + e2.size ≤ n) (hconn1 : e1.conn? = some c) (hconn2 : e2.conn? = some c) :
    PairRun (eliminateEq eq n) (exprEliminateEqWith fe) e1 e2 := by
  intro m p q S T hm h1 h2 hdisjoint
  obtain ⟨p₁, q₁, m₁, S₁, T₁, hrun, hown1, hown2, hdisjoint₁, hch⟩ :=
    eliminateEqChain_run heq (.inl ⟨hconn1, hk⟩) hn hm h1 h2 hdisjoint
  obtain ⟨hconn1', hconn2'⟩ : (exprEliminateEqChain fe c e1 e2).1.conn? = some c ∧
      (exprEliminateEqChain fe c e1 e2).2.conn? = some c := exprEliminateEqChain_conn hconn1 hconn2
  obtain ⟨hsize1, hsize2⟩ := exprEliminateEqChain_size fe c e1 e2
  obtain ⟨m₂, S₂, hyn1, hown1₂, hch₁⟩ :=
    eliminateYn_spec (n := n) hch.fresh hown1 (hsize1.trans (by omega))
  have hdisjoint₂ := hch₁.disjoint (hown2.lt hch.fresh) hdisjoint₁
  obtain ⟨m₃, T₂, hyn2, hown2₃, hch₂⟩ := eliminateYn_spec (n := n) hch₁.fresh
    (hch₁.owns hch.fresh hown2 hdisjoint₁) (hsize2.trans (by omega))
  rw [exprEliminateEqWith_of_conn _ hconn1 hconn2]
  refine ⟨p₁, q₁, m₃, S₂, T₂, ?_, hch₂.owns hch₁.fresh hown1₂ hdisjoint₂.symm, hown2₃,
    (hch₂.disjoint (hown1₂.lt hch₁.fresh) hdisjoint₂.symm).symm, ?_⟩
  · simp [eliminateEq, h1.conn?, hconn1, hrun, hown1.conn?, hown2.conn?, hconn1', hconn2', hyn1,
      hyn2]
  · have hch₁ := hch₁.frame T₁
    have hch₂ := hch₂.frame S₂
    rw [Set.union_comm T₁, Set.union_comm T₂] at hch₂
    exact hch.trans (hch₁.trans hch₂)

end EliminateEq

/-! ## `expr_eq` -/

theorem Cell.sameSymbol_iff {x y : Cell} :
    x.sameSymbol y = true ↔ ∃ s : Sym, x = .symbol s ∧ y = .symbol s := by
  constructor
  · intro h
    unfold Cell.sameSymbol at h
    split at h
    · obtain rfl := of_decide_eq_true h
      exact ⟨_, rfl, rfl⟩
    · cases h
  · rintro ⟨s, rfl, rfl⟩
    simp [sameSymbol]

/-- What is in the node of an expression. -/
inductive NodeOf (m : Memory) : Expr → Cell → Prop where
  | symbol (s) : NodeOf m (.symbol s) (.symbol s)
  | equal (a b) : NodeOf m (.equal a b) (.equal a b)
  | unequal (a b) : NodeOf m (.unequal a b) (.unequal a b)
  | not {e q} : ReadsAt m e q → NodeOf m (.not e) (.not q)
  | and (l r a b) : NodeOf m (.and l r) (.chain .and a b)
  | or (l r a b) : NodeOf m (.or l r) (.chain .or a b)

theorem ReadsAt.node {m : Memory} {e : Expr} {p : ℕ} (h : ReadsAt m e p) :
    ∃ x, m.cell p = some x ∧ NodeOf m e x := by
  cases e with
  | symbol s => exact ⟨_, h, .symbol s⟩
  | equal a b => exact ⟨_, h, .equal a b⟩
  | unequal a b => exact ⟨_, h, .unequal a b⟩
  | not e =>
    obtain ⟨q, hq, he⟩ := h
    exact ⟨_, hq, .not he⟩
  | and l r =>
    obtain ⟨a, b, hp, -⟩ := h
    exact ⟨_, hp, .and l r a b⟩
  | or l r =>
    obtain ⟨a, b, hp, -⟩ := h
    exact ⟨_, hp, .or l r a b⟩

section ExprEq
variable {n : ℕ} {m : Memory} {e1 e2 : Expr} {p q : ℕ} {c : Conn}

/-- Two chains of one type are compared through copies. -/
theorem exprEqRun_chain (ih : EqRun (exprEqRun n) (exprEqAux n) n) (hm : m.Fresh)
    (h1 : ReadsAt m e1 p) (h2 : ReadsAt m e2 q) (hn : e1.size + e2.size ≤ n + 1)
    (hconn1 : e1.conn? = some c) (hconn2 : e2.conn? = some c) {a b a' b' : ℕ}
    (hx : m.cell p = some (.chain c a b)) (hy : m.cell q = some (.chain c a' b')) :
    ∃ m', exprEqRun (n + 1) p q m = some (exprEqAux (n + 1) e1 e2, m') ∧ Changes m ∅ m' ∅ ∧
      m'.transCount = m.transCount := by
  obtain ⟨p₁, m₁, S, hcopy1, hown1, hch₁, hcount₁⟩ :=
    exprCopy_spec (n := n + 1) hm h1 (by omega)
  obtain ⟨q₁, m₂, T, hcopy2, hown2, hch₂, hcount₂⟩ :=
    exprCopy_spec (n := n + 1) hch₁.fresh (hch₁.reads hm h2) (by omega)
  obtain ⟨p₂, q₂, m₃, S', T', hrun, hown1', hown2', hdisjoint, hch₃⟩ :=
    eliminateEq_run ih hn hn hconn1 hconn2 hch₂.fresh (hch₂.owns_add hch₁.fresh hown1) hown2
      (hch₂.disjoint_add hch₁.fresh hown1)
  have hsize := exprEliminateEqChain_size (exprEqAux n) c e1 e2
  rw [exprEliminateEqWith_of_conn _ hconn1 hconn2] at hown1' hown2'
  obtain ⟨x, hx'⟩ := hown1'.exists_cell
  obtain ⟨y, hy'⟩ := hown2'.exists_cell
  have hres : x.sameSymbol y = exprEqAux (n + 1) e1 e2 := by
    rw [Bool.eq_iff_iff, Cell.sameSymbol_iff, exprEqAux_chain hconn1 hconn2]
    simp only [hown1'.reads.symbol_iff hx', hown2'.reads.symbol_iff hy']
  obtain ⟨m₄, hfree1, hch₄⟩ := exprFree_spec (n := n + 1) hch₃.fresh hown1'
    ((exprEliminateYn_size_le _).trans (hsize.1.trans (by omega)))
  obtain ⟨m₅, hfree2, hch₅⟩ := exprFree_spec (n := n + 1) hch₄.fresh
    (hch₄.owns hch₃.fresh hown2' hdisjoint)
    ((exprEliminateYn_size_le _).trans (hsize.2.trans (by omega)))
  have hall : Changes m ∅ m₅ ∅ := by
    have hch₄ := hch₄.frame T'
    rw [Set.empty_union] at hch₄
    exact ((hch₁.add hch₂).trans hch₃).trans (hch₄.trans hch₅)
  refine ⟨{ m₅ with transCount := m₂.transCount }, ?_,
    ⟨hall.fresh, hall.next, hall.same, hall.new⟩, hcount₂.trans hcount₁⟩
  simp [exprEqRun, hx, hy, hcopy1, hcopy2, hrun, hx', hy', hfree1, hfree2, hres]

/-- `expr_eq` in memory finds what `expr_eq` on expressions finds, and leaves what is there and
`trans_count` as they were. -/
theorem exprEqRun_run (n : ℕ) : EqRun (exprEqRun n) (exprEqAux n) n := by
  induction n with
  | zero =>
    intro m e1 e2 p q hm h1 h2 hn
    have hpos := e1.size_pos
    omega
  | succ n ih =>
    intro m e1 e2 p q hm h1 h2 hn
    obtain ⟨x, hx, hnode1⟩ := h1.node
    obtain ⟨y, hy, hnode2⟩ := h2.node
    -- without a chain nothing is allocated
    have plain {b : Bool} (hrun : exprEqRun (n + 1) p q m = some (b, m))
        (h : exprEqAux (n + 1) e1 e2 = b) :
        ∃ m', exprEqRun (n + 1) p q m = some (exprEqAux (n + 1) e1 e2, m') ∧
          Changes m ∅ m' ∅ ∧ m'.transCount = m.transCount :=
      ⟨m, h ▸ hrun, .refl hm ∅, rfl⟩
    cases hnode1 <;> cases hnode2
    case not.not e a ha e' a' ha' =>
      obtain ⟨m', hrun, hrest⟩ := ih hm ha ha' (by simp only [Expr.size] at hn; omega)
      refine ⟨m', ?_, hrest⟩
      simp [exprEqRun, hx, hy, hrun, exprEqAux]
    case and.and => exact exprEqRun_chain ih hm h1 h2 hn rfl rfl hx hy
    case or.or => exact exprEqRun_chain ih hm h1 h2 hn rfl rfl hx hy
    all_goals exact plain (by simp only [exprEqRun, hx, hy]; rfl) rfl

end ExprEq

end Grasshopper.Kconfig
