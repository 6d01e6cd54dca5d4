import Grasshopper.Kconfig.Expr.Dups

/-! # Conditions guarded by a choice

A choice has no name, so no written expression mentions it. `menu_finalize` puts its symbol in
front of the conditions inside the choice, and the rewriters keep it there: it stays an operand
of the conjunction, unless they find the whole condition to be `n`.
-/

namespace Grasshopper.Kconfig

section Symbols
variable {τ : Sym → SymType}

theorem mem_syms_of_joinSym1 {e : Expr} {s : Sym} (h : joinSym1 e = some s) : s ∈ e.syms := by
  unfold joinSym1 at h
  split at h <;> first
    | (obtain rfl := Option.some_inj.mp h; simp [Expr.syms])
    | simp at h

theorem mem_syms_of_joinSym2 {e : Expr} {s : Sym} (h : joinSym2 e = some s) : s ∈ e.syms := by
  unfold joinSym2 at h
  split at h <;> first
    | (obtain rfl := Option.some_inj.mp h; simp [Expr.syms])
    | simp at h

theorem joinOrRules_syms {sym : Sym} {e1 e2 t : Expr} (ht : joinOrRules τ sym e1 e2 = some t) :
    ∀ s ∈ t.syms, s = sym ∨ s.isStatic := by
  unfold joinOrRules at ht
  split at ht
  case h_4 => simp at ht
  all_goals
    split_ifs at ht
    all_goals obtain rfl := Option.some_inj.mp ht
    all_goals simp [Expr.syms, Sym.isStatic]

theorem joinAndRules_syms {sym : Sym} {e1 e2 t : Expr} (ht : joinAndRules τ sym e1 e2 = some t) :
    ∀ s ∈ t.syms, s = sym ∨ s ∈ e1.syms ∨ s ∈ e2.syms ∨ s.isStatic := by
  unfold joinAndRules at ht
  split at ht
  case h_8 => simp at ht
  all_goals
    split_ifs at ht
    all_goals obtain rfl := Option.some_inj.mp ht
    all_goals simp [Expr.syms, Sym.isStatic]

/-- The only symbols a rewriter brings in are the static ones. -/
theorem exprJoin_syms {c : Conn} {e1 e2 t : Expr} (ht : exprJoin τ c e1 e2 = some t) :
    ∀ s ∈ t.syms, s ∈ e1.syms ∨ s ∈ e2.syms ∨ s.isStatic := by
  intro s hs
  unfold exprJoin at ht
  split_ifs at ht with heq
  · obtain rfl := Option.some_inj.mp ht
    exact .inl hs
  · split at ht
    · rename_i s1 s2 h1 h2
      split_ifs at ht
      have hs1 := mem_syms_of_joinSym1 h1
      cases c with
      | or =>
        rcases joinOrRules_syms ht s hs with rfl | hs
        · exact .inl hs1
        · exact .inr (.inr hs)
      | and =>
        rcases joinAndRules_syms ht s hs with rfl | hs
        · exact .inl hs1
        · exact hs
    · simp at ht

/-- Elimination brings in no symbols but static ones. -/
theorem hereditary_syms (τ : Sym → SymType) {Q : Sym → Prop} (hQ : ∀ x, x.isStatic → Q x) :
    Hereditary τ fun e => ∀ x ∈ e.syms, Q x where
  and l r := by simp [Expr.syms, or_imp, forall_and]
  or l r := by simp [Expr.syms, or_imp, forall_and]
  yes := by simpa [Expr.syms] using hQ .yes rfl
  no := by simpa [Expr.syms] using hQ .no rfl
  join ht ha hb x hx := by
    rcases exprJoin_syms ht x hx with h | h | h
    · exact ha x h
    · exact hb x h
    · exact hQ x h

/-- A symbol that is not static stays out of an expression under elimination. -/
theorem hereditary_absent (τ : Sym → SymType) {C : Sym} (hC : C.isStatic = false) :
    Hereditary τ fun e => C ∉ e.syms where
  and l r := by simp [Expr.syms]
  or l r := by simp [Expr.syms]
  yes := by rintro h; simp [Expr.syms] at h; simp [h, Sym.isStatic] at hC
  no := by rintro h; simp [Expr.syms] at h; simp [h, Sym.isStatic] at hC
  join ht ha hb h := by
    rcases exprJoin_syms ht C h with h | h | h
    · exact ha h
    · exact hb h
    · simp [hC] at h

theorem exprTransformAux_syms (τ : Sym → SymType) (n : ℕ) (e : Expr) :
    ∀ s ∈ (exprTransformAux τ n e).syms, s ∈ e.syms ∨ s.isStatic := by
  induction n generalizing e with
  | zero => exact fun s hs => .inl hs
  | succ n ih =>
    have children : ∀ s ∈ (e.mapChildren (exprTransformAux τ n)).syms, s ∈ e.syms ∨ s.isStatic := by
      intro s hs
      cases e with
      | not a => exact ih a s hs
      | and l r | or l r =>
        simp only [Expr.mapChildren, Expr.syms, List.mem_append] at hs ⊢
        rcases hs with hs | hs
        · exact (ih l s hs).imp_left .inl
        · exact (ih r s hs).imp_left .inr
      | symbol t | equal a b | unequal a b => exact .inl hs
    have again {e' : Expr} (he : ∀ s ∈ e'.syms, s ∈ e.syms ∨ s.isStatic) :
        ∀ s ∈ (exprTransformAux τ n e').syms, s ∈ e.syms ∨ s.isStatic :=
      fun s hs => (ih e' s hs).elim (he s) .inr
    unfold exprTransformAux
    generalize e.mapChildren (exprTransformAux τ n) = e' at children ⊢
    split
    · split_ifs <;> simp_all [Expr.syms, Sym.isStatic]
    · split_ifs <;> simp_all [Expr.syms, Sym.isStatic]
    · exact again children
    · exact children
    · exact children
    · exact again children
    · exact again children
    · simp [Expr.syms, Sym.isStatic]
    · simp [Expr.syms, Sym.isStatic]
    · simp [Expr.syms, Sym.isStatic]
    · exact children

theorem exprTransBool_syms (τ : Sym → SymType) (e : Expr) :
    ∀ s ∈ (exprTransBool τ e).syms, s ∈ e.syms := by
  intro s hs
  induction e with
  | symbol t => exact hs
  | not e ih => exact ih hs
  | and l r ihl ihr | or l r ihl ihr =>
    simp only [exprTransBool, Expr.syms, List.mem_append] at hs ⊢
    exact hs.imp ihl ihr
  | equal a b => exact hs
  | unequal a b =>
    unfold exprTransBool at hs
    split_ifs at hs <;> simp_all [Expr.syms]

end Symbols

/-! ## The guard -/

/-- The choice `C` occurs only as an operand of the conjunction `e`. -/
def BareIn (C : Sym) : Expr → Prop
  | .and l r => BareIn C l ∧ BareIn C r
  | e => e = .symbol C ∨ C ∉ e.syms

/-- `C`, or the contradiction `n`, is an operand of the conjunction `e`. -/
def HasGuard (C : Sym) : Expr → Prop
  | .and l r => HasGuard C l ∨ HasGuard C r
  | e => e = .symbol C ∨ e = .symbol .no

/-- A condition under the choice `C`. -/
structure Guarded (C : Sym) (e : Expr) : Prop where
  bare : BareIn C e
  guard : HasGuard C e

section Guarded
variable {τ : Sym → SymType} {C : Sym}

theorem BareIn.of_absent {e : Expr} (h : C ∉ e.syms) : BareIn C e := by
  induction e with
  | and l r ihl ihr =>
    simp only [Expr.syms, List.mem_append, not_or] at h
    exact ⟨ihl h.1, ihr h.2⟩
  | symbol s => exact .inr h
  | not e ih => exact .inr h
  | or l r ihl ihr => exact .inr h
  | equal a b => exact .inr h
  | unequal a b => exact .inr h

/-- A condition guarded by `C` is at most `C`. -/
theorem Guarded.value_le {type : Sym → SymType} {ρ : Sym → SymbolValue} (h : Standard type ρ)
    {e : Expr} (he : Guarded C e) : e.value type ρ ≤ (ρ C).tri := by
  have main : HasGuard C e → e.value type ρ ≤ (ρ C).tri := by
    intro hg
    induction e with
    | and l r ihl ihr =>
      rcases hg with hg | hg
      · exact (min_le_left _ _).trans (ihl ⟨he.bare.1, hg⟩ hg)
      · exact (min_le_right _ _).trans (ihr ⟨he.bare.2, hg⟩ hg)
    | symbol s =>
      rcases hg with hg | hg
      · rw [hg]; exact le_rfl
      · rw [hg, h.value_no]; exact Tristate.no_le _
    | not e ih => simp [HasGuard] at hg
    | or l r ihl ihr => simp [HasGuard] at hg
    | equal a b => simp [HasGuard] at hg
    | unequal a b => simp [HasGuard] at hg
  exact main he.guard

/-- A guarded condition mentions the choice, or has the operand `n`. -/
theorem HasGuard.mem_or_no {type : Sym → SymType} {ρ : Sym → SymbolValue} (h : Standard type ρ)
    {e : Expr} (he : HasGuard C e) : C ∈ e.syms ∨ e.value type ρ = .no := by
  induction e with
  | and l r ihl ihr =>
    simp only [Expr.syms, List.mem_append, Expr.value]
    rcases he with he | he
    · rcases ihl he with h | h
      · exact .inl (.inl h)
      · exact .inr (by simp [h])
    · rcases ihr he with h | h
      · exact .inl (.inr h)
      · exact .inr (by simp [h])
  | symbol s =>
    rcases he with he | he
    · exact .inl (by rw [he]; simp [Expr.syms])
    · exact .inr (by rw [he]; exact h.no)
  | not e ih => simp [HasGuard] at he
  | or l r ihl ihr => simp [HasGuard] at he
  | equal a b => simp [HasGuard] at he
  | unequal a b => simp [HasGuard] at he

theorem BareIn.operands {e : Expr} (h : BareIn C e) :
    ∀ a ∈ e.operands .and, a = .symbol C ∨ C ∉ a.syms := by
  induction e with
  | and l r ihl ihr =>
    simp only [Expr.operands, if_true, List.mem_append]
    exact fun a ha => ha.elim (ihl h.1 a) (ihr h.2 a)
  | or l r ihl ihr =>
    intro a ha
    simp only [Expr.operands, reduceCtorEq, if_false, List.mem_singleton] at ha
    exact ha ▸ h
  | symbol s => intro a ha; exact List.mem_singleton.mp ha ▸ h
  | not e ih => intro a ha; exact List.mem_singleton.mp ha ▸ h
  | equal x y => intro a ha; exact List.mem_singleton.mp ha ▸ h
  | unequal x y => intro a ha; exact List.mem_singleton.mp ha ▸ h

theorem HasGuard.operands {e : Expr} (h : HasGuard C e) :
    .symbol C ∈ e.operands .and ∨ .symbol .no ∈ e.operands .and := by
  induction e with
  | and l r ihl ihr =>
    simp only [Expr.operands, if_true, List.mem_append]
    rcases h with h | h
    · exact (ihl h).imp .inl .inl
    · exact (ihr h).imp .inr .inr
  | or l r ihl ihr => simp [HasGuard] at h
  | symbol s => simpa [Expr.operands, HasGuard, eq_comm] using h
  | not e ih => simp [HasGuard] at h
  | equal a b => simp [HasGuard] at h
  | unequal a b => simp [HasGuard] at h

theorem HasGuard.refill {e : Expr} {ls : List Expr} (hlen : ls.length = (e.operands .and).length)
    (hls : ∃ a ∈ ls, HasGuard C a) : HasGuard C (e.refill .and ls) := by
  have one {e : Expr} {ls : List Expr} (hlen : ls.length = 1) (hls : ∃ a ∈ ls, HasGuard C a) :
      HasGuard C (ls.headD e) := by
    obtain ⟨a, rfl⟩ := List.length_eq_one_iff.mp hlen
    simpa using hls
  induction e generalizing ls with
  | and l r ihl ihr =>
    simp only [Expr.operands, if_true, List.length_append] at hlen
    simp only [Expr.refill, if_true]
    obtain ⟨a, ha, hg⟩ := hls
    rw [← List.take_append_drop (l.operands .and).length ls, List.mem_append] at ha
    rcases ha with ha | ha
    · exact .inl (ihl (by simp [hlen]) ⟨a, ha, hg⟩)
    · exact .inr (ihr (by simp [hlen]) ⟨a, ha, hg⟩)
  | or l r ihl ihr => exact one hlen hls
  | symbol s => exact one hlen hls
  | not e ih => exact one hlen hls
  | equal a b => exact one hlen hls
  | unequal a b => exact one hlen hls

/-- The guard in a list of operands. -/
structure GuardedOperands (C : Sym) (ls : List Expr) : Prop where
  bare : ∀ a ∈ ls, a = .symbol C ∨ C ∉ a.syms
  guard : .symbol C ∈ ls ∨ .symbol .no ∈ ls

theorem Guarded.operands {e : Expr} (h : Guarded C e) : GuardedOperands C (e.operands .and) :=
  ⟨h.bare.operands, h.guard.operands⟩

theorem GuardedOperands.refill {e : Expr} {ls : List Expr} (h : GuardedOperands C ls)
    (hlen : ls.length = (e.operands .and).length) : Guarded C (e.refill .and ls) where
  bare := Expr.refill_of (Q := BareIn C) (c := .and) (fun _ _ hl hr => ⟨hl, hr⟩) e ls hlen fun a ha =>
    (h.bare a ha).elim (fun h => h ▸ .inl rfl) BareIn.of_absent
  guard := HasGuard.refill hlen <| by
    rcases h.guard with h | h
    · exact ⟨_, h, .inl rfl⟩
    · exact ⟨_, h, .inr rfl⟩

theorem mem_set_of_ne {α : Type} {ls : List α} {i : ℕ} {a x y : α} (hi : ls[i]? = some a)
    (hax : a ≠ x) (hx : x ∈ ls) : x ∈ ls.set i y := by
  obtain ⟨k, hk⟩ := List.mem_iff_getElem?.mp hx
  have hik : i ≠ k := by
    rintro rfl
    exact hax (Option.some_inj.mp (hi.symm.trans hk))
  exact List.mem_iff_getElem?.mpr ⟨k, by rw [List.getElem?_set_ne hik, hk]⟩

/-- Replacing an operand that is not the guard keeps the guard. -/
theorem GuardedOperands.set {ls : List Expr} {i : ℕ} {a x : Expr} (h : GuardedOperands C ls)
    (hi : ls[i]? = some a) (hC : a ≠ .symbol C) (hn : a ≠ .symbol .no) (hx : C ∉ x.syms) :
    GuardedOperands C (ls.set i x) where
  bare := forall_mem_set i h.bare (.inr hx)
  guard := h.guard.imp (mem_set_of_ne hi hC) (mem_set_of_ne hi hn)

theorem exprEq_symbol_right {s : Sym} {e : Expr} (h : exprEq e (.symbol s) = true) :
    e = .symbol s := by
  unfold exprEq at h
  rw [show e.size + (Expr.symbol s).size = e.size + 1 by simp [Expr.size]] at h
  unfold exprEqAux at h
  split at h <;> simp_all

theorem exprEq_symbol_self (s : Sym) : exprEq (.symbol s) (.symbol s) = true := by
  simp [exprEq, Expr.size, exprEqAux]

/-- A symbol is joined in a conjunction only with itself, if no other operand is about it. -/
theorem exprJoin_symbol {s : Sym} {a b t : Expr} (ht : exprJoin τ .and a b = some t)
    (hab : a = .symbol s ∨ b = .symbol s) (ha : a = .symbol s ∨ s ∉ a.syms ∨ (τ s).isLogic = false)
    (hb : b = .symbol s ∨ s ∉ b.syms ∨ (τ s).isLogic = false) : t = .symbol s := by
  unfold exprJoin at ht
  split_ifs at ht with heq
  · obtain rfl := Option.some_inj.mp ht
    rcases hab with h | h
    · exact h
    · exact exprEq_symbol_right (h ▸ heq)
  · exfalso
    split at ht
    · rename_i s1 s2 h1 h2
      split_ifs at ht with hs
      obtain ⟨hs, hl⟩ := not_or.mp hs
      obtain rfl := not_not.mp hs
      have hs : s1 = s := by
        rcases hab with rfl | rfl
        · exact (Option.some_inj.mp h1).symm
        · exact (Option.some_inj.mp h2).symm
      subst hs
      have ha' : a = .symbol s1 := by
        rcases ha with ha | ha | ha
        · exact ha
        · exact absurd (mem_syms_of_joinSym1 h1) ha
        · simp [ha] at hl
      have hb' : b = .symbol s1 := by
        rcases hb with hb | hb | hb
        · exact hb
        · exact absurd (mem_syms_of_joinSym2 h2) hb
        · simp [hb] at hl
      rw [ha', hb'] at heq
      exact heq (exprEq_symbol_self s1)
    · simp at ht

/-- The join of two operands moves the guard at most to the second one. -/
theorem GuardedOperands.join (hC : C.isChoice) (hno : (τ .no).isLogic = false) {ls : List Expr}
    {i j : ℕ} {a b t : Expr} (h : GuardedOperands C ls) (hij : i ≠ j) (ha : ls[i]? = some a)
    (hb : ls[j]? = some b) (ht : exprJoin τ .and a b = some t) :
    GuardedOperands C ((ls.set i (.symbol .yes)).set j t) := by
  have hyes : C ∉ (Expr.symbol .yes).syms := by
    cases C <;> simp [Sym.isChoice, Expr.syms] at hC ⊢
  have hj : (ls.set i (.symbol .yes))[j]? = some b := by rw [List.getElem?_set_ne hij, hb]
  have hjlen : j < (ls.set i (.symbol .yes)).length := (List.getElem?_eq_some_iff.mp hj).1
  have hmem : t ∈ (ls.set i (.symbol .yes)).set j t := List.mem_set hjlen t
  have ha' := h.bare a (List.mem_of_getElem? ha)
  have hb' := h.bare b (List.mem_of_getElem? hb)
  have bare (ht : t = .symbol C ∨ C ∉ t.syms) :=
    forall_mem_set j (forall_mem_set i h.bare (.inr hyes)) ht
  by_cases hCab : a = .symbol C ∨ b = .symbol C
  · have : t = .symbol C := exprJoin_symbol ht hCab (ha'.imp_right .inl) (hb'.imp_right .inl)
    exact ⟨bare (.inl this), .inl (this ▸ hmem)⟩
  · obtain ⟨hCa, hCb⟩ := not_or.mp hCab
    have habs : C ∉ t.syms := by
      have := (hereditary_absent τ (C := C) (by cases C <;> simp_all [Sym.isChoice, Sym.isStatic]))
      exact this.join ht (ha'.resolve_left hCa) (hb'.resolve_left hCb)
    by_cases hnab : a = .symbol .no ∨ b = .symbol .no
    · have : t = .symbol .no := exprJoin_symbol ht hnab (.inr (.inr hno)) (.inr (.inr hno))
      exact ⟨bare (.inr habs), .inr (this ▸ hmem)⟩
    · obtain ⟨hna, hnb⟩ := not_or.mp hnab
      exact (h.set ha hCa hna hyes).set hj hCb hnb habs

section Elimination
variable (hC : C.isChoice) (hno : (τ .no).isLogic = false)
include hC

theorem isStatic_of_isChoice : C.isStatic = false := by
  cases C <;> simp_all [Sym.isChoice, Sym.isStatic]

theorem Guarded.eliminateYn {e : Expr} (h : Guarded C e) : Guarded C (exprEliminateYn e) := by
  have absent := (hereditary_absent (fun _ => .unknown) (isStatic_of_isChoice hC)).eliminateYn
  have hyes : ¬HasGuard C (.symbol .yes) := by
    rintro (h | h)
    · cases C <;> simp_all [Sym.isChoice]
    · simp at h
  have hno : Guarded C (.symbol .no) :=
    ⟨.inr (by cases C <;> simp_all [Sym.isChoice, Expr.syms]), .inr rfl⟩
  have bare : ∀ e, BareIn C e → BareIn C (exprEliminateYn e) := by
    intro e he
    induction e with
    | and l r ihl ihr =>
      simp only [exprEliminateYn]
      split_ifs
      · exact hno.bare
      · exact ihr he.2
      · exact hno.bare
      · exact ihl he.1
      · exact ⟨ihl he.1, ihr he.2⟩
    | or l r ihl ihr =>
      exact .of_absent (absent _ (he.resolve_left (by simp)))
    | symbol s => exact he
    | not e ih => exact he
    | equal a b => exact he
    | unequal a b => exact he
  have guard : ∀ e, HasGuard C e → HasGuard C (exprEliminateYn e) := by
    intro e he
    induction e with
    | and l r ihl ihr =>
      simp only [exprEliminateYn]
      split_ifs with h1 h2 h3 h4
      · exact hno.guard
      · exact he.elim (fun h => absurd (h2 ▸ ihl h) hyes) ihr
      · exact hno.guard
      · exact he.elim ihl fun h => absurd (h4 ▸ ihr h) hyes
      · exact he.imp ihl ihr
    | symbol s => exact he
    | or l r ihl ihr => simp [HasGuard] at he
    | not e ih => exact he
    | equal a b => exact he
    | unequal a b => exact he
  exact ⟨bare e h.bare, guard e h.guard⟩

include hno

theorem Guarded.dups1 (n : ℕ) {e : Expr} (h : Guarded C e) :
    Guarded C (exprEliminateDups1 τ n .and e).1 := by
  cases n with
  | zero => exact h
  | succ n =>
    have absent := hereditary_absent τ (isStatic_of_isChoice hC)
    obtain ⟨ls, hlen, hls, he⟩ := exprEliminateDups1_rule (τ := τ) (c := .and)
      (P := GuardedOperands C) n e h.operands
      (fun ls i a c' ha hc hls => by
        have hsym (s : Sym) : a ≠ .symbol s := by rintro rfl; simp [Expr.conn?] at hc
        exact hls.set ha (hsym C) (hsym .no) (absent.dups1 n c' a
          ((hls.bare a (List.mem_of_getElem? ha)).resolve_left (hsym C))))
      (fun ls i j a b t hij ha hb ht hls => hls.join hC hno hij ha hb ht)
    exact he ▸ hls.refill hlen

omit hno in
theorem Guarded.dups2 (n : ℕ) {e : Expr} (h : Guarded C e) :
    Guarded C (exprEliminateDups2 τ n .and e).1 := by
  cases n with
  | zero => exact h
  | succ n =>
    have absent := hereditary_absent τ (isStatic_of_isChoice hC)
    obtain ⟨ls, hlen, hls, he⟩ := exprEliminateDups2_rule (τ := τ) (c := .and)
      (P := GuardedOperands C) n e h.operands
      (fun ls i a c' ha hc hls => by
        have hsym (s : Sym) : a ≠ .symbol s := by rintro rfl; simp [Expr.conn?] at hc
        exact hls.set ha (hsym C) (hsym .no) (absent.dups2 n c' a
          ((hls.bare a (List.mem_of_getElem? ha)).resolve_left (hsym C))))
      (fun ls i a _ _ ha _ _ _ hls => by
        refine ⟨forall_mem_set i hls.bare (.inr absent.no), .inr ?_⟩
        exact List.mem_set (List.getElem?_eq_some_iff.mp ha).1 _)
    exact he ▸ hls.refill hlen

/-- The elimination of duplicates keeps the guard. -/
theorem Guarded.eliminateDups {e : Expr} (h : Guarded C e) :
    Guarded C (exprEliminateDups τ e) := by
  have absent := hereditary_absent τ (isStatic_of_isChoice hC)
  have aux : ∀ n e, Guarded C e → Guarded C (exprEliminateDupsAux τ n e) := by
    intro n
    induction n with
    | zero => exact fun e h => h
    | succ n ih =>
      intro e h
      unfold exprEliminateDupsAux
      split
      · exact h
      · rename_i c hc
        have hand : c = .and := by
          cases e <;> simp_all [Expr.conn?]
          exact absurd h.guard (by simp [HasGuard])
        subst hand
        have h2 := (h.dups1 hC hno e.size).dups2 (τ := τ) hC (exprEliminateDups1 τ e.size .and e).1.size
        dsimp only
        split_ifs
        · exact h2
        · exact ih _ (h2.eliminateYn hC)
  exact aux _ e h

end Elimination

theorem Guarded.transBool {e : Expr} (h : Guarded C e) : Guarded C (exprTransBool τ e) := by
  have absent {e : Expr} (h : C ∉ e.syms) : C ∉ (exprTransBool τ e).syms :=
    fun h' => h (exprTransBool_syms τ e C h')
  have bare : ∀ e, BareIn C e → BareIn C (exprTransBool τ e) := by
    intro e he
    induction e with
    | and l r ihl ihr => exact ⟨ihl he.1, ihr he.2⟩
    | symbol s => exact he
    | or l r ihl ihr => exact .of_absent (absent (he.resolve_left (by simp)))
    | not e ih => exact .of_absent (absent (he.resolve_left (by simp)))
    | equal a b => exact .of_absent (absent (he.resolve_left (by simp)))
    | unequal a b => exact .of_absent (absent (he.resolve_left (by simp)))
  have guard : ∀ e, HasGuard C e → HasGuard C (exprTransBool τ e) := by
    intro e he
    induction e with
    | and l r ihl ihr => exact he.imp ihl ihr
    | symbol s => exact he
    | or l r ihl ihr => simp [HasGuard] at he
    | not e ih => simp [HasGuard] at he
    | equal a b => simp [HasGuard] at he
    | unequal a b => simp [HasGuard] at he
  exact ⟨bare e h.bare, guard e h.guard⟩

/-- Conditions added under a guarded one are guarded. -/
theorem Guarded.and {l r : Expr} (hl : Guarded C l) (hr : C ∉ r.syms) : Guarded C (.and l r) :=
  ⟨⟨hl.bare, .of_absent hr⟩, .inl hl.guard⟩

theorem Guarded.symbol (C : Sym) : Guarded C (.symbol C) := ⟨.inl rfl, .inl rfl⟩

end Guarded

end Grasshopper.Kconfig
