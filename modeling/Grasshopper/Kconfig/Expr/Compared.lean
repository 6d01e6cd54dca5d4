import Grasshopper.Kconfig.Expr.InPlace

/-! # What `expr_eq` is for

`expr_eq` ends, finds only expressions with the same value, finds those that are the same up to the
order and the grouping of operands, and leaves its arguments as they were. What it misses are chains
with two quoted constants.
-/

namespace Grasshopper.Kconfig

/-- No chain has an operand twice. -/
def Expr.NoRepeat : Expr → Prop
  | and l r => ((and l r).operands .and).Nodup ∧ l.NoRepeat ∧ r.NoRepeat
  | or l r => ((or l r).operands .or).Nodup ∧ l.NoRepeat ∧ r.NoRepeat
  | not e => e.NoRepeat
  | _ => True

/-- `expr_eq` on the expressions at `p` and `q` does what it is for. -/
def Compares (m : Memory) (p q : ℕ) (e1 e2 : Expr) : Prop :=
  ∀ n, e1.size + e2.size ≤ n → ∃ res m', exprEqRun n p q m = some (res, m') ∧
    (res = true → ∀ type ρ, Standard type ρ → e1.value type ρ = e2.value type ρ) ∧
    (Rearranged e1 e2 → e1.NoYmn → e1.NoRepeat → res = true) ∧
    (∀ a x, m.cell a = some x → m'.cell a = some x) ∧ m'.transCount = m.transCount

/-- `expr_eq` does what it is for exactly if it is not asked for a rearrangement with two quoted
constants in a chain. -/
theorem compares_iff {m : Memory} {p q : ℕ} {e1 e2 : Expr} (hm : m.Fresh) (h1 : ReadsAt m e1 p)
    (h2 : ReadsAt m e2 q) :
    Compares m p q e1 e2 ↔
      (Rearranged e1 e2 → e1.NoYmn → e1.NoRepeat → e1.FewConstants) := by
  have found (n : ℕ) (hn : e1.size + e2.size ≤ n) (hre : Rearranged e1 e2) (hymn : e1.NoYmn) :
      exprEqAux n e1 e2 = true ↔ e1.FewConstants := by
    rw [(exprEqAux_finds n).iff e1 e2 hn hymn (hre.limited.1 hymn)]
    exact and_iff_right hre
  constructor
  · intro h hre hymn hrepeat
    obtain ⟨res, m', hrun, -, hfound, -⟩ := h _ le_rfl
    obtain ⟨m'', hrun', -⟩ := exprEqRun_run _ hm h1 h2 le_rfl
    rw [hrun, Option.some.injEq, Prod.mk.injEq] at hrun'
    rw [← found _ le_rfl hre hymn, ← hrun'.1]
    exact hfound hre hymn hrepeat
  · intro h n hn
    obtain ⟨m', hrun, hch, hcount⟩ := exprEqRun_run n hm h1 h2 hn
    refine ⟨_, m', hrun, ?_, ?_, ?_, hcount⟩
    · intro hres type ρ hρ
      exact exprEqAux_sound hρ n e1 e2 hres
    · intro hre hymn hrepeat
      exact (found n hn hre hymn).2 (h hre hymn hrepeat)
    · intro a x hx
      rw [hch.same a (hm.lt (by simp [hx])) (Set.notMem_empty a), hx]

/-! ## Two quoted constants -/

/-- `"a" && "b"` at 0 and `"b" && "a"` at 3. -/
def quotedMemory : Memory where
  cell p :=
    [.chain .and 1 2, .symbol (.const ⟨['a'], by decide⟩), .symbol (.const ⟨['b'], by decide⟩),
      .chain .and 4 5, .symbol (.const ⟨['b'], by decide⟩),
      .symbol (.const ⟨['a'], by decide⟩)][p]?
  next := 6
  transCount := 0

def quotedAnd (a b : Name) : Expr := .and (.symbol (.const a)) (.symbol (.const b))

/-- The constants are not struck out, and two chains are left. -/
theorem quotedAnd_not_compares :
    ¬Compares quotedMemory 0 3 (quotedAnd ⟨['a'], by decide⟩ ⟨['b'], by decide⟩)
      (quotedAnd ⟨['b'], by decide⟩ ⟨['a'], by decide⟩) := by
  intro h
  obtain ⟨res, m', hrun, -, hfound, -⟩ := h 6 (by decide)
  have hmiss : (exprEqRun 6 0 3 quotedMemory).map Prod.fst = some false := by decide +kernel
  rw [hrun, Option.map_some, hfound (.comm .and _ _) ?_ ?_] at hmiss
  · cases hmiss
  · exact ⟨by decide, trivial, trivial⟩
  · exact ⟨by decide, trivial, trivial⟩

theorem quotedMemory_compares_iff :
    Compares quotedMemory 0 1 (quotedAnd ⟨['a'], by decide⟩ ⟨['b'], by decide⟩)
        (.symbol (.const ⟨['a'], by decide⟩)) ↔
      (Rearranged (quotedAnd ⟨['a'], by decide⟩ ⟨['b'], by decide⟩)
          (.symbol (.const ⟨['a'], by decide⟩)) →
        (quotedAnd ⟨['a'], by decide⟩ ⟨['b'], by decide⟩).NoYmn →
        (quotedAnd ⟨['a'], by decide⟩ ⟨['b'], by decide⟩).NoRepeat →
        (quotedAnd ⟨['a'], by decide⟩ ⟨['b'], by decide⟩).FewConstants) :=
  compares_iff (fun _ hq => List.getElem?_eq_none hq) ⟨1, 2, rfl, rfl, rfl⟩ rfl

end Grasshopper.Kconfig
