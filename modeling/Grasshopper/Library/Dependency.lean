import Mathlib.Logic.Relation
import Mathlib.Order.WellFounded
import Mathlib.Data.Fintype.Pigeonhole
import Mathlib.Data.Set.Finite.Basic

/-! # Acyclic dependencies and systems of equations

`uses a` lists what the value at `a` is computed from. Without cycles, a system of equations
that respects the dependencies has exactly one solution.
-/

namespace Dependency

variable {α β : Type} {uses : α → List α}

/-- Nothing uses itself, directly or through others. -/
def Acyclic (uses : α → List α) : Prop :=
  ∀ a, ¬Relation.TransGen (fun x y => y ∈ uses x) a a

/-- What `a` uses, directly or through others. -/
def Below (uses : α → List α) (a b : α) : Prop := Relation.TransGen (fun x y => y ∈ uses x) a b

theorem Below.trans {a b c : α} (h : Below uses a b) (h' : Below uses b c) : Below uses a c :=
  Relation.TransGen.trans h h'

theorem Below.of_mem {a b : α} (h : b ∈ uses a) : Below uses a b := Relation.TransGen.single h

theorem acyclic_of_rank (rank : α → ℕ) (h : ∀ a, ∀ b ∈ uses a, rank b < rank a) :
    Acyclic uses := by
  have main {a b : α} (hab : Below uses a b) : rank b < rank a := by
    induction hab with
    | single hb => exact h _ _ hb
    | tail _ hc ih => exact (h _ _ hc).trans ih
  exact fun a ha => lt_irrefl _ (main ha)

/-- Finitely many things that use others, none of which uses itself, are well-founded. -/
theorem Acyclic.wellFounded (h : Acyclic uses) (table : List α)
    (htable : ∀ a, uses a ≠ [] → a ∈ table) : WellFounded fun b a => b ∈ uses a := by
  rw [wellFounded_iff_isEmpty_descending_chain]
  refine ⟨fun ⟨f, hf⟩ => ?_⟩
  have hmem (n : ℕ) : f n ∈ table := htable _ fun hnil => by simpa [hnil] using hf n
  have hbelow {i j : ℕ} (hij : i < j) : Below uses (f i) (f j) := by
    induction hij with
    | refl => exact .of_mem (hf i)
    | step _ ih => exact ih.trans (.of_mem (hf _))
  have : Finite {a // a ∈ table} := table.finite_toSet
  obtain ⟨i, j, hij, heq⟩ := Finite.exists_ne_map_eq_of_infinite
    (fun n => (⟨f n, hmem n⟩ : {a // a ∈ table}))
  have heq : f i = f j := congrArg Subtype.val heq
  rcases lt_or_gt_of_ne hij with hlt | hlt
  · have hcycle := hbelow hlt
    rw [← heq] at hcycle
    exact h (f i) hcycle
  · have hcycle := hbelow hlt
    rw [heq] at hcycle
    exact h (f j) hcycle

/-- `F ρ a` looks only at what `ρ` says of the things `a` uses. -/
def Respects (uses : α → List α) (F : (α → β) → α → β) : Prop :=
  ∀ ρ ρ' a, (∀ b ∈ uses a, ρ b = ρ' b) → F ρ a = F ρ' a

/-- A valuation that satisfies all equations. -/
def Solution (F : (α → β) → α → β) (ρ : α → β) : Prop := ∀ a, ρ a = F ρ a

variable {F : (α → β) → α → β}

theorem exists_solution (hwf : WellFounded fun b a => b ∈ uses a) (hF : Respects uses F)
    [Nonempty β] : ∃ ρ, Solution F ρ := by
  classical
  let step (a : α) (rec : ∀ b, b ∈ uses a → β) : β :=
    F (fun b => if hb : b ∈ uses a then rec b hb else Classical.arbitrary β) a
  refine ⟨hwf.fix step, fun a => ?_⟩
  rw [hwf.fix_eq]
  exact hF _ _ a fun b hb => by simp [hb]

/-- Two valuations whose values at `a` agree as soon as those that `a` uses do. -/
theorem eq_of_agree (hwf : WellFounded fun b a => b ∈ uses a) {ρ ρ' : α → β}
    (h : ∀ a, (∀ b ∈ uses a, ρ b = ρ' b) → ρ a = ρ' a) : ρ = ρ' :=
  funext fun a => hwf.induction a h

theorem Solution.unique (hwf : WellFounded fun b a => b ∈ uses a) (hF : Respects uses F)
    {ρ ρ' : α → β} (h : Solution F ρ) (h' : Solution F ρ') : ρ = ρ' :=
  eq_of_agree hwf fun a hab => by rw [h a, h' a, hF ρ ρ' a hab]

/-- Two systems with other equations for some things: a solution of one is one of the other where
nothing of these is used. -/
theorem Solution.eq_of_apart (hwf : WellFounded fun b a => b ∈ uses a) {F' : (α → β) → α → β}
    (hF : Respects uses F) {ρ ρ' : α → β} (h : Solution F ρ) (h' : Solution F' ρ') {A : Set α}
    (hA : ∀ a ∉ A, F ρ' a = F' ρ' a) {a : α} (ha : a ∉ A) (hbelow : ∀ b ∈ A, ¬Below uses a b) :
    ρ a = ρ' a := by
  induction a using hwf.induction with
  | _ a ih =>
    have hused : ∀ b ∈ uses a, ρ b = ρ' b := by
      intro b hb
      apply ih b hb
      · exact fun hbA => hbelow b hbA (.of_mem hb)
      · exact fun c hc hbc => hbelow c hc ((Below.of_mem hb).trans hbc)
    rw [h a, hF ρ ρ' a hused, hA a ha, h' a]

end Dependency
