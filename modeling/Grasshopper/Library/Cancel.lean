import Mathlib.Data.List.Perm.Basic
import Mathlib.Tactic.Common

/-! # Striking out pairs of two lists

Elements of one class are struck out in pairs, one from each list, as long as the class allows it.
How the pairs are found does not matter: the lists are permutations of each other, class by class,
exactly if what is left of them is.
-/

namespace Cancel

universe u v
variable {α : Type u} {K : Type v} {κ : α → K} {ok : K → Prop}

/-- What is left of two lists when no pair of a class that is `ok` is left. -/
structure Struck (κ : α → K) (ok : K → Prop) (U V U' V' : List α) : Prop where
  perm : ∃ M : List K,
    (U.map κ).Perm (M ++ U'.map κ) ∧ (V.map κ).Perm (M ++ V'.map κ) ∧ ∀ k ∈ M, ok k
  left : U' ⊆ U
  right : V' ⊆ V
  done : ∀ a ∈ U', ∀ b ∈ V', κ a = κ b → ¬ok (κ a)

namespace Struck
variable {U V U' V' : List α}

/-- Nothing is struck out. -/
theorem keep (h : ∀ a ∈ U, ∀ b ∈ V, κ a = κ b → ¬ok (κ a)) : Struck κ ok U V U V where
  perm := ⟨[], .refl _, .refl _, by simp⟩
  left := List.Subset.refl U
  right := List.Subset.refl V
  done := h

/-- A pair is struck out. -/
theorem pair {a b : α} (h : κ a = κ b) (hok : ok (κ a)) : Struck κ ok [a] [b] [] [] where
  perm := ⟨[κ a], by simp, by simp [h], by simpa⟩
  left := List.nil_subset _
  right := List.nil_subset _
  done := by simp

theorem swap (h : Struck κ ok U V U' V') : Struck κ ok V U V' U' where
  perm :=
    let ⟨M, hU, hV, hM⟩ := h.perm
    ⟨M, hV, hU, hM⟩
  left := h.right
  right := h.left
  done b hb a ha hκ := hκ ▸ h.done a ha b hb hκ.symm

/-- What one list leaves of `U` is struck against the next. -/
theorem append {W U₁ U₂ W' : List α} (h : Struck κ ok U V U₁ V') (h' : Struck κ ok U₁ W U₂ W') :
    Struck κ ok U (V ++ W) U₂ (V' ++ W') where
  perm := by
    obtain ⟨M, hU, hV, hM⟩ := h.perm
    obtain ⟨M', hU', hW, hM'⟩ := h'.perm
    refine ⟨M ++ M', ?_, ?_, ?_⟩
    · rw [List.append_assoc]
      exact hU.trans (hU'.append_left M)
    · rw [List.map_append, List.map_append]
      refine (hV.append hW).trans ?_
      simp only [List.append_assoc]
      exact (List.perm_append_comm_assoc ..).append_left M
    · simpa [or_imp, forall_and] using And.intro hM hM'
  left := List.Subset.trans h'.left h.left
  right := List.append_subset.2
    ⟨List.subset_append_of_subset_left _ h.right, List.subset_append_of_subset_right _ h'.right⟩
  done a ha b hb := by
    obtain hb | hb := List.mem_append.1 hb
    · exact h.done a (h'.left ha) b hb
    · exact h'.done a ha b hb

/-- The classes agree exactly if those of what is left agree. -/
theorem perm_iff (h : Struck κ ok U V U' V') :
    (U.map κ).Perm (V.map κ) ↔ (U'.map κ).Perm (V'.map κ) := by
  obtain ⟨M, hU, hV, -⟩ := h.perm
  have hleft : (M ++ U'.map κ).Perm (M ++ V'.map κ) ↔ (U'.map κ).Perm (V'.map κ) :=
    List.perm_append_left_iff M
  rw [← hleft]
  exact ⟨fun h => hU.symm.trans (h.trans hV), fun h => hU.trans (h.trans hV.symm)⟩

/-- If the classes agree then only those that are not `ok` are left. -/
theorem not_ok (h : Struck κ ok U V U' V') (hperm : (U'.map κ).Perm (V'.map κ)) :
    ∀ a ∈ U', ¬ok (κ a) := by
  intro a ha
  obtain ⟨b, hb, hκ⟩ := List.mem_map.1 (hperm.mem_iff.1 (List.mem_map_of_mem ha))
  exact h.done a ha b hb hκ.symm

/-- What is struck out is `ok`. -/
theorem ok_or (h : Struck κ ok U V U' V') {a : α} (ha : a ∈ U) :
    ok (κ a) ∨ ∃ a' ∈ U', κ a' = κ a := by
  obtain ⟨M, hU, -, hM⟩ := h.perm
  obtain hmem | hmem := List.mem_append.1 (hU.mem_iff.1 (List.mem_map_of_mem ha))
  · exact .inl (hM _ hmem)
  · exact .inr (List.mem_map.1 hmem)

/-- Classes that are not `ok` are counted in what is left. -/
theorem countP_eq (h : Struck κ ok U V U' V') {p : α → Bool} {q : K → Bool}
    (hp : ∀ a, p a = q (κ a)) (hq : ∀ k, ok k → q k = false) : U.countP p = U'.countP p := by
  obtain ⟨M, hU, -, hM⟩ := h.perm
  have hcount (L : List α) : L.countP p = (L.map κ).countP q := by
    rw [List.countP_map]
    exact List.countP_congr fun a _ => by rw [hp a, Function.comp_apply]
  have hzero : M.countP q = 0 := List.countP_eq_zero.2 fun k hk => by simp [hq k (hM k hk)]
  rw [hcount, hcount, hU.countP_eq, List.countP_append, hzero, Nat.zero_add]

end Struck

end Cancel
