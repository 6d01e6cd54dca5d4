import Mathlib.Data.List.Basic

/-! # Nested brackets

Words of opening and closing brackets of several kinds, which of them are nested, and the stack
that reads them. A closing bracket outside every bracket is a stray one.
-/

namespace Nesting

universe u
variable {κ : Type u}

/-- An opening or a closing bracket of a kind. -/
inductive Bracket (κ : Type u)
  | opening (k : κ)
  | closing (k : κ)
  deriving DecidableEq, Repr

open Nesting.Bracket (opening closing)

/-- Every bracket is closed by one of its own kind, and brackets do not overlap. -/
inductive Nested : List (Bracket κ) → Prop
  | nil : Nested []
  | block {k : κ} {body rest : List (Bracket κ)} :
      Nested body → Nested rest → Nested (opening k :: (body ++ closing k :: rest))

theorem Nested.append {u v : List (Bracket κ)} (hu : Nested u) (hv : Nested v) :
    Nested (u ++ v) := by
  induction hu with
  | nil => exact hv
  | block hb _ _ ih => simpa using Nested.block hb ih

/-- How many brackets a word leaves open, from a number of open ones. -/
def depth : ℕ → List (Bracket κ) → ℕ
  | d, [] => d
  | d, opening _ :: w => depth (d + 1) w
  | d, closing _ :: w => depth (d - 1) w

/-- Some closing bracket stands outside every bracket. -/
def Stray (w : List (Bracket κ)) : Prop := ∃ u k v, w = u ++ closing k :: v ∧ depth 0 u = 0

/-- The word without its stray brackets, inside a number of open ones. -/
def dropStray : ℕ → List (Bracket κ) → List (Bracket κ)
  | _, [] => []
  | d, opening k :: w => opening k :: dropStray (d + 1) w
  | 0, closing _ :: w => dropStray 0 w
  | d + 1, closing k :: w => closing k :: dropStray d w

theorem length_dropStray_le (d : ℕ) (w : List (Bracket κ)) :
    (dropStray d w).length ≤ w.length := by
  induction w generalizing d with
  | nil => simp [dropStray]
  | cons b w ih =>
    cases b with
    | opening k => simpa [dropStray] using ih (d + 1)
    | closing k =>
      cases d with
      | zero => exact Nat.le_succ_of_le (ih 0)
      | succ d => simpa [dropStray] using ih d

theorem dropStray_ne_self_iff (d : ℕ) (w : List (Bracket κ)) :
    dropStray d w ≠ w ↔ ∃ u k v, w = u ++ closing k :: v ∧ depth d u = 0 := by
  induction w generalizing d with
  | nil => simp [dropStray]
  | cons b w ih =>
    cases b with
    | opening k =>
      have hcons : (∃ u j v, opening k :: w = u ++ closing j :: v ∧ depth d u = 0) ↔
          ∃ u j v, w = u ++ closing j :: v ∧ depth (d + 1) u = 0 := by
        constructor
        · rintro ⟨u, j, v, hw, hu⟩
          cases u with
          | nil => simp at hw
          | cons b u =>
            obtain ⟨rfl, rfl⟩ := List.cons_eq_cons.mp hw
            exact ⟨u, j, v, rfl, hu⟩
        · rintro ⟨u, j, v, rfl, hu⟩
          exact ⟨opening k :: u, j, v, rfl, hu⟩
      rw [hcons, ← ih (d + 1)]
      simp [dropStray]
    | closing k =>
      cases d with
      | zero =>
        have hlt := length_dropStray_le 0 w
        refine iff_of_true (fun h => ?_) ⟨[], k, w, rfl, rfl⟩
        have hlen := congrArg List.length h
        simp only [dropStray, List.length_cons] at hlen
        omega
      | succ d =>
        have hcons : (∃ u j v, closing k :: w = u ++ closing j :: v ∧ depth (d + 1) u = 0) ↔
            ∃ u j v, w = u ++ closing j :: v ∧ depth d u = 0 := by
          constructor
          · rintro ⟨u, j, v, hw, hu⟩
            cases u with
            | nil => simp [depth] at hu
            | cons b u =>
              obtain ⟨rfl, rfl⟩ := List.cons_eq_cons.mp hw
              exact ⟨u, j, v, rfl, hu⟩
          · rintro ⟨u, j, v, rfl, hu⟩
            exact ⟨closing k :: u, j, v, rfl, hu⟩
        rw [hcons, ← ih d]
        simp [dropStray]

/-- Without stray brackets there is nothing to drop. -/
theorem dropStray_eq_self {w : List (Bracket κ)} (h : ¬ Stray w) : dropStray 0 w = w := by
  by_contra hne
  exact h ((dropStray_ne_self_iff 0 w).mp hne)

theorem Nested.dropStray_append {u : List (Bracket κ)} (hu : Nested u) (d : ℕ)
    (v : List (Bracket κ)) : dropStray d (u ++ v) = u ++ dropStray d v := by
  induction hu generalizing d v with
  | nil => rfl
  | block _ _ ihb ihr =>
    simp only [List.cons_append, List.append_assoc, dropStray]
    rw [ihb, dropStray, ihr]

/-- Nested brackets have no stray one among them. -/
theorem Nested.not_stray {w : List (Bracket κ)} (h : Nested w) : ¬ Stray w := by
  intro hs
  apply (dropStray_ne_self_iff 0 w).mpr hs
  simpa [dropStray] using h.dropStray_append 0 []

/-! ## Reading with a stack -/

variable [DecidableEq κ]

/-- The brackets a word leaves open, innermost first, from the open ones: none if one of its closing
brackets is of a wrong kind or stands outside. -/
def unclosed : List κ → List (Bracket κ) → Option (List κ)
  | s, [] => some s
  | s, opening k :: w => unclosed (k :: s) w
  | [], closing _ :: _ => none
  | j :: s, closing k :: w => if k = j then unclosed s w else none

theorem Nested.unclosed_append {u : List (Bracket κ)} (hu : Nested u) (s : List κ)
    (v : List (Bracket κ)) : unclosed s (u ++ v) = unclosed s v := by
  induction hu generalizing s v with
  | nil => rfl
  | block _ _ ihb ihr =>
    simp only [List.cons_append, List.append_assoc, unclosed]
    rw [ihb, unclosed, if_pos rfl, ihr]

/-- A word that closes the open brackets one after the other, with nested words in between. -/
def Closes : List κ → List (Bracket κ) → Prop
  | [], w => Nested w
  | k :: s, w => ∃ u v, Nested u ∧ w = u ++ closing k :: v ∧ Closes s v

theorem closes_of_unclosed {s : List κ} {w : List (Bracket κ)} (h : unclosed s w = some []) :
    Closes s w := by
  induction w generalizing s with
  | nil =>
    obtain rfl : s = [] := by simpa [unclosed] using h
    exact .nil
  | cons b w ih =>
    cases b with
    | opening k =>
      obtain ⟨u, v, hu, rfl, hv⟩ := ih (s := k :: s) h
      cases s with
      | nil => exact .block hu hv
      | cons j s =>
        obtain ⟨u', v', hu', rfl, hv'⟩ := hv
        exact ⟨opening k :: (u ++ closing k :: u'), v', .block hu hu', by simp, hv'⟩
    | closing k =>
      cases s with
      | nil => simp [unclosed] at h
      | cons j s =>
        simp only [unclosed] at h
        split_ifs at h with hkj
        subst hkj
        exact ⟨[], w, .nil, rfl, ih h⟩

/-- The stack reads exactly the nested words. -/
theorem unclosed_eq_nil_iff {w : List (Bracket κ)} : unclosed [] w = some [] ↔ Nested w := by
  constructor
  · exact closes_of_unclosed
  · intro h
    simpa [unclosed] using h.unclosed_append [] []

instance (w : List (Bracket κ)) : Decidable (Nested w) := decidable_of_iff _ unclosed_eq_nil_iff

end Nesting
