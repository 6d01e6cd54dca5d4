import Mathlib.Data.List.TakeWhile

/-! # Scanners made of patterns

A rule matches where its pattern does and its trailing context follows. Of all rules that match,
the one with the longest match is taken, context included, and the first of these. A repetition
takes all characters it can; in a pattern, what follows a repetition is not in its class.
-/

namespace Flex

/-- A part of a pattern: a character of a class, or any number of them. -/
inductive Item where
  | one (p : Char → Bool)
  | many (p : Char → Bool)

/-- The number of characters that a pattern takes from the front of a text. -/
def matchLength : List Item → List Char → Option ℕ
  | [], _ => some 0
  | .one _ :: _, [] => none
  | .one p :: items, c :: str => if p c then (matchLength items str).map (· + 1) else none
  | .many p :: items, str =>
    (matchLength items (str.dropWhile p)).map (· + (str.takeWhile p).length)

structure Rule (α : Type) where
  pattern : List Item
  context : List Item
  action : α

/-- The length of a match with its context, and the length of the text it takes (`yyleng`). -/
def Rule.matches {α : Type} (r : Rule α) (str : List Char) : Option (ℕ × ℕ) :=
  (matchLength r.pattern str).bind fun len =>
    (matchLength r.context (str.drop len)).map fun more => (len + more, len)

/-- The rule that is taken, with the length of its match and of the text it takes. -/
def select {α : Type} : List (Rule α) → List Char → Option (α × ℕ × ℕ)
  | [], _ => none
  | r :: rules, str =>
    match r.matches str, select rules str with
    | none, best => best
    | some m, none => some (r.action, m)
    | some m, some best => if best.2.1 ≤ m.1 then some (r.action, m) else some best

section Match
variable {p : Char → Bool} {items : List Item} {str rest : List Char} {c : Char}

@[simp] theorem matchLength_nil : matchLength [] str = some 0 := rfl

@[simp] theorem matchLength_one_nil : matchLength (.one p :: items) [] = none := rfl

theorem matchLength_one (h : p c = true) :
    matchLength (.one p :: items) (c :: str) = (matchLength items str).map (· + 1) := if_pos h

theorem matchLength_one_none (h : p c = false) : matchLength (.one p :: items) (c :: str) = none :=
  if_neg (by simp [h])

/-- A repetition takes the characters of its class up to the first that is not in it. -/
theorem matchLength_many (hstr : ∀ c ∈ str, p c = true) (hrest : ∀ c ∈ rest.head?, p c = false) :
    matchLength (.many p :: items) (str ++ rest) =
      (matchLength items rest).map (· + str.length) := by
  have hdrop : rest.dropWhile p = rest := by
    cases rest with
    | nil => rfl
    | cons c rest => exact List.dropWhile_cons_of_neg (by simp [hrest c rfl])
  have htake : rest.takeWhile p = [] := by
    cases rest with
    | nil => rfl
    | cons c rest => exact List.takeWhile_cons_of_neg (by simp [hrest c rfl])
  rw [matchLength, List.dropWhile_append_of_pos hstr, List.takeWhile_append_of_pos hstr, hdrop,
    htake, List.append_nil]

end Match

section Select
variable {α : Type} {r : Rule α} {rules : List (Rule α)} {str : List Char}

theorem Rule.matches_of_context_nil (h : r.context = []) :
    r.matches str = (matchLength r.pattern str).map fun len => (len, len) := by
  rw [Rule.matches, h, Option.map_eq_bind]
  rfl

/-- What is taken comes from a rule that matches. -/
theorem exists_of_select {best : α × ℕ × ℕ} (h : best ∈ select rules str) :
    ∃ r ∈ rules, best.2 ∈ r.matches str := by
  induction rules generalizing best with
  | nil => cases h
  | cons r rules ih =>
    rw [select] at h
    cases hr : r.matches str with
    | none =>
      rw [hr] at h
      obtain ⟨q, hq, hm⟩ := ih h
      exact ⟨q, List.mem_cons_of_mem r hq, hm⟩
    | some m =>
      cases hs : select rules str with
      | none =>
        rw [hr, hs] at h
        cases h
        exact ⟨r, List.mem_cons_self, hr⟩
      | some other =>
        rw [hr, hs] at h
        dsimp only at h
        split_ifs at h with hle
        · cases h
          exact ⟨r, List.mem_cons_self, hr⟩
        · cases h
          obtain ⟨q, hq, hm⟩ := ih hs
          exact ⟨q, List.mem_cons_of_mem r hq, hm⟩

/-- A rule is taken if those before it match less, and those after it no more. -/
theorem select_append_cons {pre : List (Rule α)} {m : ℕ × ℕ} (h : r.matches str = some m)
    (hpre : ∀ q ∈ pre, ∀ k ∈ q.matches str, k.1 < m.1)
    (hrules : ∀ q ∈ rules, ∀ k ∈ q.matches str, k.1 ≤ m.1) :
    select (pre ++ r :: rules) str = some (r.action, m) := by
  induction pre with
  | nil =>
    rw [List.nil_append, select, h]
    cases hs : select rules str with
    | none => rfl
    | some best =>
      obtain ⟨q, hq, hm⟩ := exists_of_select hs
      exact if_pos (hrules q hq best.2 hm)
  | cons q pre ih =>
    have htail := ih fun q' hq' => hpre q' (List.mem_cons_of_mem q hq')
    rw [List.cons_append, select, htail]
    cases hq : q.matches str with
    | none => rfl
    | some k => exact if_neg (Nat.not_le.mpr (hpre q List.mem_cons_self k hq))

end Select

end Flex
