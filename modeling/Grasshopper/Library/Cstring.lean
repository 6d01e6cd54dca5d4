import Mathlib.Data.List.TakeWhile
import Mathlib.Data.List.Basic

/-! # Texts in a buffer

A buffer holds a text that ends before the first NUL; what follows is left over.
-/

namespace Cstring

variable {α : Type} [DecidableEq α] {nul : α}

/-- The text that a buffer holds. -/
def text (nul : α) (buf : List α) : List α := buf.takeWhile (· ≠ nul)

theorem not_mem_text (buf : List α) : nul ∉ text nul buf := by
  intro h
  simpa using List.mem_takeWhile_imp h

theorem text_initial (buf : List α) : text nul buf <+: buf := List.takeWhile_prefix _

/-- A text without NUL that a NUL follows is what the buffer holds. -/
theorem text_append {s : List α} (h : nul ∉ s) (rest : List α) :
    text nul (s ++ nul :: rest) = s := by
  have hne : ∀ c ∈ s, decide (c ≠ nul) = true := by
    intro c hc
    rw [decide_eq_true_eq]
    rintro rfl
    exact h hc
  rw [text, List.takeWhile_append_of_pos hne, List.takeWhile_cons_of_neg (by simp),
    List.append_nil]

theorem take_of_le_text {buf : List α} {i : ℕ} (h : i ≤ (text nul buf).length) :
    buf.take i = (text nul buf).take i := by
  obtain ⟨rest, hrest⟩ : text nul buf <+: buf := text_initial buf
  conv_lhs => rw [← hrest]
  exact List.take_append_of_le_length h

/-- A NUL within the text cuts it. -/
theorem text_set_nul {buf : List α} {i : ℕ} (h : i ≤ (text nul buf).length)
    (hi : i < buf.length) : text nul (buf.set i nul) = (text nul buf).take i := by
  rw [List.set_eq_take_append_cons_drop, if_pos hi, take_of_le_text h]
  apply text_append
  intro hmem
  exact not_mem_text buf (List.mem_of_mem_take hmem)

/-- A character at the end of the text and a NUL after it. -/
theorem text_set_concat {buf : List α} {c : α} (hc : c ≠ nul)
    (h : (text nul buf).length + 1 < buf.length) :
    text nul ((buf.set (text nul buf).length c).set ((text nul buf).length + 1) nul) =
      text nul buf ++ [c] := by
  have hlen : (text nul buf).length + 1 < (buf.set (text nul buf).length c).length := by
    rwa [List.length_set]
  have htake : (buf.set (text nul buf).length c).take ((text nul buf).length + 1) =
      text nul buf ++ [c] := by
    rw [List.take_set, List.take_add_one, take_of_le_text le_rfl, List.take_length,
      List.set_append_right _ _ le_rfl, Nat.sub_self,
      List.getElem?_eq_getElem (by omega : (text nul buf).length < buf.length)]
    rfl
  rw [List.set_eq_take_append_cons_drop, if_pos hlen, htake]
  apply text_append
  rw [List.mem_append, List.mem_singleton, not_or]
  exact ⟨not_mem_text buf, hc.symm⟩

/-- `strcpy` -/
def strcpy (nul : α) (buf s : List α) : List α := s ++ nul :: buf.drop (s.length + 1)

theorem text_strcpy {s : List α} (h : nul ∉ s) (buf : List α) :
    text nul (strcpy nul buf s) = s :=
  text_append h _

omit [DecidableEq α] in
theorem length_strcpy {buf s : List α} (h : s.length < buf.length) :
    (strcpy nul buf s).length = buf.length := by
  rw [strcpy, List.length_append, List.length_cons, List.length_drop]
  omega

end Cstring
