import Mathlib.Data.List.Basic
import Mathlib.Data.Nat.Digits.Defs

/-! # Fields of a text

The conversions of `sscanf` for words, characters and unsigned numbers, `strtoul`, and the decimal
numerals that `sprintf` writes.
-/

namespace Scanf

def isSpace (c : Char) : Bool := c == ' ' || decide ('\t' ≤ c ∧ c ≤ '\r')

/-- A digit of a base that is at most ten. -/
def isDigit (base : ℕ) (c : Char) : Bool := decide (48 ≤ c.toNat ∧ c.toNat < 48 + base)

def digitsValue (base : ℕ) (str : List Char) : ℕ :=
  str.foldl (fun n c => n * base + (c.toNat - 48)) 0

/-- `strtoul`, for bases up to ten and a `long` of 64 bits: the number and the text after it, or
nothing where the text does not start with one. A number too large becomes the largest one. -/
def strtoul (base : ℕ) (str : List Char) : Option (ℕ × List Char) :=
  let str := str.dropWhile isSpace
  let (neg, str) := match str with
    | '-' :: str => (true, str)
    | '+' :: str => (false, str)
    | str => (false, str)
  let digits := str.takeWhile (isDigit base)
  let n := digitsValue base digits
  if digits.isEmpty then none
  else if 2 ^ 64 ≤ n then some (2 ^ 64 - 1, str.drop digits.length)
  else some (if neg then (2 ^ 64 - n) % 2 ^ 64 else n, str.drop digits.length)

inductive Directive where
  /-- `%` and a width and `s` -/
  | word (width : ℕ)
  /-- White space in the format. -/
  | space
  /-- `%c` -/
  | character
  /-- `%o` and `%u` into an `unsigned int`. -/
  | number (base : ℕ)

/-- What one conversion stores. -/
inductive Field where
  | word (str : List Char)
  | character (c : Char)
  | number (n : UInt32)
deriving DecidableEq

namespace Field

def text : Field → List Char
  | word str => str
  | _ => []

def char : Field → Char
  | character c => c
  | _ => '\x00'

def value : Field → UInt32
  | number n => n
  | _ => 0

end Field

/-- The fields that `sscanf` stores: it stops at the first conversion that fails. -/
def sscanf : List Directive → List Char → List Field
  | [], _ => []
  | .space :: format, str => sscanf format (str.dropWhile isSpace)
  | .word width :: format, str =>
    let str := str.dropWhile isSpace
    let field := (str.takeWhile fun c => !isSpace c).take width
    if field.isEmpty then [] else .word field :: sscanf format (str.drop field.length)
  | .character :: format, str =>
    match str with
    | [] => []
    | c :: rest => .character c :: sscanf format rest
  | .number base :: format, str =>
    match strtoul base str with
    | none => []
    | some (n, rest) => .number (UInt32.ofNat n) :: sscanf format rest

/-- The characters of a word come from the text. -/
theorem mem_of_mem_word {width : ℕ} {format : List Directive} {str : List Char} {field : Field}
    (h : (sscanf (.word width :: format) str)[0]? = some field) {c : Char} (hc : c ∈ field.text) :
    c ∈ str := by
  rw [sscanf] at h
  split_ifs at h
  · cases h
  · cases h
    apply (List.dropWhile_sublist isSpace).subset
    apply (List.takeWhile_sublist _).subset
    exact List.mem_of_mem_take hc

/-! ## Numerals -/

/-- What `%d` writes for a number that is not negative. -/
def decimal (n : ℕ) : List Char := Nat.toDigits 10 n

theorem decimal_injective : Function.Injective decimal := by
  intro m n h
  calc
    m = Nat.ofDigitChars 10 (decimal m) 0 := Nat.ofDigitChars_ten_toDigits.symm
    _ = Nat.ofDigitChars 10 (decimal n) 0 := by rw [h]
    _ = n := Nat.ofDigitChars_ten_toDigits

theorem not_mem_decimal {c : Char} (hc : c.isDigit = false) (n : ℕ) : c ∉ decimal n := by
  intro h
  have hdigit : c.isDigit := Nat.isDigit_of_mem_toDigits (by decide : 0 < 10) le_rfl h
  exact absurd hdigit (by simp [hc])

theorem decimal_ne_nil (n : ℕ) : decimal n ≠ [] := Nat.toDigits_ne_nil

/-! ## Names between separators -/

/-- Text without a separator only extends the last part. -/
theorem splitOnP_append (sep : Char → Bool) (str : List Char) :
    ∃ before last, ∀ tail, (∀ c ∈ tail, sep c = false) →
      (str ++ tail).splitOnP sep = before ++ [last ++ tail] := by
  induction str with
  | nil => exact ⟨[], [], fun tail htail => List.splitOnP_eq_singleton htail⟩
  | cons c str ih =>
    obtain ⟨before, last, ih⟩ := ih
    cases hc : sep c with
    | true =>
      refine ⟨[] :: before, last, fun tail htail => ?_⟩
      rw [List.cons_append, List.splitOnP_cons_eq_if_modifyHead, if_pos hc, ih tail htail,
        List.cons_append]
    | false =>
      cases before with
      | nil =>
        refine ⟨[], c :: last, fun tail htail => ?_⟩
        rw [List.cons_append, List.splitOnP_cons_eq_if_modifyHead, if_neg (by simp [hc]),
          ih tail htail]
        rfl
      | cons first before =>
        refine ⟨(c :: first) :: before, last, fun tail htail => ?_⟩
        rw [List.cons_append, List.splitOnP_cons_eq_if_modifyHead, if_neg (by simp [hc]),
          ih tail htail]
        rfl

end Scanf
