import Grasshopper.Kconfig.Symbol.Set
import Mathlib.Data.List.TakeWhile
import Mathlib.Data.Nat.Digits.Defs

/-! # Ranges of numbers

`sym_string_within_range` reads a literal into an `int` and compares it with bounds that are `long`.
It follows the numbers as long as they fit an `int`.
-/

namespace Grasshopper.Kconfig

/-! ## The number a literal denotes -/

/-- The number of a sequence of digits, the highest one first. -/
def numberOf (base : ℕ) (digits : Text) : ℕ := Nat.ofDigits base (digits.map digitValue).reverse

/-- The integer that a valid literal denotes. -/
def literalValue (type : SymType) (str : Text) : ℤ :=
  if type = .hex then numberOf 16 (skipHexPrefix str)
  else
    match str with
    | '-' :: digits => -numberOf 10 digits
    | digits => numberOf 10 digits

theorem foldl_digits (base : ℕ) (digits : Text) :
    digits.foldl (fun n c => n * base + digitValue c) 0 = numberOf base digits := by
  rw [numberOf, Nat.ofDigits_eq_foldr, List.foldr_reverse, List.foldl_map]
  congr 1
  funext n c
  simp [Nat.mul_comm, Nat.add_comm]

theorem digitsValue_eq {base : ℕ} {digits : Text}
    (h : ∀ c ∈ digits, isXDigit c = true ∧ digitValue c < base) :
    digitsValue base digits = numberOf base digits := by
  have hall : digits.takeWhile (fun c => isXDigit c && digitValue c < base) = digits := by
    rw [List.takeWhile_eq_self_iff]
    intro c hc
    simpa using h c hc
  rw [digitsValue, hall, foldl_digits]

/-! ## Characters of numbers -/

section Characters
variable {c : Char}

theorem isDigit_iff : isDigit c = true ↔ 48 ≤ c.toNat ∧ c.toNat ≤ 57 := by
  simp only [isDigit, decide_eq_true_eq, Char.le_def, UInt32.le_iff_toNat_le]
  rfl

theorem isXDigit_iff : isXDigit c = true ↔ 48 ≤ c.toNat ∧ c.toNat ≤ 57 ∨
    97 ≤ c.toNat ∧ c.toNat ≤ 102 ∨ 65 ≤ c.toNat ∧ c.toNat ≤ 70 := by
  simp only [isXDigit, Bool.or_eq_true, isDigit_iff, decide_eq_true_eq, Char.le_def,
    UInt32.le_iff_toNat_le, or_assoc]
  rfl

theorem isXDigit_of_isDigit (h : isDigit c = true) : isXDigit c = true := by
  simp [isXDigit, h]

theorem digitValue_lt_ten (h : isDigit c = true) : digitValue c < 10 := by
  have hc := isDigit_iff.mp h
  rw [digitValue, if_pos h]
  change c.toNat - 48 < 10
  omega

theorem digitValue_lt_sixteen (h : isXDigit c = true) : digitValue c < 16 := by
  have hc := isXDigit_iff.mp h
  by_cases hd : isDigit c = true
  · exact (digitValue_lt_ten hd).trans (by decide)
  · rw [digitValue, if_neg hd]
    simp only [Char.le_def, UInt32.le_iff_toNat_le]
    change (if 97 ≤ c.toNat ∧ c.toNat ≤ 102 then c.toNat - 97 + 10 else c.toNat - 65 + 10) < 16
    rw [isDigit_iff] at hd
    split_ifs <;> omega

theorem isSpace_of_isXDigit (h : isXDigit c = true) : isSpace c = false := by
  rw [isXDigit_iff] at h
  simp only [isSpace, Bool.or_eq_false_iff, beq_eq_false_iff_ne, decide_eq_false_iff_not,
    Char.le_def, UInt32.le_iff_toNat_le]
  constructor
  · rintro rfl
    revert h
    decide
  · change ¬(9 ≤ c.toNat ∧ c.toNat ≤ 13)
    omega

theorem not_sign_of_isXDigit (h : isXDigit c = true) : c ≠ '-' ∧ c ≠ '+' := by
  constructor <;> (rintro rfl; revert h; decide)

end Characters

/-! ## `strtol` on valid literals -/

/-- A number cut off at the bounds of a `long`. -/
def clip (n : ℤ) : ℤ := max (-2 ^ 63) (min (2 ^ 63 - 1) n)

theorem strtol_minus (digits : Text) :
    strtol 10 ('-' :: digits) = clip (-(digitsValue 10 digits : ℤ)) := by
  simp [strtol, clip, isSpace]

theorem strtol_decimal {c : Char} {str : Text} (hc : isXDigit c = true) :
    strtol 10 (c :: str) = clip (digitsValue 10 (c :: str)) := by
  obtain ⟨hminus, hplus⟩ := not_sign_of_isXDigit hc
  simp [strtol, clip, isSpace_of_isXDigit hc, hminus, hplus]

theorem intValid_cases {str : Text} (h : intValid str = true) :
    (∃ digits, str = '-' :: digits ∧ ∀ c ∈ digits, isDigit c = true) ∨
      ∃ c digits, str = c :: digits ∧ ∀ c' ∈ c :: digits, isDigit c' = true := by
  have hall : ∀ c digits, (isDigit c && !(c == '0' && !digits.isEmpty) && digits.all isDigit) = true →
      ∀ c' ∈ c :: digits, isDigit c' = true := by
    intro c digits h
    simp only [Bool.and_eq_true, List.all_eq_true] at h
    exact List.forall_mem_cons.mpr ⟨h.1.1, h.2⟩
  unfold intValid at h
  split at h
  · rename_i digits
    cases digits with
    | nil => cases h
    | cons c digits => exact .inl ⟨_, rfl, hall c digits h⟩
  · cases str with
    | nil => cases h
    | cons c digits => exact .inr ⟨c, digits, rfl, hall c digits h⟩

theorem strtol_int {str : Text} (h : intValid str = true) :
    strtol 10 str = clip (literalValue .int str) := by
  have hvalue : ∀ digits : Text, (∀ c ∈ digits, isDigit c = true) →
      digitsValue 10 digits = numberOf 10 digits := fun digits h =>
    digitsValue_eq fun c hc => ⟨isXDigit_of_isDigit (h c hc), digitValue_lt_ten (h c hc)⟩
  rcases intValid_cases h with ⟨digits, rfl, hd⟩ | ⟨c, digits, rfl, hd⟩
  · rw [strtol_minus, hvalue _ hd]
    rfl
  · have hc := isXDigit_of_isDigit (hd c List.mem_cons_self)
    rw [strtol_decimal hc, hvalue _ hd]
    simp [literalValue, (not_sign_of_isXDigit hc).1]

theorem strtol_hex {str : Text} (h : hexValid str = true) :
    strtol 16 str = clip (literalValue .hex str) := by
  simp only [hexValid, Bool.and_eq_true, Bool.not_eq_true', List.all_eq_true] at h
  obtain ⟨hne, hall⟩ := h
  have hvalue : strtol 16 str = clip (digitsValue 16 (skipHexPrefix str)) := by
    revert hne hall
    unfold skipHexPrefix
    split
    · rename_i digits
      intro hne hall
      cases digits with
      | nil => cases hne
      | cons c digits => simp [strtol, clip, isSpace, hall c]
    · rename_i digits
      intro hne hall
      cases digits with
      | nil => cases hne
      | cons c digits => simp [strtol, clip, isSpace, hall c]
    · rename_i hx hX
      intro hne hall
      cases str with
      | nil => cases hne
      | cons c digits =>
        have hc := hall c List.mem_cons_self
        obtain ⟨hminus, hplus⟩ := not_sign_of_isXDigit hc
        simp [strtol, clip, isSpace_of_isXDigit hc, hminus, hplus]
        split
        · rename_i heq
          exact absurd heq (hx _)
        · rename_i heq
          exact absurd heq (hX _)
        · rfl
  rw [hvalue, digitsValue_eq fun c hc => ⟨hall c hc, digitValue_lt_sixteen (hall c hc)⟩]
  rfl

/-! ## The comparison -/

/-- The number that fits an `int` and equals `n`, cut off at the bounds of a `long`, modulo
2^32. -/
def wrapped (n : ℤ) : ℤ := (clip n).bmod (2 ^ 32)

theorem clip_eq {n : ℤ} (hlo : -2 ^ 63 ≤ n) (hhi : n < 2 ^ 63) : clip n = n := by
  rw [clip, min_eq_right (by omega), max_eq_right (by omega)]

theorem wrapped_eq {n : ℤ} (hlo : -2 ^ 31 ≤ n) (hhi : n < 2 ^ 31) : wrapped n = n := by
  rw [wrapped, clip_eq (by omega) (by omega)]
  exact Int.bmod_eq_of_le (by norm_num; omega) (by norm_num; omega)

/-- A bound of a range: a constant with a valid number that fits 32 bits. -/
structure IsBound (type : SymType) (sym : Sym) (n : ℤ) : Prop where
  literal : ∃ name, sym.name? = some name ∧ symStringValid type name = true ∧
    literalValue type name = n
  fits : if type = .hex then 0 ≤ n ∧ n < 2 ^ 32 else -2 ^ 31 ≤ n ∧ n < 2 ^ 31

section WithinRange
variable {cfg : Config} {eval : Sym → State → State} {s lo hi : Sym} {st : State} {p : Property}
  {l h : ℤ} {str : Text}

theorem strtol_valid (str : Text) {type : SymType} (htype : type = .int ∨ type = .hex)
    (hvalid : symStringValid type str = true) :
    strtol (if type = .hex then 16 else 10) str = clip (literalValue type str) := by
  rcases htype with rfl | rfl
  · exact strtol_int hvalid
  · exact strtol_hex hvalid

theorem IsBound.strtol_eq {type : SymType} (htype : type = .int ∨ type = .hex)
    (hlo : IsBound type lo l) : strtol (if type = .hex then 16 else 10) (lo.name?.getD []) = l := by
  obtain ⟨name, hname, hvalid, hvalue⟩ := hlo.literal
  have hfits := hlo.fits
  rw [hname, Option.getD_some, strtol_valid name htype hvalid, hvalue]
  split_ifs at hfits with hhex
  · exact clip_eq (by omega) (by omega)
  · exact clip_eq (by omega) (by omega)

/-- What `sym_string_within_range` answers for a symbol with an active range. -/
theorem symStringWithinRange_iff (htype : cfg.type s = .int ∨ cfg.type s = .hex)
    (hprop : (symGetRangeProp cfg eval s st).1 = some p) (hexpr : p.expr = .range lo hi)
    (hlo : IsBound (cfg.type s) lo l) (hhi : IsBound (cfg.type s) hi h) :
    (symStringWithinRange cfg eval s str st).1 = true ↔
      symStringValid (cfg.type s) str = true ∧
        l ≤ wrapped (literalValue (cfg.type s) str) ∧
          wrapped (literalValue (cfg.type s) str) ≤ h := by
  have hl := hlo.strtol_eq htype
  have hh := hhi.strtol_eq htype
  have hvalue := strtol_valid str htype
  rcases htype with htype | htype
  · rw [htype] at hl hh hvalue ⊢
    by_cases hvalid : symStringValid .int str = true
    · have hs : strtol 10 str = clip (literalValue .int str) := hvalue hvalid
      have hl : strtol 10 (lo.name?.getD []) = l := hl
      have hh : strtol 10 (hi.name?.getD []) = h := hh
      simp [symStringWithinRange, htype, hvalid, hprop, inBounds, hexpr, hs, hl, hh, wrapped, toInt32]
    · simp [symStringWithinRange, htype, hvalid]
  · rw [htype] at hl hh hvalue ⊢
    by_cases hvalid : symStringValid .hex str = true
    · have hs : strtol 16 str = clip (literalValue .hex str) := hvalue hvalid
      have hl : strtol 16 (lo.name?.getD []) = l := hl
      have hh : strtol 16 (hi.name?.getD []) = h := hh
      simp [symStringWithinRange, htype, hvalid, hprop, inBounds, hexpr, hs, hl, hh, wrapped, toInt32]
    · simp [symStringWithinRange, htype, hvalid]

/-- A number of the range that does not fit an `int` is out of it once it is cut down. -/
theorem wrapped_out {type : SymType} {lo hi : Sym} (hlo : IsBound type lo l)
    (hhi : IsBound type hi h) {n : ℤ} (hn : l ≤ n ∧ n ≤ h)
    (hfits : ¬(-2 ^ 31 ≤ n ∧ n < 2 ^ 31)) : ¬(l ≤ wrapped n ∧ wrapped n ≤ h) := by
  have hl := hlo.fits
  have hh := hhi.fits
  split_ifs at hl hh with hhex
  · have hclip : clip n = n := clip_eq (by omega) (by omega)
    have hcut : wrapped n = n - 2 ^ 32 := by
      rw [wrapped, hclip, ← Int.sub_bmod_right]
      exact Int.bmod_eq_of_le (by norm_num; omega) (by norm_num; omega)
    omega
  · omega

/-- The answer is the right one exactly for the literals whose number fits an `int`, and for those
that are out of the range both before and after they are cut down to one. -/
theorem symStringWithinRange_correct_iff (htype : cfg.type s = .int ∨ cfg.type s = .hex)
    (hprop : (symGetRangeProp cfg eval s st).1 = some p) (hexpr : p.expr = .range lo hi)
    (hlo : IsBound (cfg.type s) lo l) (hhi : IsBound (cfg.type s) hi h) (str : Text) :
    ((symStringWithinRange cfg eval s str st).1 = true ↔
      symStringValid (cfg.type s) str = true ∧
        l ≤ literalValue (cfg.type s) str ∧ literalValue (cfg.type s) str ≤ h) ↔
    (symStringValid (cfg.type s) str = true →
      (-2 ^ 31 ≤ literalValue (cfg.type s) str ∧ literalValue (cfg.type s) str < 2 ^ 31) ∨
      ¬(l ≤ literalValue (cfg.type s) str ∧ literalValue (cfg.type s) str ≤ h) ∧
        ¬(l ≤ wrapped (literalValue (cfg.type s) str) ∧
          wrapped (literalValue (cfg.type s) str) ≤ h)) := by
  rw [symStringWithinRange_iff htype hprop hexpr hlo hhi]
  by_cases hvalid : symStringValid (cfg.type s) str = true
  · simp only [hvalid, true_and, true_implies]
    by_cases hfits : -2 ^ 31 ≤ literalValue (cfg.type s) str ∧ literalValue (cfg.type s) str < 2 ^ 31
    · rw [wrapped_eq hfits.1 hfits.2]
      exact ⟨fun _ => .inl hfits, fun _ => Iff.rfl⟩
    · constructor
      · intro hiff
        have hout := fun hn => wrapped_out hlo hhi hn hfits
        exact .inr ⟨fun hn => hout hn (hiff.mpr hn), fun hw => hout (hiff.mp hw) hw⟩
      · rintro (hin | ⟨hn, hw⟩)
        · exact absurd hin hfits
        · exact iff_of_false hw hn
  · simp [hvalid]

end WithinRange

/-! ## A range over all hexadecimal numbers of 32 bits -/

/-- `0xffffffff` -/
def hexMax : Text := ['0', 'x', 'f', 'f', 'f', 'f', 'f', 'f', 'f', 'f']

/-- A `hex` option `H` with `range 0x0 0xffffffff`. -/
def hexTree : ParsedTree where
  block := .config ⟨['H'], by decide⟩ false
    [.type .hex (some (['h'], none)),
      .range (.lookup ['0', 'x', '0'] false) (.lookup hexMax false) none] .nil
  choices_nodup := by decide
  named := by decide

/-- The symbol `H`. -/
def hexSym : Sym := .lookup ['H'] false

theorem hexTree_range :
    (symGetRangeProp hexTree.config (symCalcValue hexTree.config) hexSym State.initial).1 =
      some ⟨some hexSym, .range, none, none,
        .range (.lookup ['0', 'x', '0'] false) (.lookup hexMax false)⟩ := by
  decide +kernel

theorem hexTree_low : IsBound .hex (.lookup ['0', 'x', '0'] false) 0 :=
  ⟨⟨_, rfl, by decide, by decide⟩, by decide⟩

theorem hexTree_high : IsBound .hex (.lookup hexMax false) 0xffffffff :=
  ⟨⟨_, rfl, by decide, by decide⟩, by decide⟩

/-- `0x10` fits an `int` and is accepted. -/
theorem hexTree_accepts :
    (symStringWithinRange hexTree.config (symCalcValue hexTree.config) hexSym ['0', 'x', '1', '0']
      State.initial).1 = true := by
  have h := (symStringWithinRange_correct_iff (.inr rfl) hexTree_range rfl
    hexTree_low hexTree_high ['0', 'x', '1', '0']).mpr fun _ => .inl (by decide)
  exact h.mpr (by decide)

/-- The upper bound itself is in its range and is refused. -/
theorem symStringWithinRange_refuses :
    ¬ ∀ (cfg : Config) (s lo hi : Sym) (st : State) (p : Property) (l h : ℤ) (str : Text),
      cfg.type s = .int ∨ cfg.type s = .hex →
      (symGetRangeProp cfg (symCalcValue cfg) s st).1 = some p → p.expr = .range lo hi →
      IsBound (cfg.type s) lo l → IsBound (cfg.type s) hi h →
      ((symStringWithinRange cfg (symCalcValue cfg) s str st).1 = true ↔
        symStringValid (cfg.type s) str = true ∧
          l ≤ literalValue (cfg.type s) str ∧ literalValue (cfg.type s) str ≤ h) := by
  intro hclaim
  have hmax := hclaim hexTree.config hexSym _ _ State.initial _ _ _ hexMax (.inr rfl) hexTree_range
    rfl hexTree_low hexTree_high
  have hrefused : (symStringWithinRange hexTree.config (symCalcValue hexTree.config) hexSym hexMax
      State.initial).1 = false := by decide +kernel
  rw [hmax.mpr (by decide)] at hrefused
  cases hrefused

end Grasshopper.Kconfig
