import Grasshopper.Library.Flex
import Mathlib.Data.List.DropRight
import Grasshopper.Kconfig.Expr.Basic

/-! # The help texts of `zconf.l`

The start condition `HELP` gathers the lines of a help text. The first line with something on it
sets the column the text starts at, and the text ends at the first later line to the left of it.
-/

namespace Grasshopper.Kconfig

/-! ## The rules -/

/-- `[ \t]` -/
def isBlank (c : Char) : Bool := c == ' ' || c == '\t'

/-- `[^ \t\n]` -/
def isInk (c : Char) : Bool := !(isBlank c || c == '\n')

inductive HelpRule where
  | indent | last | newline | line

/-- `[ \t]+` -/
def indentRule : Flex.Rule HelpRule := ⟨[.one isBlank, .many isBlank], [], .indent⟩

/-- `[ \t]*\n/[^ \t\n]` -/
def lastRule : Flex.Rule HelpRule := ⟨[.many isBlank, .one (· == '\n')], [.one isInk], .last⟩

/-- `[ \t]*\n` -/
def newlineRule : Flex.Rule HelpRule := ⟨[.many isBlank, .one (· == '\n')], [], .newline⟩

/-- `[^ \t\n].*` -/
def lineRule : Flex.Rule HelpRule := ⟨[.one isInk, .many (· != '\n')], [], .line⟩

/-- The patterns of `<HELP>`, without the one for the end of the file. -/
def helpRules : List (Flex.Rule HelpRule) := [indentRule, lastRule, newlineRule, lineRule]

/-- `text`, the two counters and the line number of the file. -/
structure HelpState where
  text : Text
  lastTs : ℕ
  firstTs : ℕ
  lineno : ℕ

/-- `append_string`. -/
def HelpState.append (st : HelpState) (str : Text) : HelpState := { st with text := st.text ++ str }

/-- The column after some blanks. -/
def columns (blanks : Text) : ℕ :=
  blanks.foldl (fun ts c => if c = '\t' then ts / 8 * 8 + 8 else ts + 1) 0

/-- `while (ts > 8)`: the blanks are appended in chunks. -/
def HelpState.pad (st : HelpState) (ts : ℕ) : HelpState :=
  if 8 < ts then (st.append (List.replicate 8 ' ')).pad (ts - 8)
  else st.append (List.replicate ts ' ')
termination_by ts

/-- The tokens of a help text up to `T_HELPTEXT`, with fuel for their number. What is left of the
file comes with the state. -/
def scanHelp : ℕ → Text → HelpState → Option (HelpState × Text)
  | 0, _, _ => none
  | n + 1, str, st =>
    match Flex.select helpRules str with
    | none => some (st, str)
    | some (rule, _, yyleng) =>
      let yytext := str.take yyleng
      let rest := str.drop yyleng
      match rule with
      | .indent =>
        let ts := columns yytext
        let st := { st with lastTs := ts }
        if st.firstTs ≠ 0 then
          if ts < st.firstTs then some (st, rest) else scanHelp n rest (st.pad (ts - st.firstTs))
        else scanHelp n rest st
      | .last => some ({ st with lineno := st.lineno + 1 }, rest)
      | .newline => scanHelp n rest ({ st with lineno := st.lineno + 1 }.append ['\n'])
      | .line =>
        let st := st.append yytext
        scanHelp n rest (if st.firstTs = 0 then { st with firstTs := st.lastTs } else st)

/-- A help text from where `zconf_starthelp` is called. -/
def helpText (str : Text) (lineno : ℕ) : Option (HelpState × Text) :=
  scanHelp (str.length + 1) str ⟨[], 0, 0, lineno⟩

/-! ## What a help text is -/

/-- The lines of a text, without their newlines. -/
def lines : Text → List Text
  | [] => [[]]
  | c :: str => if c = '\n' then [] :: lines str else (lines str).modifyHead (c :: ·)

/-- The text with the given lines. -/
def unlines : List Text → Text
  | [] => []
  | [l] => l
  | l :: ls => l ++ '\n' :: unlines ls

/-- There is nothing on a line but blanks. -/
def isBlankLine (l : Text) : Bool := l.all isBlank

/-- The column of the first character that is no blank. -/
def indentOf (l : Text) : ℕ := columns (l.takeWhile isBlank)

/-- The lines of a help text at column `k`. -/
def inHelp (k : ℕ) (l : Text) : Bool := isBlankLine l || decide (k ≤ indentOf l)

/-- A line of a help text, moved `k` columns to the left. -/
def shifted (k : ℕ) (l : Text) : Text :=
  if isBlankLine l then [] else List.replicate (indentOf l - k) ' ' ++ l.dropWhile isBlank

/-- The text of the lines up to the first one to the left of column `k`. -/
def helpLines (k : ℕ) (ls : List Text) : Text :=
  (ls.takeWhile (inHelp k)).flatMap fun l => shifted k l ++ ['\n']

/-- What follows a help text, from the first character that is no blank. -/
def afterHelp (k : ℕ) (ls : List Text) : Text :=
  (unlines (ls.dropWhile (inHelp k))).dropWhile isBlank

/-- A text without the white space at its end. -/
def stripEnd (str : Text) : Text := str.rdropWhile fun c => isBlank c || c == '\n'

/-! ## The longest match -/

theorem isInk_false_iff {c : Char} : isInk c = false ↔ isBlank c = true ∨ c = '\n' := by
  cases h : isBlank c with
  | true => simp [isInk, h]
  | false => simp [isInk, h]

theorem isInk_iff {c : Char} : isInk c = true ↔ isBlank c = false ∧ c ≠ '\n' := by
  simp [isInk]

section Select
variable {bl more tl : Text} {c : Char}

theorem matchLength_blanks (hbl : ∀ c ∈ bl, isBlank c = true) :
    Flex.matchLength [.many isBlank, .one (· == '\n')] (bl ++ '\n' :: more) =
      some (bl.length + 1) := by
  rw [Flex.matchLength_many hbl (by simp; decide), Flex.matchLength_one (by simp),
    Flex.matchLength_nil]
  simp [Nat.add_comm]

theorem matchLength_blanks_none (hbl : ∀ c ∈ bl, isBlank c = true)
    (hmore : ∀ c ∈ more.head?, isInk c = true) :
    Flex.matchLength [.many isBlank, .one (· == '\n')] (bl ++ more) = none := by
  rw [Flex.matchLength_many hbl fun c hc => (isInk_iff.mp (hmore c hc)).1]
  cases more with
  | nil => rfl
  | cons c more =>
    rw [Flex.matchLength_one_none (by simpa using (isInk_iff.mp (hmore c rfl)).2)]
    rfl

theorem indentRule_matches (hbl : ∀ c ∈ bl, isBlank c = true)
    (hmore : ∀ c ∈ more.head?, isBlank c = false) :
    indentRule.matches (bl ++ more) = if bl = [] then none else some (bl.length, bl.length) := by
  rw [Flex.Rule.matches_of_context_nil rfl, indentRule]
  cases bl with
  | nil =>
    cases more with
    | nil => rfl
    | cons c more =>
      rw [List.nil_append, Flex.matchLength_one_none (hmore c rfl)]
      rfl
  | cons c bl =>
    obtain ⟨hc, hbl⟩ := List.forall_mem_cons.mp hbl
    rw [List.cons_append, Flex.matchLength_one hc, Flex.matchLength_many hbl hmore]
    simp

theorem lineRule_matches (hc : isInk c = true) (htl : '\n' ∉ tl)
    (hmore : ∀ c ∈ more.head?, c = '\n') :
    lineRule.matches (c :: (tl ++ more)) = some (tl.length + 1, tl.length + 1) := by
  have htl' : ∀ c ∈ tl, (c != '\n') = true := by
    intro c hc
    rw [bne_iff_ne]
    exact fun h => htl (h ▸ hc)
  rw [Flex.Rule.matches_of_context_nil rfl, lineRule, Flex.matchLength_one hc,
    Flex.matchLength_many htl' fun c hc => by simp [hmore c hc]]
  simp

theorem lineRule_matches_none (hmore : ∀ c ∈ more.head?, isInk c = false) :
    lineRule.matches more = none := by
  rw [Flex.Rule.matches_of_context_nil rfl, lineRule]
  cases more with
  | nil => rfl
  | cons c more =>
    rw [Flex.matchLength_one_none (hmore c rfl)]
    rfl

theorem newlineRule_matches (hbl : ∀ c ∈ bl, isBlank c = true) :
    newlineRule.matches (bl ++ '\n' :: more) = some (bl.length + 1, bl.length + 1) := by
  rw [Flex.Rule.matches_of_context_nil rfl, newlineRule, matchLength_blanks hbl]
  rfl

theorem drop_newline : (bl ++ '\n' :: more).drop (bl.length + 1) = more := by
  rw [← List.drop_drop, List.drop_left]
  rfl

theorem lastRule_matches (hbl : ∀ c ∈ bl, isBlank c = true) :
    lastRule.matches (bl ++ '\n' :: more) =
      if more.head?.any isInk then some (bl.length + 2, bl.length + 1) else none := by
  rw [Flex.Rule.matches, lastRule, matchLength_blanks hbl, Option.bind_some, drop_newline]
  cases more with
  | nil => rfl
  | cons c more =>
    cases hc : isInk c with
    | true =>
      rw [Flex.matchLength_one hc]
      simp [hc]
    | false =>
      rw [Flex.matchLength_one_none hc]
      simp [hc]

/-- At the end of a line, blanks included, it depends on the next character whether the text
ends. -/
theorem select_newline (hbl : ∀ c ∈ bl, isBlank c = true) :
    Flex.select helpRules (bl ++ '\n' :: more) =
      if more.head?.any isInk then some (.last, bl.length + 2, bl.length + 1)
      else some (.newline, bl.length + 1, bl.length + 1) := by
  have hindent : indentRule.matches (bl ++ '\n' :: more) =
      if bl = [] then none else some (bl.length, bl.length) :=
    indentRule_matches hbl (by simp; decide)
  have hline : lineRule.matches (bl ++ '\n' :: more) = none := by
    apply lineRule_matches_none
    intro c hc
    cases bl with
    | nil =>
      cases hc
      decide
    | cons b bl =>
      cases hc
      exact isInk_false_iff.mpr (.inl (hbl c List.mem_cons_self))
  simp only [helpRules, Flex.select, hindent, lastRule_matches hbl, newlineRule_matches hbl, hline]
  by_cases hnil : bl = []
  · by_cases hmore : more.head?.any isInk = true
    · simp [hnil, hmore, lastRule]
    · simp [hnil, hmore, newlineRule]
  · by_cases hmore : more.head?.any isInk = true
    · simp [hnil, hmore, lastRule]
    · simp [hnil, hmore, newlineRule]

/-- Where no line ends after the blanks, both rules for the end of a line fail. -/
theorem newline_matches_none (hbl : ∀ c ∈ bl, isBlank c = true)
    (hmore : ∀ c ∈ more.head?, isInk c = true) :
    lastRule.matches (bl ++ more) = none ∧ newlineRule.matches (bl ++ more) = none := by
  have hnone := matchLength_blanks_none hbl hmore
  constructor
  · rw [Flex.Rule.matches, lastRule, hnone, Option.bind_none]
  · rw [Flex.Rule.matches, newlineRule, hnone, Option.bind_none]

/-- Blanks before something, or at the end of the file. -/
theorem select_indent (hbl : ∀ c ∈ bl, isBlank c = true) (hne : bl ≠ [])
    (hmore : ∀ c ∈ more.head?, isInk c = true) :
    Flex.select helpRules (bl ++ more) = some (.indent, bl.length, bl.length) := by
  have hindent := indentRule_matches hbl fun c hc => (isInk_iff.mp (hmore c hc)).1
  rw [if_neg hne] at hindent
  obtain ⟨hlast, hnewline⟩ := newline_matches_none hbl hmore
  have hline : lineRule.matches (bl ++ more) = none := by
    apply lineRule_matches_none
    intro c hc
    rw [List.head?_append_of_ne_nil _ hne] at hc
    exact isInk_false_iff.mpr (.inl (hbl c (List.mem_of_head? hc)))
  simp only [helpRules, Flex.select, hindent, hlast, hnewline, hline]
  rfl

theorem select_line (hc : isInk c = true) (htl : '\n' ∉ tl) (hmore : ∀ c ∈ more.head?, c = '\n') :
    Flex.select helpRules (c :: (tl ++ more)) = some (.line, tl.length + 1, tl.length + 1) := by
  have hhead : ∀ c' ∈ (c :: (tl ++ more)).head?, isInk c' = true := by
    intro c' hc'
    cases hc'
    exact hc
  have hblank : ∀ c' ∈ ([] : Text), isBlank c' = true := fun c' h => (List.not_mem_nil h).elim
  have hindent := indentRule_matches hblank fun c' hc' => (isInk_iff.mp (hhead c' hc')).1
  obtain ⟨hlast, hnewline⟩ := newline_matches_none hblank hhead
  rw [List.nil_append] at hindent hlast hnewline
  simp only [helpRules, Flex.select, hindent, hlast, hnewline, lineRule_matches hc htl hmore]
  rfl

end Select

/-! ## The tokens -/

theorem HelpState.pad_eq (st : HelpState) (ts : ℕ) :
    st.pad ts = st.append (List.replicate ts ' ') := by
  induction ts using Nat.strong_induction_on generalizing st with
  | _ ts ih =>
    rw [HelpState.pad]
    split_ifs with h
    · rw [ih (ts - 8) (by omega)]
      simp only [HelpState.append, List.append_assoc, List.replicate_append_replicate]
      rw [Nat.add_sub_cancel' h.le]
    · rfl

section Tokens
variable {bl more tl : Text} {c : Char} {n : ℕ} {st : HelpState}

theorem scanHelp_nil : scanHelp (n + 1) [] st = some (st, []) := rfl

theorem scanHelp_last (hbl : ∀ c ∈ bl, isBlank c = true) (hmore : more.head?.any isInk = true) :
    scanHelp (n + 1) (bl ++ '\n' :: more) st = some ({ st with lineno := st.lineno + 1 }, more) := by
  rw [scanHelp, select_newline hbl, if_pos hmore]
  simp only [drop_newline]

theorem scanHelp_newline (hbl : ∀ c ∈ bl, isBlank c = true) (hmore : more.head?.any isInk = false) :
    scanHelp (n + 1) (bl ++ '\n' :: more) st =
      scanHelp n more ({ st with lineno := st.lineno + 1 }.append ['\n']) := by
  rw [scanHelp, select_newline hbl, if_neg (by simp [hmore])]
  simp only [drop_newline]

theorem scanHelp_indent (hbl : ∀ c ∈ bl, isBlank c = true) (hne : bl ≠ [])
    (hmore : ∀ c ∈ more.head?, isInk c = true) :
    scanHelp (n + 1) (bl ++ more) st =
      if st.firstTs = 0 then scanHelp n more { st with lastTs := columns bl }
      else if columns bl < st.firstTs then some ({ st with lastTs := columns bl }, more)
      else scanHelp n more ({ st with lastTs := columns bl }.append
        (List.replicate (columns bl - st.firstTs) ' ')) := by
  rw [scanHelp, select_indent hbl hne hmore]
  simp only [List.take_left, List.drop_left, HelpState.pad_eq]
  by_cases h : st.firstTs = 0
  · simp [h]
  · simp [h]

theorem scanHelp_line (hc : isInk c = true) (htl : '\n' ∉ tl)
    (hmore : ∀ c ∈ more.head?, c = '\n') :
    scanHelp (n + 1) (c :: (tl ++ more)) st =
      scanHelp n more { st with
        text := st.text ++ c :: tl
        firstTs := if st.firstTs = 0 then st.lastTs else st.firstTs } := by
  rw [scanHelp, select_line hc htl hmore]
  simp only [List.take_succ_cons, List.take_left, List.drop_succ_cons, List.drop_left]
  by_cases h : st.firstTs = 0
  · simp [h, HelpState.append]
  · simp [h, HelpState.append]

end Tokens

/-! ## The lines -/

theorem stripEnd_append {str white : Text} (h : ∀ c ∈ white, (isBlank c || c == '\n') = true) :
    stripEnd (str ++ white) = stripEnd str := by
  rw [stripEnd, List.rdropWhile, List.reverse_append, List.dropWhile_append_of_pos, ← List.rdropWhile,
    stripEnd]
  exact fun c hc => h c (List.mem_reverse.mp hc)

theorem lines_ne_nil (str : Text) : lines str ≠ [] := by
  induction str with
  | nil => simp [lines]
  | cons c str ih =>
    rw [lines]
    split_ifs
    · simp
    · simpa using ih

theorem newline_not_mem_lines (str : Text) : ∀ l ∈ lines str, '\n' ∉ l := by
  induction str with
  | nil => simp [lines]
  | cons c str ih =>
    rw [lines]
    split_ifs with hc
    · simpa using ih
    · cases hl : lines str with
      | nil => exact absurd hl (lines_ne_nil str)
      | cons l ls =>
        rw [hl, List.forall_mem_cons] at ih
        rw [List.modifyHead_cons, List.forall_mem_cons]
        refine ⟨?_, ih.2⟩
        simp [ih.1, Ne.symm hc]

/-- What is in a text after a line of it. -/
def afterLine : List Text → Text
  | [] => []
  | ls => '\n' :: unlines ls

theorem unlines_cons (l : Text) (ls : List Text) : unlines (l :: ls) = l ++ afterLine ls := by
  cases ls with
  | nil => exact (List.append_nil l).symm
  | cons l' ls => rfl

theorem unlines_lines (str : Text) : unlines (lines str) = str := by
  induction str with
  | nil => rfl
  | cons c str ih =>
    rw [lines]
    cases hl : lines str with
    | nil => exact absurd hl (lines_ne_nil str)
    | cons l ls =>
      rw [hl] at ih
      split_ifs with hc
      · rw [unlines_cons, List.nil_append, afterLine, ih, hc]
        simp
      · rw [List.modifyHead_cons, unlines_cons, List.cons_append, ← unlines_cons, ih]

section Lines
variable {l : Text} {k : ℕ}

/-- A line is blank, or has something after its blanks. -/
theorem line_cases (hl : '\n' ∉ l) :
    isBlankLine l = true ∨
      ∃ bl c tl, l = bl ++ c :: tl ∧ (∀ c ∈ bl, isBlank c = true) ∧ isInk c = true ∧ '\n' ∉ tl := by
  by_cases hall : isBlankLine l = true
  · exact .inl hall
  · right
    cases hd : l.dropWhile isBlank with
    | nil =>
      rw [List.dropWhile_eq_nil_iff] at hd
      exact absurd (List.all_eq_true.mpr hd) hall
    | cons c tl =>
      have hsplit : l = l.takeWhile isBlank ++ c :: tl := by rw [← hd, List.takeWhile_append_dropWhile]
      have hmem : ∀ x ∈ c :: tl, x ∈ l := fun x hx => hsplit ▸ List.mem_append_right _ hx
      refine ⟨_, c, tl, hsplit, fun x hx => List.mem_takeWhile_imp hx, ?_, fun h => ?_⟩
      · have hhead := List.head_dropWhile_not isBlank (by rw [hd]; simp : l.dropWhile isBlank ≠ [])
        simp only [hd, List.head_cons] at hhead
        refine isInk_iff.mpr ⟨hhead, fun h => hl (h ▸ hmem c List.mem_cons_self)⟩
      · exact hl (hmem _ (List.mem_cons_of_mem c h))

section Ink
variable {bl tl : Text} {c : Char}

theorem takeWhile_ink (hbl : ∀ c ∈ bl, isBlank c = true) (hc : isInk c = true) :
    (bl ++ c :: tl).takeWhile isBlank = bl ∧ (bl ++ c :: tl).dropWhile isBlank = c :: tl := by
  have hc := (isInk_iff.mp hc).1
  constructor
  · rw [List.takeWhile_append_of_pos hbl, List.takeWhile_cons_of_neg (by simp [hc]),
      List.append_nil]
  · rw [List.dropWhile_append_of_pos hbl, List.dropWhile_cons_of_neg (by simp [hc])]

theorem isBlankLine_ink (hc : isInk c = true) : isBlankLine (bl ++ c :: tl) = false := by
  simp [isBlankLine, (isInk_iff.mp hc).1]

theorem indentOf_ink (hbl : ∀ c ∈ bl, isBlank c = true) (hc : isInk c = true) :
    indentOf (bl ++ c :: tl) = columns bl := by
  rw [indentOf, (takeWhile_ink hbl hc).1]

theorem inHelp_ink (hbl : ∀ c ∈ bl, isBlank c = true) (hc : isInk c = true) :
    inHelp k (bl ++ c :: tl) = decide (k ≤ columns bl) := by
  rw [inHelp, isBlankLine_ink hc, indentOf_ink hbl hc, Bool.false_or]

theorem shifted_ink (hbl : ∀ c ∈ bl, isBlank c = true) (hc : isInk c = true) :
    shifted k (bl ++ c :: tl) = List.replicate (columns bl - k) ' ' ++ c :: tl := by
  rw [shifted, isBlankLine_ink hc, indentOf_ink hbl hc, (takeWhile_ink hbl hc).2]
  rfl

end Ink

theorem inHelp_blank (h : isBlankLine l = true) : inHelp k l = true := by simp [inHelp, h]

theorem helpLines_cons (h : inHelp k l = true) (ls : List Text) :
    helpLines k (l :: ls) = shifted k l ++ '\n' :: helpLines k ls := by
  simp [helpLines, h]

theorem helpLines_cons_out (h : inHelp k l = false) (ls : List Text) :
    helpLines k (l :: ls) = [] := by
  simp [helpLines, h]

theorem afterHelp_cons (h : inHelp k l = true) (ls : List Text) :
    afterHelp k (l :: ls) = afterHelp k ls := by
  simp [afterHelp, h]

theorem afterHelp_cons_out (h : inHelp k l = false) (ls : List Text) :
    afterHelp k (l :: ls) = (l ++ afterLine ls).dropWhile isBlank := by
  rw [afterHelp, List.dropWhile_cons_of_neg (by simp [h]), unlines_cons]

/-- A scan of a help text at column `k` reads some lines, with the text in front of them. -/
def Scans (k n : ℕ) (str : Text) (st : HelpState) (text : Text) (ls : List Text) : Prop :=
  ∃ st', scanHelp n str st = some (st', afterHelp k ls) ∧
    stripEnd st'.text = stripEnd (text ++ helpLines k ls)

/-- What a scan does with the lines from the start of one that is blank or indented. -/
def ScansLines (k : ℕ) (ls : List Text) : Prop :=
  ∀ n st, (unlines ls).head?.any isInk = false → st.firstTs = k → (unlines ls).length < n →
    Scans k n (unlines ls) st st.text ls

/-- A text that starts in the first column is to the left of column `k`. -/
theorem out_of_first_column (hk : 1 ≤ k) {ls : List Text}
    (h : (unlines (l :: ls)).head?.any isInk = true) :
    inHelp k l = false ∧ (unlines (l :: ls)).dropWhile isBlank = unlines (l :: ls) := by
  rw [unlines_cons] at h ⊢
  cases l with
  | nil =>
    cases ls with
    | nil => cases h
    | cons l ls => cases h
  | cons c tl =>
    have hc : isInk c = true := h
    have hin : inHelp k ([] ++ c :: tl) = decide (k ≤ columns []) :=
      inHelp_ink (fun c hc => (List.not_mem_nil hc).elim) hc
    refine ⟨hin.trans ?_, List.dropWhile_cons_of_neg (by simp [(isInk_iff.mp hc).1])⟩
    rw [decide_eq_false_iff_not]
    exact Nat.not_le.mpr hk

/-- The end of a line, and the lines after it. -/
theorem scans_newline (hk : 1 ≤ k) (bl : Text) (hbl : ∀ c ∈ bl, isBlank c = true)
    {ls : List Text} (hls : ls ≠ []) (ih : ScansLines k ls) {n : ℕ} {st : HelpState}
    (hst : st.firstTs = k) (hn : (bl ++ afterLine ls).length < n) :
    Scans k n (bl ++ afterLine ls) st (st.text ++ ['\n']) ls := by
  obtain ⟨l, ls, rfl⟩ := List.exists_cons_of_ne_nil hls
  rw [afterLine] at hn ⊢
  · obtain ⟨n, rfl⟩ : ∃ m, n = m + 1 := ⟨n - 1, by omega⟩
    cases hhead : (unlines (l :: ls)).head?.any isInk with
    | true =>
      obtain ⟨hout, hdrop⟩ := out_of_first_column hk hhead
      refine ⟨{ st with lineno := st.lineno + 1 }, ?_, ?_⟩
      · rw [scanHelp_last hbl hhead, afterHelp_cons_out hout, ← unlines_cons, hdrop]
      · rw [helpLines_cons_out hout, List.append_nil]
        exact (stripEnd_append (by simp)).symm
    | false =>
      rw [Scans, scanHelp_newline hbl hhead]
      refine ih n _ hhead hst ?_
      simp only [List.length_append, List.length_cons] at hn
      omega
  · exact List.cons_ne_nil l ls
  · exact List.cons_ne_nil l ls

/-- The rest of a line with something on it, and the lines after it. -/
theorem scans_ink (hk : 1 ≤ k) {c : Char} {tl : Text} (hc : isInk c = true) (htl : '\n' ∉ tl)
    {ls : List Text} (ih : ls ≠ [] → ScansLines k ls) (n : ℕ) (st : HelpState)
    (hst : (if st.firstTs = 0 then st.lastTs else st.firstTs) = k)
    (hn : (c :: (tl ++ afterLine ls)).length < n) :
    Scans k n (c :: (tl ++ afterLine ls)) st (st.text ++ c :: tl ++ ['\n']) ls := by
  obtain ⟨n, rfl⟩ : ∃ m, n = m + 1 := ⟨n - 1, by omega⟩
  have hmore : ∀ c ∈ (afterLine ls).head?, c = '\n' := by
    intro c hc
    cases ls with
    | nil => cases hc
    | cons l ls =>
      cases hc
      rfl
  rw [Scans, scanHelp_line hc htl hmore, hst]
  simp only [List.length_cons, List.length_append] at hn
  cases ls with
  | nil =>
    obtain ⟨n, rfl⟩ : ∃ m, n = m + 1 := ⟨n - 1, by omega⟩
    refine ⟨_, scanHelp_nil, ?_⟩
    rw [helpLines, List.takeWhile_nil, List.flatMap_nil, List.append_nil]
    exact (stripEnd_append (by simp)).symm
  | cons l ls =>
    exact scans_newline hk [] (fun c hc => (List.not_mem_nil hc).elim)
      (List.cons_ne_nil l ls) (ih (List.cons_ne_nil l ls)) rfl (by rw [List.nil_append]; omega)

/-- Blanks at the end of the file. -/
theorem scans_end {bl : Text} (hbl : ∀ c ∈ bl, isBlank c = true) {n : ℕ} {st : HelpState}
    (hst : st.firstTs ≠ 0) (hn : bl.length < n) :
    ∃ st', scanHelp n (bl ++ []) st = some (st', []) ∧
      stripEnd st'.text = stripEnd (st.text ++ ['\n']) := by
  have hnewline : stripEnd (st.text ++ ['\n']) = stripEnd st.text := stripEnd_append (by simp)
  obtain ⟨n, rfl⟩ : ∃ m, n = m + 1 := ⟨n - 1, by omega⟩
  by_cases hne : bl = []
  · subst hne
    exact ⟨st, scanHelp_nil, hnewline.symm⟩
  · have hpos := List.length_pos_iff.mpr hne
    obtain ⟨n, rfl⟩ : ∃ m, n = m + 1 := ⟨n - 1, by omega⟩
    rw [scanHelp_indent hbl hne (by simp), if_neg hst, hnewline]
    split_ifs with hlt
    · exact ⟨_, rfl, rfl⟩
    · refine ⟨_, scanHelp_nil, stripEnd_append fun c hc => ?_⟩
      rw [List.eq_of_mem_replicate hc]
      rfl

theorem scansLines (hk : 1 ≤ k) {ls : List Text} (hls : ls ≠ []) (hnl : ∀ l ∈ ls, '\n' ∉ l) :
    ScansLines k ls := by
  induction ls with
  | nil => exact absurd rfl hls
  | cons l ls ih =>
    rintro n st hhead rfl hn
    obtain ⟨hl, hrest⟩ := List.forall_mem_cons.mp hnl
    have hfirst : st.firstTs ≠ 0 := by omega
    rw [unlines_cons] at hhead hn ⊢
    rcases line_cases hl with hblank | ⟨bl, c, tl, rfl, hbl, hc, htl⟩
    · have hbl : ∀ c ∈ l, isBlank c = true := List.all_eq_true.mp hblank
      have hin : inHelp st.firstTs l = true := inHelp_blank hblank
      rw [Scans, helpLines_cons hin, afterHelp_cons hin, shifted, if_pos hblank, List.nil_append]
      cases ls with
      | nil => exact scans_end hbl hfirst (by simpa [afterLine] using hn)
      | cons l' ls =>
        have hnext := scans_newline hk l hbl (List.cons_ne_nil l' ls)
          (ih (List.cons_ne_nil l' ls) hrest) rfl hn
        rw [Scans, List.append_assoc] at hnext
        exact hnext
    · have hne : bl ≠ [] := by
        rintro rfl
        rw [List.nil_append, List.cons_append] at hhead
        simp [hc] at hhead
      obtain ⟨n, rfl⟩ : ∃ m, n = m + 1 := ⟨n - 1, by omega⟩
      rw [List.append_assoc, List.cons_append, Scans, scanHelp_indent hbl hne (by simp [hc]),
        if_neg hfirst]
      split_ifs with hlt
      · have hout : inHelp st.firstTs (bl ++ c :: tl) = false := by
          rw [inHelp_ink hbl hc, decide_eq_false_iff_not]
          omega
        refine ⟨{ st with lastTs := columns bl }, ?_, ?_⟩
        · rw [afterHelp_cons_out hout, List.append_assoc, List.cons_append, (takeWhile_ink hbl hc).2]
        · rw [helpLines_cons_out hout, List.append_nil]
      · have hin : inHelp st.firstTs (bl ++ c :: tl) = true := by
          rw [inHelp_ink hbl hc, decide_eq_true_iff]
          omega
        rw [afterHelp_cons hin, helpLines_cons hin, shifted_ink hbl hc]
        have hpos := List.length_pos_iff.mpr hne
        have hline := scans_ink hk hc htl (fun h => ih h hrest) n
          ({ st with lastTs := columns bl }.append
            (List.replicate (columns bl - st.firstTs) ' ')) (if_neg hfirst) (by simp only [List.length_append, List.length_cons] at hn ⊢; omega)
        rw [Scans] at hline
        simpa [HelpState.append, List.append_assoc] using hline

/-- Before the first line with something on it no column is set. -/
theorem scans_first (hk : 1 ≤ k) {ls : List Text} (hnl : ∀ l ∈ ls, '\n' ∉ l) {l₀ : Text}
    (hfind : ls.find? (!isBlankLine ·) = some l₀) (hk₀ : indentOf l₀ = k) (n : ℕ) (st : HelpState)
    (hst : st.firstTs = 0) (hn : (unlines ls).length < n) :
    Scans k n (unlines ls) st st.text ls := by
  induction ls generalizing n st with
  | nil => cases hfind
  | cons l ls ih =>
    obtain ⟨hl, hrest⟩ := List.forall_mem_cons.mp hnl
    rw [unlines_cons] at hn ⊢
    rcases line_cases hl with hblank | ⟨bl, c, tl, rfl, hbl, hc, htl⟩
    · have hbl : ∀ c ∈ l, isBlank c = true := List.all_eq_true.mp hblank
      have hin : inHelp k l = true := inHelp_blank hblank
      rw [List.find?_cons_of_neg (by simp [hblank])] at hfind
      rw [Scans, helpLines_cons hin, afterHelp_cons hin, shifted, if_pos hblank, List.nil_append]
      obtain ⟨l', ls, rfl⟩ : ∃ l' ls', ls = l' :: ls' := by
        cases ls with
        | nil => cases hfind
        | cons l' ls => exact ⟨l', ls, rfl⟩
      have hhead : (unlines (l' :: ls)).head?.any isInk = false := by
        by_contra hink
        obtain ⟨hout, -⟩ := out_of_first_column hk (Bool.not_eq_false _ ▸ hink)
        rw [inHelp, Bool.or_eq_false_iff, decide_eq_false_iff_not] at hout
        rw [List.find?_cons_of_pos (by simp [hout.1])] at hfind
        exact hout.2 (Option.some.inj hfind ▸ hk₀.ge)
      rw [afterLine] at hn ⊢
      · obtain ⟨n, rfl⟩ : ∃ m, n = m + 1 := ⟨n - 1, by omega⟩
        rw [scanHelp_newline hbl hhead]
        simp only [List.length_append, List.length_cons] at hn
        have hnext := ih hrest hfind n ({ st with lineno := st.lineno + 1 }.append ['\n']) hst
          (by omega)
        rw [Scans] at hnext
        simpa [HelpState.append] using hnext
      · exact List.cons_ne_nil l' ls
      · exact List.cons_ne_nil l' ls
    · rw [List.find?_cons_of_pos (by simp [isBlankLine_ink hc])] at hfind
      obtain rfl := Option.some.inj hfind
      rw [indentOf_ink hbl hc] at hk₀
      have hne : bl ≠ [] := by
        rintro rfl
        subst hk₀
        exact absurd hk (by decide)
      have hin : inHelp k (bl ++ c :: tl) = true := by
        rw [inHelp_ink hbl hc, hk₀]
        exact decide_eq_true le_rfl
      obtain ⟨n, rfl⟩ : ∃ m, n = m + 1 := ⟨n - 1, by omega⟩
      rw [List.append_assoc, List.cons_append, Scans, scanHelp_indent hbl hne (by simp [hc]),
        if_pos hst, afterHelp_cons hin, helpLines_cons hin, shifted_ink hbl hc, hk₀, Nat.sub_self]
      have hpos := List.length_pos_iff.mpr hne
      have hline := scans_ink hk hc htl (fun h => scansLines hk h hrest) n { st with lastTs := k }
        (if_pos hst)
        (by simp only [List.length_append, List.length_cons] at hn ⊢; omega)
      rw [Scans] at hline
      simpa [List.append_assoc] using hline

end Lines

/-- The text of a help block is the text of its lines, and the scan goes on after it. -/
theorem helpText_eq (str : Text) (lineno : ℕ) {l : Text}
    (hfirst : (lines str).find? (!isBlankLine ·) = some l) (hk : 1 ≤ indentOf l) :
    ∃ st, helpText str lineno = some (st, afterHelp (indentOf l) (lines str)) ∧
      stripEnd st.text = stripEnd (helpLines (indentOf l) (lines str)) := by
  have h := scans_first hk (newline_not_mem_lines str) hfirst rfl (str.length + 1)
    ⟨[], 0, 0, lineno⟩ rfl (by rw [unlines_lines]; exact Nat.lt_succ_self _)
  rwa [unlines_lines] at h

/-- A help text of two lines at the second column, with a blank line between them. -/
def sampleHelp : Text := [' ', ' ', 'a', '\n', '\t', '\n', ' ', ' ', ' ', 'b', '\n', 'c']

theorem helpText_sampleHelp :
    ∃ st, helpText sampleHelp 1 = some (st, ['c']) ∧
      stripEnd st.text = stripEnd ['a', '\n', '\n', ' ', 'b', '\n'] :=
  helpText_eq sampleHelp 1 (l := [' ', ' ', 'a']) (by decide) (by decide)

end Grasshopper.Kconfig
