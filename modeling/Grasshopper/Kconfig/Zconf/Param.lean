import Grasshopper.Library.Flex
import Grasshopper.Kconfig.Expr.Print

/-! # The rest of a line in `zconf.l`

After its first word a line is read in the start condition `PARAM`. The text of an expression falls
into the tokens it was printed from.
-/

namespace Grasshopper.Kconfig

/-! ## The rules -/

inductive ParamToken where
  | and | or | openParen | closeParen | not | equal | unequal | ifWord | onWord | eol
  | word (text : Text)
  | wordQuote (text : Text)
deriving DecidableEq, Repr

/-- `{n}` -/
def isNameChar (c : Char) : Bool := c.isAlphanum || c == '_'

/-- `{n}` and the characters of a path. -/
def isWordChar (c : Char) : Bool := isNameChar c || c == '-' || c == '/' || c == '.'

/-- What is done with a match in `<PARAM>`. -/
inductive ParamRule where
  | token (t : ParamToken) | word | quote | newline | skip

/-- A pattern of fixed characters. -/
def literalRule {α : Type} (str : Text) (action : α) : Flex.Rule α :=
  ⟨str.map fun c => .one (· == c), [], action⟩

def wordRule : Flex.Rule ParamRule := ⟨[.one isWordChar, .many isWordChar], [], .word⟩

/-- The patterns of `<PARAM>`, without the one for the end of the file. -/
def paramRules : List (Flex.Rule ParamRule) :=
  [literalRule ['&', '&'] (.token .and),
    literalRule ['|', '|'] (.token .or),
    literalRule ['('] (.token .openParen),
    literalRule [')'] (.token .closeParen),
    literalRule ['!'] (.token .not),
    literalRule ['='] (.token .equal),
    literalRule ['!', '='] (.token .unequal),
    literalRule ['i', 'f'] (.token .ifWord),
    literalRule ['o', 'n'] (.token .onWord),
    ⟨[.one fun c => c == '"' || c == '\''], [], .quote⟩,
    literalRule ['\n'] .newline,
    literalRule ['-', '-', '-'] .skip,
    wordRule,
    ⟨[.one (· == '#'), .many (· != '\n')], [], .skip⟩,
    literalRule ['\\', '\n'] .skip,
    ⟨[.one (· != '\n')], [], .skip⟩]

/-- What is done with a match in `<STRING>`. The text goes on with the match from a position. -/
inductive StringRule where
  | last (pos : ℕ) | more (pos : ℕ) | quote | newline

/-- `[^'"\\\n]` -/
def isPlain (c : Char) : Bool := !(c == '\'' || c == '"' || c == '\\' || c == '\n')

/-- The patterns of `<STRING>`, without the one for the end of the file. The patterns `\\.?` are in
two parts, with the character and without it. -/
def stringRules : List (Flex.Rule StringRule) :=
  [⟨[.one isPlain, .many isPlain], [.one (· == '\n')], .last 0⟩,
    ⟨[.one isPlain, .many isPlain], [], .more 0⟩,
    ⟨[.one (· == '\\'), .one (· != '\n')], [.one (· == '\n')], .last 1⟩,
    ⟨[.one (· == '\\')], [.one (· == '\n')], .last 1⟩,
    ⟨[.one (· == '\\'), .one (· != '\n')], [], .more 1⟩,
    ⟨[.one (· == '\\')], [], .more 1⟩,
    ⟨[.one fun c => c == '"' || c == '\''], [], .quote⟩,
    literalRule ['\n'] .newline]

/-- The start condition, in `STRING` with the quote it began with and the text so far. -/
inductive Start where
  | param
  | string (str : Char) (text : Text)

/-- The tokens of a line up to its end or that of the file, with fuel for their number. After the
quoted text that ends a line, the start condition is still `STRING`. -/
def scanParam : ℕ → Start → Text → Option (List ParamToken)
  | 0, _, _ => none
  | n + 1, .param, input =>
    match Flex.select paramRules input with
    | none => some []
    | some (rule, _, yyleng) =>
      let yytext := input.take yyleng
      let rest := input.drop yyleng
      match rule with
      | .token t => (scanParam n .param rest).map (t :: ·)
      | .word => (scanParam n .param rest).map (.word yytext :: ·)
      | .quote => scanParam n (.string (yytext.headD '"') []) rest
      | .newline => some [.eol]
      | .skip => scanParam n .param rest
  | n + 1, .string str text, input =>
    match Flex.select stringRules input with
    | none => some []
    | some (rule, _, yyleng) =>
      let yytext := input.take yyleng
      let rest := input.drop yyleng
      match rule with
      | .last pos =>
        (scanParam n (.string str (text ++ yytext.drop pos)) rest).map
          (.wordQuote (text ++ yytext.drop pos) :: ·)
      | .more pos => scanParam n (.string str (text ++ yytext.drop pos)) rest
      | .quote =>
        if yytext = [str] then (scanParam n .param rest).map (.wordQuote text :: ·)
        else scanParam n (.string str (text ++ yytext)) rest
      | .newline => some [.eol]

/-- The tokens of the rest of a line. -/
def paramTokens (input : Text) : Option (List ParamToken) :=
  scanParam (input.length + 1) .param input

/-! ## Matches -/

/-- A name of symbols that is no keyword of a line. -/
structure IsName (name : Text) : Prop where
  ne_nil : name ≠ []
  chars : ∀ c ∈ name, isNameChar c = true
  ne_if : name ≠ ['i', 'f']
  ne_on : name ≠ ['o', 'n']

theorem isWordChar_of_isNameChar {c : Char} (h : isNameChar c = true) : isWordChar c = true := by
  simp [isWordChar, h]

theorem beq_eq_false_of_isNameChar {c d : Char} (hc : isNameChar c = true)
    (hd : isNameChar d = false) : (c == d) = false := by
  rw [beq_eq_false_iff_ne]
  rintro rfl
  exact Bool.false_ne_true (hd.symm.trans hc)

section Match
variable {α : Type} {action : α} {str w input rest : Text} {c : Char} {k : ℕ × ℕ}

theorem mem_matchLength_literal {n : ℕ}
    (h : n ∈ Flex.matchLength (str.map fun c => Flex.Item.one (· == c)) input) :
    str <+: input ∧ n = str.length := by
  induction str generalizing input n with
  | nil => exact ⟨List.nil_prefix, (Option.some.inj h).symm⟩
  | cons d str ih =>
    cases input with
    | nil => cases h
    | cons c input =>
      cases hc : c == d with
      | false =>
        rw [List.map_cons, Flex.matchLength_one_none (p := (· == d)) hc] at h
        cases h
      | true =>
        rw [List.map_cons, Flex.matchLength_one (p := (· == d)) hc] at h
        obtain ⟨m, hm, rfl⟩ := Option.map_eq_some_iff.mp h
        obtain ⟨hpre, rfl⟩ := ih hm
        rw [eq_of_beq hc]
        exact ⟨List.cons_prefix_cons.mpr ⟨rfl, hpre⟩, rfl⟩

theorem mem_literalRule_matches (h : k ∈ (literalRule str action).matches input) :
    str <+: input ∧ k.1 = str.length := by
  rw [Flex.Rule.matches_of_context_nil rfl] at h
  obtain ⟨n, hn, rfl⟩ := Option.map_eq_some_iff.mp h
  exact mem_matchLength_literal hn

/-- A keyword that is not the whole word is shorter than it. -/
theorem length_lt_of_prefix (hpre : str <+: w ++ rest) (hstr : ∀ c ∈ str, isWordChar c = true)
    (hne : w ≠ str) (hrest : ∀ c ∈ rest.head?, isWordChar c = false) : str.length < w.length := by
  by_contra hle
  obtain ⟨u, rfl⟩ : w <+: str :=
    List.prefix_of_prefix_length_le (List.prefix_append w rest) hpre (Nat.not_lt.mp hle)
  cases u with
  | nil => exact hne (List.append_nil w).symm
  | cons c u =>
    obtain ⟨v, hv⟩ := (List.prefix_append_right_inj w).mp hpre
    have hc : isWordChar c = false := hrest c (by rw [← hv]; rfl)
    exact Bool.false_ne_true (hc.symm.trans (hstr c (by simp)))

theorem matches_eq_none {r : Flex.Rule α} {p : Char → Bool} {items : List Flex.Item}
    (hr : r.pattern = .one p :: items) (hc : p c = false) : r.matches (c :: input) = none := by
  rw [Flex.Rule.matches, hr, Flex.matchLength_one_none hc, Option.bind_none]

theorem wordRule_matches (hw : IsName w) (hrest : ∀ c ∈ rest.head?, isWordChar c = false) :
    wordRule.matches (w ++ rest) = some (w.length, w.length) := by
  have hchars : ∀ c ∈ w, isWordChar c = true := fun c hc =>
    isWordChar_of_isNameChar (hw.chars c hc)
  cases w with
  | nil => exact absurd rfl hw.ne_nil
  | cons c w =>
    rw [Flex.Rule.matches_of_context_nil rfl, wordRule, List.cons_append,
      Flex.matchLength_one (hchars c List.mem_cons_self),
      Flex.matchLength_many (fun d hd => hchars d (List.mem_cons_of_mem c hd)) hrest]
    simp

/-- A rule for other characters than those of names. -/
theorem literalRule_matches_eq_none {d : Char} (hc : isNameChar c = true)
    (hd : isNameChar d = false) : (literalRule (d :: str) action).matches (c :: input) = none :=
  matches_eq_none (p := (· == d)) rfl (beq_eq_false_of_isNameChar hc hd)

/-- Of the rules before that of a word, only the keywords take characters of names. -/
theorem matches_of_mem_take {q : Flex.Rule ParamRule} (hq : q ∈ paramRules.take 12)
    (hc : isNameChar c = true) :
    q = literalRule ['i', 'f'] (.token .ifWord) ∨ q = literalRule ['o', 'n'] (.token .onWord) ∨
      q.matches (c :: input) = none := by
  simp only [paramRules, List.take, List.mem_cons, List.not_mem_nil, or_false] at hq
  rcases hq with rfl | rfl | rfl | rfl | rfl | rfl | rfl | rfl | rfl | rfl | rfl | rfl
  case inr.inr.inr.inr.inr.inr.inr.inl => exact .inl rfl
  case inr.inr.inr.inr.inr.inr.inr.inr.inl => exact .inr (.inl rfl)
  case inr.inr.inr.inr.inr.inr.inr.inr.inr.inl =>
    refine .inr (.inr (matches_eq_none rfl ?_))
    rw [Bool.or_eq_false_iff]
    exact ⟨beq_eq_false_of_isNameChar hc rfl, beq_eq_false_of_isNameChar hc rfl⟩
  all_goals exact .inr (.inr (literalRule_matches_eq_none hc rfl))

/-- A rule after that of a word takes one character, if any. -/
theorem matches_of_mem_drop {q : Flex.Rule ParamRule} (hq : q ∈ paramRules.drop 13)
    (hc : isNameChar c = true) (hk : k ∈ q.matches (c :: input)) : k.1 = 1 := by
  simp only [paramRules, List.drop, List.mem_cons, List.not_mem_nil, or_false] at hq
  rcases hq with rfl | rfl | rfl
  · rw [matches_eq_none (p := (· == '#')) rfl (beq_eq_false_of_isNameChar hc rfl)] at hk
    cases hk
  · rw [literalRule_matches_eq_none hc rfl] at hk
    cases hk
  · rw [Flex.Rule.matches_of_context_nil rfl] at hk
    obtain ⟨n, hn, rfl⟩ := Option.map_eq_some_iff.mp hk
    cases hnl : c != '\n' with
    | false =>
      rw [Flex.matchLength_one_none (p := (· != '\n')) hnl] at hn
      cases hn
    | true =>
      rw [Flex.matchLength_one (p := (· != '\n')) hnl] at hn
      exact (Option.some.inj hn).symm

theorem select_word (hw : IsName w) (hrest : ∀ c ∈ rest.head?, isWordChar c = false) :
    Flex.select paramRules (w ++ rest) = some (.word, w.length, w.length) := by
  change Flex.select (paramRules.take 12 ++ wordRule :: paramRules.drop 13) (w ++ rest) = _
  obtain ⟨c, tl, rfl⟩ := List.exists_cons_of_ne_nil hw.ne_nil
  have hc : isNameChar c = true := hw.chars c List.mem_cons_self
  refine Flex.select_append_cons (wordRule_matches hw hrest) ?_ ?_
  · intro q hq k hk
    rcases matches_of_mem_take hq hc with rfl | rfl | hnone
    · obtain ⟨hpre, hlen⟩ := mem_literalRule_matches hk
      rw [hlen]
      have hword : ∀ c ∈ ['i', 'f'], isWordChar c = true :=
        List.forall_mem_cons.mpr ⟨rfl, List.forall_mem_singleton.mpr rfl⟩
      exact length_lt_of_prefix hpre hword hw.ne_if hrest
    · obtain ⟨hpre, hlen⟩ := mem_literalRule_matches hk
      rw [hlen]
      have hword : ∀ c ∈ ['o', 'n'], isWordChar c = true :=
        List.forall_mem_cons.mpr ⟨rfl, List.forall_mem_singleton.mpr rfl⟩
      exact length_lt_of_prefix hpre hword hw.ne_on hrest
    · rw [List.cons_append, hnone] at hk
      cases hk
  · intro q hq k hk
    rw [matches_of_mem_drop hq hc hk]
    exact Nat.le_add_left 1 tl.length

/-- `!` is a token of its own if no `=` follows. -/
theorem select_not (h : rest.head? ≠ some '=') :
    Flex.select paramRules ('!' :: rest) = some (.token .not, 1, 1) := by
  cases rest with
  | nil => rfl
  | cons c rest =>
    have hne : (c == '=') = false := by simpa using h
    simp only [paramRules, literalRule, wordRule, Flex.select, Flex.Rule.matches, List.map,
      Flex.matchLength, hne]
    rfl

end Match

/-! ## Lexes -/

/-- No word goes on with an input. -/
def Stops (input : Text) : Prop := ∀ c ∈ input.head?, isWordChar c = false

/-- The tokens of an input, with any fuel for its characters. -/
def Lexes (input : Text) (toks : List ParamToken) : Prop :=
  ∀ n, input.length < n → scanParam n .param input = some toks

theorem Lexes.paramTokens {input : Text} {toks : List ParamToken} (h : Lexes input toks) :
    paramTokens input = some toks := h _ (Nat.lt_succ_self _)

namespace Lexes
variable {w rest : Text} {toks : List ParamToken}

protected theorem nil : Lexes [] [] := fun n hn => by
  cases n with
  | zero => exact absurd hn (Nat.lt_irrefl 0)
  | succ n => rfl

theorem eol : Lexes ('\n' :: rest) [.eol] := fun n hn => by
  cases n with
  | zero => exact absurd hn (Nat.not_lt_zero _)
  | succ n => rfl

theorem blank (h : Lexes rest toks) : Lexes (' ' :: rest) toks := fun n hn => by
  cases n with
  | zero => exact absurd hn (Nat.not_lt_zero _)
  | succ n => exact h n (Nat.lt_of_succ_lt_succ hn)

theorem token (str : Text) (t : ParamToken) (hne : str ≠ []) (h : Lexes rest toks)
    (hsel : Flex.select paramRules (str ++ rest) = some (.token t, str.length, str.length)) :
    Lexes (str ++ rest) (t :: toks) := fun n hn => by
  cases n with
  | zero => exact absurd hn (Nat.not_lt_zero _)
  | succ n =>
    have hlen : rest.length < n := by
      have hpos := List.length_pos_iff.mpr hne
      rw [List.length_append] at hn
      omega
    simp only [scanParam, hsel, List.drop_left, h n hlen, Option.map_some]

theorem word (hw : IsName w) (hrest : Stops rest) (h : Lexes rest toks) :
    Lexes (w ++ rest) (.word w :: toks) := fun n hn => by
  cases n with
  | zero => exact absurd hn (Nat.not_lt_zero _)
  | succ n =>
    have hlen : rest.length < n := by
      have hpos := List.length_pos_iff.mpr hw.ne_nil
      rw [List.length_append] at hn
      omega
    simp only [scanParam, select_word hw hrest, List.drop_left, List.take_left, h n hlen,
      Option.map_some]

end Lexes

/-! ## What is printed -/

/-- The symbols with a plain name and the constants without quotes. -/
inductive Sym.Plain : Sym → Prop
  | yes : Plain .yes
  | mod : Plain .mod
  | no : Plain .no
  | config {name : Name} (h : IsName name.text) : Plain (.config name)

theorem Sym.Plain.isName {s : Sym} (h : s.Plain) : IsName (s.name?.getD []) := by
  cases h with
  | yes | mod | no => exact ⟨nofun, List.forall_mem_singleton.mpr rfl, nofun, nofun⟩
  | config h => exact h

/-- The symbol that `sym_lookup` finds for a name is the one that was printed. -/
theorem Sym.Plain.lookup_name {s : Sym} (h : s.Plain) : Sym.lookup (s.name?.getD []) false = s := by
  cases h with
  | yes | mod | no => rfl
  | @config name h =>
    obtain ⟨text, hy, hm, hn⟩ := name
    simp [name?, lookup, hy, hm, hn]

/-- The tokens of what is put in parentheses. -/
def bracketed (prevtoken t : ExprType) (toks : List ParamToken) : List ParamToken :=
  if 0 < exprCompareType prevtoken t then [.openParen] ++ toks ++ [.closeParen] else toks

/-- The token of a symbol that is printed. -/
def Sym.token (s : Sym) : ParamToken := .word (s.name?.getD [])

/-- The tokens of an expression that is printed. -/
def Expr.tokens : Expr → ExprType → List ParamToken
  | .symbol s, prevtoken => bracketed prevtoken .symbol [s.token]
  | .not e, prevtoken => bracketed prevtoken .not ([.not] ++ e.tokens .not)
  | .equal a b, prevtoken => bracketed prevtoken .equal [a.token, .equal, b.token]
  | .unequal a b, prevtoken => bracketed prevtoken .unequal [a.token, .unequal, b.token]
  | .or l r, prevtoken => bracketed prevtoken .or (l.tokens .or ++ [.or] ++ r.tokens .or)
  | .and l r, prevtoken => bracketed prevtoken .and (l.tokens .and ++ [.and] ++ r.tokens .and)

/-- Strings that make tokens, wherever they stand. -/
structure Prints (strs : List Text) (toks : List ParamToken) : Prop where
  lexes {rest : Text} {more : List ParamToken} (hrest : Stops rest) (h : Lexes rest more) :
    Lexes (strs.flatten ++ rest) (toks ++ more)
  head (rest : Text) : (strs.flatten ++ rest).head? ≠ some '='

namespace Prints
variable {strs strs' : List Text} {toks toks' : List ParamToken}

theorem parenthesized (h : Prints strs toks) (prevtoken t : ExprType) :
    Prints (parenthesized prevtoken t strs) (bracketed prevtoken t toks) := by
  by_cases hpos : 0 < exprCompareType prevtoken t
  · rw [Kconfig.parenthesized, bracketed, if_pos hpos, if_pos hpos]
    constructor
    · intro rest more _ hmore
      have hclose : Lexes (')' :: rest) (.closeParen :: more) := hmore.token [')'] _ nofun rfl
      have hbody := h.lexes (by simp [Stops]; decide) hclose
      have hopen : Lexes ('(' :: (strs.flatten ++ ')' :: rest)) (.openParen :: _) :=
        hbody.token ['('] .openParen nofun rfl
      simpa using hopen
    · intro rest
      simp
  · rw [Kconfig.parenthesized, bracketed, if_neg hpos, if_neg hpos]
    exact h

theorem symbol {s : Sym} (hs : s.Plain) : Prints [s.name?.getD []] [s.token] where
  lexes hrest h := by
    rw [List.flatten_singleton]
    exact h.word hs.isName hrest
  head rest := by
    obtain ⟨c, tl, hname⟩ := List.exists_cons_of_ne_nil hs.isName.ne_nil
    have hc : isNameChar c = true := hs.isName.chars c (by rw [hname]; exact List.mem_cons_self)
    rw [List.flatten_singleton, hname]
    intro heq
    rw [Option.some.inj heq] at hc
    exact absurd hc (by decide)

theorem not (h : Prints strs toks) : Prints ([['!']] ++ strs) ([.not] ++ toks) where
  lexes {rest more} hrest hmore :=
    (h.lexes hrest hmore).token ['!'] .not nofun (select_not (h.head rest))
  head rest := by simp

/-- A token that is printed between two other strings. -/
theorem between {op : Text} {t : ParamToken} (hstop : ∀ rest, Stops (op ++ rest))
    (hop : ∀ rest more, Lexes rest more → Lexes (op ++ rest) (t :: more))
    (h : Prints strs toks) (h' : Prints strs' toks') :
    Prints (strs ++ [op] ++ strs') (toks ++ [t] ++ toks') where
  lexes {rest more} hrest hmore := by
    have hboth := h.lexes (hstop (strs'.flatten ++ rest)) (hop _ _ (h'.lexes hrest hmore))
    simpa using hboth
  head rest := by
    have hhead := h.head (op ++ strs'.flatten ++ rest)
    simpa using hhead

end Prints

theorem stops_cons {c : Char} (h : isWordChar c = false) (rest : Text) : Stops (c :: rest) :=
  fun _ hd => Option.some.inj hd ▸ h

/-- The text of an expression falls into its tokens. -/
theorem Expr.prints (e : Expr) (he : ∀ s ∈ e.syms, s.Plain) (prevtoken : ExprType) :
    Prints (e.print prevtoken) (e.tokens prevtoken) := by
  induction e generalizing prevtoken with
  | symbol s =>
    have hs : s.Plain := he s List.mem_cons_self
    have hname : (Expr.symbol s).print prevtoken =
        parenthesized prevtoken .symbol [s.name?.getD []] := by cases hs <;> rfl
    rw [hname]
    exact (Prints.symbol hs).parenthesized prevtoken .symbol
  | not e ih => exact (ih he .not).not.parenthesized prevtoken .not
  | and l r ihl ihr =>
    have hop : ∀ rest more, Lexes rest more → Lexes (' ' :: '&' :: '&' :: ' ' :: rest)
        (.and :: more) := fun rest more h => (h.blank.token ['&', '&'] _ nofun rfl).blank
    have hl := ihl (fun s hs => he s (List.mem_append_left _ hs)) .and
    have hr := ihr (fun s hs => he s (List.mem_append_right _ hs)) .and
    exact (hl.between (fun _ => stops_cons rfl _) hop hr).parenthesized prevtoken .and
  | or l r ihl ihr =>
    have hop : ∀ rest more, Lexes rest more → Lexes (' ' :: '|' :: '|' :: ' ' :: rest)
        (.or :: more) := fun rest more h => (h.blank.token ['|', '|'] _ nofun rfl).blank
    have hl := ihl (fun s hs => he s (List.mem_append_left _ hs)) .or
    have hr := ihr (fun s hs => he s (List.mem_append_right _ hs)) .or
    exact (hl.between (fun _ => stops_cons rfl _) hop hr).parenthesized prevtoken .or
  | equal a b =>
    have hop : ∀ rest more, Lexes rest more → Lexes ('=' :: rest) (.equal :: more) :=
      fun rest more h => h.token ['='] _ nofun rfl
    have ha := Prints.symbol (he a List.mem_cons_self)
    have hb := Prints.symbol (he b (List.mem_cons_of_mem a List.mem_cons_self))
    exact (ha.between (fun _ => stops_cons rfl _) hop hb).parenthesized prevtoken .equal
  | unequal a b =>
    have hop : ∀ rest more, Lexes rest more → Lexes ('!' :: '=' :: rest) (.unequal :: more) :=
      fun rest more h => h.token ['!', '='] _ nofun rfl
    have ha := Prints.symbol (he a List.mem_cons_self)
    have hb := Prints.symbol (he b (List.mem_cons_of_mem a List.mem_cons_self))
    exact (ha.between (fun _ => stops_cons rfl _) hop hb).parenthesized prevtoken .unequal

/-- The tokens of an expression at the end of a line, or of the file. -/
theorem lexes_exprText {e : Expr} (he : ∀ s ∈ e.syms, s.Plain) {rest : Text}
    {more : List ParamToken} (hrest : Stops rest) (h : Lexes rest more) :
    Lexes (exprText e ++ rest) (e.tokens .none ++ more) := (e.prints he .none).lexes hrest h

end Grasshopper.Kconfig
