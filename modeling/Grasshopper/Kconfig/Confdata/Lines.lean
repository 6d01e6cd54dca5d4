import Grasshopper.Kconfig.Confdata.Read
import Grasshopper.Kconfig.Confdata.Write
import Grasshopper.Kconfig.Zconf.Param

/-! # The lines that `conf_write` prints, read by `conf_read`

Each line is read in one piece, and says about its symbol what it was printed for. The comments say
nothing.
-/

namespace Grasshopper.Kconfig

/-! ## A text falls into its lines -/

theorem fgets_line {line rest : Text} {n : ℕ} (hline : '\n' ∉ line) (hlen : line.length < n) :
    fgets n (line ++ '\n' :: rest) = (line ++ ['\n'], rest) := by
  induction line generalizing n with
  | nil =>
    obtain ⟨n, rfl⟩ := Nat.exists_eq_add_one_of_ne_zero (Nat.ne_of_gt hlen)
    exact if_pos rfl
  | cons c line ih =>
    obtain ⟨n, rfl⟩ := Nat.exists_eq_add_one_of_ne_zero (Nat.ne_zero_of_lt hlen)
    rw [List.mem_cons, not_or] at hline
    have hrest := ih hline.2 (Nat.lt_of_succ_lt_succ hlen)
    rw [List.cons_append, fgets, if_neg (Ne.symm hline.1), hrest]
    rfl

theorem length_fgets (n : ℕ) (c : Char) (text : Text) :
    (fgets (n + 1) (c :: text)).2.length ≤ text.length := by
  have happend := congrArg List.length (fgets_append (n + 1) (c :: text))
  have hpos : 0 < (fgets (n + 1) (c :: text)).1.length := by
    rw [fgets]
    split_ifs <;> simp
  rw [List.length_append, List.length_cons] at happend
  omega

theorem readLinesAux_nil (n : ℕ) : readLinesAux n [] = [] := by cases n <;> rfl

theorem readLinesAux_cons (n : ℕ) (c : Char) (text : Text) :
    readLinesAux (n + 1) (c :: text) =
      (fgets 1023 (c :: text)).1 :: readLinesAux n (fgets 1023 (c :: text)).2 := rfl

/-- More fuel changes nothing. -/
theorem readLinesAux_fuel (n k : ℕ) {text : Text} (h : text.length ≤ n) :
    readLinesAux (n + k) text = readLinesAux n text := by
  induction n generalizing text with
  | zero =>
    obtain rfl := List.length_eq_zero_iff.mp (Nat.le_zero.mp h)
    rw [readLinesAux_nil, readLinesAux_nil]
  | succ n ih =>
    cases text with
    | nil => rw [readLinesAux_nil, readLinesAux_nil]
    | cons c text =>
      have hrest : (fgets 1023 (c :: text)).2.length ≤ n :=
        (length_fgets 1022 c text).trans (Nat.le_of_succ_le_succ h)
      rw [Nat.add_right_comm, readLinesAux_cons, readLinesAux_cons, ih hrest]

theorem readLines_line {line : Text} (hline : '\n' ∉ line) (hlen : line.length < 1023)
    (rest : Text) : readLines (line ++ '\n' :: rest) = (line ++ ['\n']) :: readLines rest := by
  have hfgets : fgets 1023 (line ++ '\n' :: rest) = (line ++ ['\n'], rest) := fgets_line hline hlen
  have hlength : (line ++ '\n' :: rest).length = rest.length + line.length + 1 := by
    simp only [List.length_append, List.length_cons]
    omega
  cases hlines : line ++ '\n' :: rest with
  | nil => simp at hlines
  | cons c text =>
    rw [readLines, ← hlines, hlength, hlines, readLinesAux_cons, ← hlines, hfgets,
      readLinesAux_fuel _ _ le_rfl, readLines]

/-! ## What a line says -/

theorem cString_of_notMem {str : Text} (h : '\x00' ∉ str) : cString str = str := by
  rw [cString, List.takeWhile_eq_self_iff]
  intro c hc
  rw [decide_eq_true_eq]
  rintro rfl
  exact h hc

theorem splitAt?_append {c : Char} {name : Text} (h : c ∉ name) (rest : Text) :
    splitAt? c (name ++ c :: rest) = some (name, rest) := by
  have hname : ∀ x ∈ name, decide (x ≠ c) = true := by
    intro x hx
    rw [decide_eq_true_eq]
    rintro rfl
    exact h hx
  rw [splitAt?, List.dropWhile_append_of_pos hname, List.takeWhile_append_of_pos hname]
  simp

theorem parseLine_comment {line name rest : Text} (h : splitAt? ' ' line = some (name, rest)) :
    parseLine ('#' :: ' ' :: line) =
      if rest.take 10 = "is not set".toList then some (.unset name) else none := by
  simp only [parseLine, h]

theorem parseLine_assignment {line name value : Text} {c : Char} (hc : 'A' ≤ c ∧ c ≤ 'Z')
    (h : splitAt? '=' (c :: line) = some (name, value)) :
    parseLine (c :: line) = some (.set name (value.takeWhile (· ≠ '\n'))) := by
  have hsharp : c ≠ '#' := by
    rintro rfl
    exact absurd hc (by decide)
  simp [parseLine, hsharp, hc, h]

/-- A name that `conf_read` can find at the beginning of a line. -/
structure Findable (name : Text) : Prop where
  capital : ∃ c ∈ name.head?, 'A' ≤ c ∧ c ≤ 'Z'
  chars : ∀ c ∈ name, isNameChar c = true

instance (name : Text) : Decidable (Findable name) :=
  decidable_of_iff ((name.head?.any fun c => decide ('A' ≤ c ∧ c ≤ 'Z')) = true ∧
      name.all isNameChar = true)
    ⟨fun h => ⟨by simpa [Option.any_eq_true] using h.1, List.all_eq_true.mp h.2⟩,
      fun h => ⟨by simpa [Option.any_eq_true] using h.capital, List.all_eq_true.mpr h.chars⟩⟩

namespace Findable
variable {name : Text} (h : Findable name)
include h

theorem notMem {c : Char} (hc : isNameChar c = false) : c ∉ name := fun hmem => by
  simp [h.chars c hmem] at hc

theorem parse_unset : parseLine ('#' :: ' ' :: (name ++ " is not set\n".toList)) =
    some (.unset name) := by
  have hsplit : splitAt? ' ' (name ++ " is not set\n".toList) = some (name, "is not set\n".toList) :=
    splitAt?_append (h.notMem (by decide)) _
  rw [parseLine_comment hsplit]
  exact if_pos rfl

theorem parse_set {value : Text} (hvalue : '\n' ∉ value) :
    parseLine (name ++ '=' :: (value ++ ['\n'])) = some (.set name value) := by
  have hsplit : splitAt? '=' (name ++ '=' :: (value ++ ['\n'])) = some (name, value ++ ['\n']) :=
    splitAt?_append (h.notMem (by decide)) _
  have hstop : (value ++ ['\n']).takeWhile (· ≠ '\n') = value := by
    rw [List.takeWhile_append_of_pos]
    · simp
    · intro c hc
      rw [decide_eq_true_eq]
      rintro rfl
      exact hvalue hc
  obtain ⟨c, hc, hcapital⟩ := h.capital
  obtain ⟨rest, rfl⟩ : ∃ rest, name = c :: rest := by
    cases name with
    | nil => simp at hc
    | cons d rest => exact ⟨rest, by simpa using hc⟩
  rw [List.cons_append] at hsplit ⊢
  rw [parseLine_assignment hcapital hsplit, hstop]

end Findable

theorem unescape_escape (str rest : Text) : unescape (escape str ++ '"' :: rest) = some str := by
  induction str with
  | nil => rfl
  | cons c str ih =>
    have hcons : escape (c :: str) = (if c = '"' ∨ c = '\\' then ['\\', c] else [c]) ++ escape str :=
      rfl
    rw [hcons]
    split_ifs with hc
    · simp only [List.cons_append, List.nil_append, unescape, ih, Option.map_some]
    · rw [not_or] at hc
      rw [List.cons_append, List.nil_append, List.cons_append, unescape, ih, Option.map_some]
      · exact fun heq => hc.1 heq
      · exact fun x y heq => absurd heq hc.2
      · exact fun heq => absurd heq hc.2

theorem notMem_escape {str : Text} {c : Char} (hc : c ≠ '\\') (h : c ∉ str) : c ∉ escape str := by
  intro hmem
  obtain ⟨x, hx, hcx⟩ := List.mem_flatMap.mp hmem
  have hne : c ≠ x := by
    rintro rfl
    exact h hx
  split_ifs at hcx <;> simp_all

/-! ## Lines of symbols -/

/-- The value that the line of a symbol gives to it. -/
def ownLine (cfg : Config) (ρ : Sym → SymbolValue) (s : Sym) (D : UserData) : UserData :=
  (if (cfg.type s).isLogic then D.setTri s (ρ s).tri
    else D.setVal s (.text (ρ s).val.toText)).setNew s false

/-- What the line of a symbol does to the user values. -/
def lineData (cfg : Config) (ρ : Sym → SymbolValue) (s : Sym) (D : UserData) : UserData :=
  readChoice cfg s (ownLine cfg ρ s D)

/-- The line of a symbol with a value can be read back. -/
structure Readable (cfg : Config) (s : Sym) (v : SymbolValue) : Prop where
  found : ∃ n, s = .config n ∧ Findable n.text
  mem : s ∈ cfg.symbols
  typed : cfg.type s ≠ .unknown
  tristate : v.tri = .mod → cfg.type s = .tristate
  text : cfg.type s = .string → '\n' ∉ v.val.toText ∧ '\x00' ∉ v.val.toText
  number : cfg.type s = .int ∨ cfg.type s = .hex → symStringValid (cfg.type s) v.val.toText = true
  short : (symbolLine (cfg.type s) (s.name?.getD []) v).length ≤ 1023

instance decidableFound : (s : Sym) → Decidable (∃ n, s = .config n ∧ Findable n.text)
  | .config n => decidable_of_iff (Findable n.text)
      ⟨fun h => ⟨n, rfl, h⟩, fun ⟨_, hn, h⟩ => Sym.config.inj hn ▸ h⟩
  | .yes | .mod | .no | .const _ | .choice _ => .isFalse fun ⟨_, h, _⟩ => nomatch h

instance (cfg : Config) (s : Sym) (v : SymbolValue) : Decidable (Readable cfg s v) :=
  decidable_of_iff ((∃ n, s = .config n ∧ Findable n.text) ∧ s ∈ cfg.symbols ∧
      cfg.type s ≠ .unknown ∧ (v.tri = .mod → cfg.type s = .tristate) ∧
      (cfg.type s = .string → '\n' ∉ v.val.toText ∧ '\x00' ∉ v.val.toText) ∧
      (cfg.type s = .int ∨ cfg.type s = .hex → symStringValid (cfg.type s) v.val.toText = true) ∧
      (symbolLine (cfg.type s) (s.name?.getD []) v).length ≤ 1023)
    ⟨fun ⟨h₁, h₂, h₃, h₄, h₅, h₆, h₇⟩ => ⟨h₁, h₂, h₃, h₄, h₅, h₆, h₇⟩,
      fun ⟨h₁, h₂, h₃, h₄, h₅, h₆, h₇⟩ => ⟨h₁, h₂, h₃, h₄, h₅, h₆, h₇⟩⟩

/-- No character of a number ends a line or a string. -/
def isNumberChar (c : Char) : Bool := isXDigit c || c == '-' || c == 'x' || c == 'X'

theorem isNumberChar_of_isDigit {c : Char} (h : isDigit c = true) : isNumberChar c = true := by
  simp [isNumberChar, isXDigit, h]

theorem chars_of_intValid {str : Text} (h : intValid str = true) :
    ∀ c ∈ str, isNumberChar c = true := by
  have digits {c : Char} {rest : Text} (hc : isDigit c = true) (hrest : rest.all isDigit = true) :
      ∀ x ∈ c :: rest, isNumberChar x = true := by
    rw [List.forall_mem_cons]
    rw [List.all_eq_true] at hrest
    exact ⟨isNumberChar_of_isDigit hc, fun x hx => isNumberChar_of_isDigit (hrest x hx)⟩
  unfold intValid at h
  dsimp only at h
  split at h
  · cases h
  · rename_i c rest hstr
    simp only [Bool.and_eq_true] at h
    have hall := digits h.1.1 h.2
    split at hstr
    · rw [List.forall_mem_cons, hstr]
      exact ⟨rfl, hall⟩
    · rwa [hstr]

theorem chars_of_hexValid {str : Text} (h : hexValid str = true) :
    ∀ c ∈ str, isNumberChar c = true := by
  have main (str : Text) (h : (!str.isEmpty && str.all isXDigit) = true) :
      ∀ c ∈ str, isNumberChar c = true := by
    simp only [Bool.and_eq_true, List.all_eq_true] at h
    exact fun c hc => by simp [isNumberChar, h.2 c hc]
  unfold hexValid skipHexPrefix at h
  split at h
  · exact fun c hc => by
      rcases List.mem_cons.mp hc with rfl | hc
      · rfl
      rcases List.mem_cons.mp hc with rfl | hc
      · rfl
      · exact main _ h c hc
  · exact fun c hc => by
      rcases List.mem_cons.mp hc with rfl | hc
      · rfl
      rcases List.mem_cons.mp hc with rfl | hc
      · rfl
      · exact main _ h c hc
  · exact main _ h

theorem notMem_of_symStringValid {type : SymType} {str : Text} (ht : type = .int ∨ type = .hex)
    (h : symStringValid type str = true) {c : Char} (hc : isNumberChar c = false) : c ∉ str := by
  intro hmem
  have hchars : ∀ c ∈ str, isNumberChar c = true := by
    rcases ht with rfl | rfl
    · exact chars_of_intValid h
    · exact chars_of_hexValid h
  simp [hchars c hmem] at hc

/-- A text that ends in its only newline, and in no string before. -/
structure IsLine (line : Text) : Prop where
  exists_body : ∃ body, line = body ++ ['\n'] ∧ '\n' ∉ body ∧ '\x00' ∉ body

theorem IsLine.cString {line : Text} (h : IsLine line) : cString line = line := by
  obtain ⟨body, rfl, -, hzero⟩ := h.exists_body
  exact cString_of_notMem (by simp [hzero])

theorem IsLine.readLines {line : Text} (h : IsLine line) (hlen : line.length ≤ 1023) (rest : Text) :
    readLines (line ++ rest) = line :: readLines rest := by
  obtain ⟨body, rfl, hbody, -⟩ := h.exists_body
  rw [List.append_assoc]
  refine readLines_line hbody ?_ rest
  rw [List.length_append] at hlen
  exact Nat.lt_of_succ_le hlen

namespace Readable
variable {cfg : Config} {s : Sym} {ρ : Sym → SymbolValue} (h : Readable cfg s (ρ s))
include h

theorem isLine : IsLine (symbolLine (cfg.type s) (s.name?.getD []) (ρ s)) := by
  obtain ⟨n, rfl, hname⟩ := h.found
  have hend : '\n' ∉ n.text := hname.notMem (by decide)
  have hnul : '\x00' ∉ n.text := hname.notMem (by decide)
  refine ⟨?_⟩
  simp only [Sym.name?, Option.getD_some]
  cases hty : cfg.type (.config n) with
  | unknown => exact absurd hty h.typed
  | boolean | tristate =>
    cases hv : (ρ (.config n)).tri
    · exact ⟨"# ".toList ++ n.text ++ " is not set".toList, by simp [symbolLine, triLine, hv],
        by simp [hend], by simp [hnul]⟩
    · exact ⟨n.text ++ "=m".toList, by simp [symbolLine, triLine, hv], by simp [hend],
        by simp [hnul]⟩
    · exact ⟨n.text ++ "=y".toList, by simp [symbolLine, triLine, hv], by simp [hend],
        by simp [hnul]⟩
  | string =>
    obtain ⟨hnewline, hzero⟩ := h.text hty
    exact ⟨n.text ++ "=\"".toList ++ escape (ρ (.config n)).val.toText ++ ['"'],
      by simp [symbolLine, stringLine],
      by simp [hend, notMem_escape (by decide) hnewline],
      by simp [hnul, notMem_escape (by decide) hzero]⟩
  | int | hex =>
    have hvalid := h.number (by simp [hty])
    have hnewline : '\n' ∉ (ρ (.config n)).val.toText :=
      notMem_of_symStringValid (by simp [hty]) hvalid (by decide)
    have hzero : '\x00' ∉ (ρ (.config n)).val.toText :=
      notMem_of_symStringValid (by simp [hty]) hvalid (by decide)
    exact ⟨n.text ++ "=".toList ++ (ρ (.config n)).val.toText, by simp [symbolLine, numberLine],
      by simp [hend, hnewline], by simp [hnul, hzero]⟩

theorem symFind : symFind cfg (s.name?.getD []) = some s := by
  obtain ⟨n, rfl, -⟩ := h.found
  have hlookup : Sym.lookup n.text false = .config n := by
    simp [Sym.lookup, n.free.1, n.free.2.1, n.free.2.2]
  simp only [Kconfig.symFind, Sym.name?, Option.getD_some, hlookup]
  exact if_pos (.inr h.mem)

/-- The line of a symbol gives it its value. -/
theorem readLine (D : UserData) :
    readLine cfg D (symbolLine (cfg.type s) (s.name?.getD []) (ρ s)) = .ok (lineData cfg ρ s D) := by
  have hfind := h.symFind
  have hcstring := h.isLine.cString
  obtain ⟨n, rfl, hname⟩ := h.found
  simp only [Sym.name?, Option.getD_some] at hfind hcstring ⊢
  have set (value : Text) (D' : UserData) (hvalue : '\n' ∉ value)
      (hD' : lineValue cfg (.config n) value D = .ok D')
      (hdata : lineData cfg ρ (.config n) D = readChoice cfg (.config n) D')
      (hline : symbolLine (cfg.type (.config n)) n.text (ρ (.config n)) =
        n.text ++ '=' :: (value ++ ['\n'])) :
      Kconfig.readLine cfg D (symbolLine (cfg.type (.config n)) n.text (ρ (.config n))) =
        .ok (lineData cfg ρ (.config n) D) := by
    rw [Kconfig.readLine, hcstring, hline, hname.parse_set hvalue]
    simp [hfind, hD', hdata, Except.map]
  have unset (hl : (cfg.type (.config n)).isLogic = true) (hno : (ρ (.config n)).tri = .no)
      (hline : symbolLine (cfg.type (.config n)) n.text (ρ (.config n)) =
        '#' :: ' ' :: (n.text ++ " is not set\n".toList)) :
      Kconfig.readLine cfg D (symbolLine (cfg.type (.config n)) n.text (ρ (.config n))) =
        .ok (lineData cfg ρ (.config n) D) := by
    rw [Kconfig.readLine, hcstring, hline, hname.parse_unset]
    simp [hfind, lineData, ownLine, hl, hno]
  cases hty : cfg.type (.config n) with
  | unknown => exact absurd hty h.typed
  | boolean | tristate =>
    rw [← hty]
    cases hv : (ρ (.config n)).tri with
    | no =>
      refine unset (by rw [hty]; rfl) hv ?_
      simp [hty, symbolLine, triLine, hv]
    | mod =>
      have htri := h.tristate hv
      refine set ['m'] ((D.setTri (.config n) .mod).setNew (.config n) false) (by decide) ?_ ?_ ?_
      · simp [lineValue, htri, lineTri]
      · simp [lineData, ownLine, htri, SymType.isLogic, hv]
      · simp [htri, symbolLine, triLine, hv]
    | yes =>
      refine set ['y'] ((D.setTri (.config n) .yes).setNew (.config n) false) (by decide) ?_ ?_ ?_
      · simp [lineValue, hty, lineTri]
      · simp [lineData, ownLine, hty, SymType.isLogic, hv]
      · simp [hty, symbolLine, triLine, hv]
  | string =>
    obtain ⟨hnewline, -⟩ := h.text hty
    rw [← hty]
    refine set ('"' :: (escape (ρ (.config n)).val.toText ++ ['"']))
      ((D.setVal (.config n) (.text (ρ (.config n)).val.toText)).setNew (.config n) false) ?_ ?_ ?_ ?_
    · simp [notMem_escape (by decide) hnewline]
    · simp [lineValue, hty, unescape_escape]
    · simp [lineData, ownLine, hty, SymType.isLogic]
    · simp [hty, symbolLine, stringLine]
  | int | hex =>
    have hvalid := h.number (by simp [hty])
    rw [← hty]
    refine set (ρ (.config n)).val.toText
      ((D.setVal (.config n) (.text (ρ (.config n)).val.toText)).setNew (.config n) false) ?_ ?_ ?_ ?_
    · exact notMem_of_symStringValid (by simp [hty]) hvalid (by decide)
    · rw [hty] at hvalid
      simp [lineValue, hty, hvalid]
    · simp [lineData, ownLine, hty, SymType.isLogic]
    · simp [hty, symbolLine, numberLine]

end Readable

/-! ## Pieces of a file -/

section Pieces
variable (cfg : Config)

/-- The loop over the lines of a text. -/
def readText (text : Text) (D : UserData) : Except ReadError UserData :=
  (readLines text).foldlM (readLine cfg) D

/-- A piece of a file, whatever follows it, does `f` to the user values. -/
def ReadsAs (text : Text) (f : UserData → UserData) : Prop :=
  ∀ rest D, readText cfg (text ++ rest) D = readText cfg rest (f D)

variable {cfg}

theorem ReadsAs.nil : ReadsAs cfg [] id := fun _ _ => rfl

theorem ReadsAs.append {a b : Text} {f g : UserData → UserData} (ha : ReadsAs cfg a f)
    (hb : ReadsAs cfg b g) : ReadsAs cfg (a ++ b) (g ∘ f) := by
  intro rest D
  rw [List.append_assoc, ha, hb]
  rfl

theorem IsLine.readsAs {line : Text} {f : UserData → UserData} (h : IsLine line)
    (hlen : line.length ≤ 1023) (hread : ∀ D, readLine cfg D line = .ok (f D)) :
    ReadsAs cfg line f := by
  intro rest D
  rw [readText, h.readLines hlen, List.foldlM_cons, hread]
  rfl

/-- A line that says nothing. -/
theorem IsLine.readsAs_id {line : Text} (h : IsLine line) (hlen : line.length ≤ 1023)
    (hread : parseLine line = none) : ReadsAs cfg line id := by
  refine h.readsAs hlen fun D => ?_
  rw [readLine, h.cString, hread]
  rfl

/-- A title that is read as a comment. -/
structure SilentTitle (str : Text) : Prop where
  newline : '\n' ∉ str
  nul : '\x00' ∉ str
  short : str.length ≤ 1020
  silent : parseLine ('#' :: ' ' :: (str ++ ['\n'])) = none

theorem SilentTitle.readsAs {str : Text} (h : SilentTitle str) :
    ReadsAs cfg (titleLines str) id := by
  have hblank : ReadsAs cfg ['\n'] id :=
    IsLine.readsAs_id ⟨[], rfl, by decide, by decide⟩ (by decide) (by decide)
  have hsharp : ReadsAs cfg ['#', '\n'] id :=
    IsLine.readsAs_id ⟨['#'], rfl, by decide, by decide⟩ (by decide) (by decide)
  have hline : IsLine ('#' :: ' ' :: (str ++ ['\n'])) :=
    ⟨'#' :: ' ' :: str, rfl, by simp [h.newline], by simp [h.nul]⟩
  have hlen : ('#' :: ' ' :: (str ++ ['\n'])).length ≤ 1023 := by
    have := h.short
    simp only [List.length_cons, List.length_append, List.length_nil]
    omega
  have htitle : titleLines str =
      ['\n'] ++ ['#', '\n'] ++ ('#' :: ' ' :: (str ++ ['\n'])) ++ ['#', '\n'] := by
    have hfirst : "\n#\n# ".toList = ['\n', '#', '\n', '#', ' '] := by decide
    have hlast : "\n#\n".toList = ['\n', '#', '\n'] := by decide
    rw [titleLines, hfirst, hlast]
    simp only [List.cons_append, List.nil_append, List.append_assoc]
  rw [htitle]
  exact ((hblank.append hsharp).append (hline.readsAs_id hlen h.silent)).append hsharp

theorem fileHeader_readsAs : ReadsAs cfg fileHeader id := by
  have hsharp : ReadsAs cfg ['#', '\n'] id :=
    IsLine.readsAs_id ⟨['#'], rfl, by decide, by decide⟩ (by decide) (by decide)
  have hline : ReadsAs cfg "# Automatically generated make config: don't edit\n".toList id :=
    IsLine.readsAs_id ⟨"# Automatically generated make config: don't edit".toList, by decide,
      by decide, by decide⟩ (by decide) (by decide)
  have hheader : fileHeader =
      ['#', '\n'] ++ "# Automatically generated make config: don't edit\n".toList ++ ['#', '\n'] := by
    decide
  rw [hheader]
  exact (hsharp.append hline).append hsharp

theorem Readable.readsAs {s : Sym} {ρ : Sym → SymbolValue} (h : Readable cfg s (ρ s)) :
    ReadsAs cfg (symbolLine (cfg.type s) (s.name?.getD []) (ρ s)) (lineData cfg ρ s) :=
  h.isLine.readsAs h.short h.readLine

end Pieces

end Grasshopper.Kconfig
