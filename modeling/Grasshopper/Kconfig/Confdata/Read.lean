import Grasshopper.Kconfig.Symbol.Set

/-! # `conf_read` of `confdata.c` -/

namespace Grasshopper.Kconfig

/-! ## Lines -/

/-- `fgets` with room for `n` characters. -/
def fgets : ℕ → Text → Text × Text
  | 0, text => ([], text)
  | _ + 1, [] => ([], [])
  | n + 1, c :: text =>
    if c = '\n' then ([c], text)
    else
      let (line, rest) := fgets n text
      (c :: line, rest)

theorem fgets_append (n : ℕ) (text : Text) : (fgets n text).1 ++ (fgets n text).2 = text := by
  induction n generalizing text with
  | zero => rfl
  | succ n ih =>
    cases text with
    | nil => rfl
    | cons c text =>
      unfold fgets
      split_ifs
      · rfl
      · simpa using ih text

/-- What the loop over `fgets(line, 1024, in)` reads, with fuel for the characters. -/
def readLinesAux : ℕ → Text → List Text
  | 0, _ => []
  | fuel + 1, text =>
    match text with
    | [] => []
    | _ => (fgets 1023 text).1 :: readLinesAux fuel (fgets 1023 text).2

/-- The pieces of a file. A line of more than 1023 characters is read in several pieces. -/
def readLines (text : Text) : List Text := readLinesAux text.length text

/-- The string that starts at the beginning of a buffer. -/
def cString (buffer : Text) : Text := buffer.takeWhile (· ≠ '\x00')

/-- What a line says. -/
inductive Assignment where
  | unset (name : Text)
  | set (name value : Text)
deriving DecidableEq

/-- The part of a string before a character, and what follows it. -/
def splitAt? (c : Char) (str : Text) : Option (Text × Text) :=
  match str.dropWhile (· ≠ c) with
  | [] => none
  | _ :: rest => some (str.takeWhile (· ≠ c), rest)

/-- The switch over the first character of a line. -/
def parseLine (line : Text) : Option Assignment :=
  match line with
  | '#' :: ' ' :: rest =>
    match splitAt? ' ' rest with
    | some (name, rest) =>
      if rest.take 10 = "is not set".toList then some (.unset name) else none
    | none => none
  | c :: _ =>
    if 'A' ≤ c ∧ c ≤ 'Z' then
      match splitAt? '=' line with
      | some (name, value) => some (.set name (value.takeWhile (· ≠ '\n')))
      | none => none
    else none
  | [] => none

/-- The text up to the closing quote, without the backslashes that escape a character. -/
def unescape : Text → Option Text
  | [] => none
  | '"' :: _ => some []
  | '\\' :: c :: text => (unescape text).map (c :: ·)
  | '\\' :: [] => none
  | c :: text => (unescape text).map (c :: ·)

/-! ## The values of the lines -/

/-- The messages before the two calls of `exit(1)`. -/
inductive ReadError where
  | invalidString
  | invalidValue (value name : Text)
deriving DecidableEq

section Lines
variable (cfg : Config)

/-- `sym_find`. -/
def symFind (name : Text) : Option Sym :=
  let s := Sym.lookup name false
  if s.isStatic ∨ s ∈ cfg.symbols then some s else none

/-- The value of a bool or tristate symbol on a line. -/
def lineTri (type : SymType) (value : Text) : Option Tristate :=
  match type, value with
  | .tristate, 'm' :: _ => some .mod
  | .tristate, 'y' :: _ | .boolean, 'y' :: _ => some .yes
  | .tristate, 'n' :: _ | .boolean, 'n' :: _ => some .no
  | _, _ => none

/-- The value a symbol gets from a line that sets it, if it gets one. -/
def lineValue (s : Sym) (value : Text) (D : UserData) : Except ReadError UserData :=
  match cfg.type s with
  | .boolean | .tristate =>
    match lineTri (cfg.type s) value with
    | some t => .ok ((D.setTri s t).setNew s false)
    | none => .ok D
  | .string =>
    match value with
    | '"' :: str =>
      match unescape str with
      | some v => .ok ((D.setVal s (.text v)).setNew s false)
      | none => .error .invalidString
    | _ => .ok D
  | .int | .hex =>
    if symStringValid (cfg.type s) value then .ok ((D.setVal s (.text value)).setNew s false)
    else .error (.invalidValue value (s.name?.getD []))
  | .unknown => .ok D

/-- The choice of a member that is named by a line. -/
def readChoice (s : Sym) (D : UserData) : UserData :=
  if cfg.isChoiceValue s then
    match cfg.choiceOf s with
    | some cs =>
      let D := if (D.user s).tri = .yes then D.setVal cs (.sym s) else D
      (D.setTri cs (max (D.user cs).tri (D.user s).tri)).setNew cs false
    | none => D
  else D

/-- One round of the loop over the lines. -/
def readLine (D : UserData) (line : Text) : Except ReadError UserData :=
  match parseLine (cString line) with
  | none => .ok D
  | some (.unset name) =>
    match symFind cfg name with
    | none => .ok D
    | some s =>
      let D := if (cfg.type s).isLogic then (D.setTri s .no).setNew s false else D
      .ok (readChoice cfg s D)
  | some (.set name value) =>
    match symFind cfg name with
    | none => .ok D
    | some s => (lineValue cfg s value D).map (readChoice cfg s)

/-- The user values before the first line. -/
def resetData (D : UserData) : UserData where
  user s := if s ∈ cfg.symbols then ⟨.null, .no⟩ else D.user s
  isNew s := D.isNew s || decide (s ∈ cfg.symbols)
  modulesVal := D.modulesVal

/-- The loop over the lines. -/
def readData (file : Text) (D : UserData) : Except ReadError UserData :=
  (readLines file).foldlM (readLine cfg) (resetData cfg D)

/-! ## The values of the symbols -/

/-- The `SYMBOL_NEW` of a choice, if a visible member is new. -/
def readMembers (s : Sym) (st : State) : State :=
  if s.isChoice then
    st.setNew s (st.isNew s || (cfg.members s).any fun m => st.visible m ≠ .no ∧ st.isNew m)
  else st

/-- The `SYMBOL_NEW` of a symbol with a user value, if it is invisible or out of range. -/
def readOwn (s : Sym) (st : State) : State :=
  if !st.isNew s ∧ !cfg.isChoiceValue s then
    let st := if st.visible s = .no then st.setNew s true else st
    if (cfg.type s).isText then
      let (ok, st) := symStringWithinRange cfg (symCalcValue cfg) s ((st.user s).val.toText) st
      if !ok then st.setNew s true else st
    else st
  else st

/-- One round of the last loop of `conf_read`. -/
def readSymbol (st : State) (s : Sym) : State :=
  readMembers cfg s (readOwn cfg s (symCalcValue cfg s st))

/-- `conf_read`, for a file that exists. -/
def confRead (file : Text) (st : State) : Except ReadError State := do
  let D ← readData cfg file st.data
  let st := { st.withData D with valid := fun s => st.valid s && !decide (s ∈ cfg.symbols) }
  let st := symCalcValue cfg modulesSym st
  return { cfg.symbols.foldl (readSymbol cfg) st with changeCount := 1 }

end Lines

end Grasshopper.Kconfig
