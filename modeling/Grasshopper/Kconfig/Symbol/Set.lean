import Grasshopper.Kconfig.Symbol.Calc

/-! # Setting values: the range checks and the setters of `symbol.c` -/

namespace Grasshopper.Kconfig

/-! ## `sym_string_valid` -/

/-- `isdigit`. -/
def isDigit (c : Char) : Bool := decide ('0' ≤ c ∧ c ≤ '9')

/-- `isxdigit`. -/
def isXDigit (c : Char) : Bool :=
  isDigit c || decide ('a' ≤ c ∧ c ≤ 'f') || decide ('A' ≤ c ∧ c ≤ 'F')

/-- The `S_INT` case: no leading zero. -/
def intValid (str : Text) : Bool :=
  let str := match str with
    | '-' :: str => str
    | str => str
  match str with
  | [] => false
  | c :: rest => isDigit c && !(c == '0' && !rest.isEmpty) && rest.all isDigit

/-- The text after `0x` or `0X`, if it starts so. -/
def skipHexPrefix : Text → Text
  | '0' :: 'x' :: str | '0' :: 'X' :: str => str
  | str => str

/-- The `S_HEX` case. -/
def hexValid (str : Text) : Bool :=
  let str := skipHexPrefix str
  !str.isEmpty && str.all isXDigit

/-- The tristate a text stands for in `sym_string_valid` and `sym_set_string_value`. -/
def textTri : Text → Option Tristate
  | 'y' :: _ | 'Y' :: _ => some .yes
  | 'm' :: _ | 'M' :: _ => some .mod
  | 'n' :: _ | 'N' :: _ => some .no
  | _ => none

/-- `sym_string_valid`. -/
def symStringValid (type : SymType) (str : Text) : Bool :=
  match type with
  | .string => true
  | .int => intValid str
  | .hex => hexValid str
  | .boolean | .tristate => (textTri str).isSome
  | .unknown => false

/-! ## `sym_string_within_range` -/

def isSpace (c : Char) : Bool := c == ' ' || decide ('\t' ≤ c ∧ c ≤ '\r')

/-- The digit a character is in base 16. -/
def digitValue (c : Char) : ℕ :=
  if isDigit c then c.toNat - '0'.toNat
  else if 'a' ≤ c ∧ c ≤ 'f' then c.toNat - 'a'.toNat + 10
  else c.toNat - 'A'.toNat + 10

/-- The number that the longest prefix of digits stands for. -/
def digitsValue (base : ℕ) (str : Text) : ℕ :=
  (str.takeWhile fun c => isXDigit c && digitValue c < base).foldl
    (fun n c => n * base + digitValue c) 0

/-- `strtol` of the C library, for base 10 and base 16: it stops at the bounds of `long`. -/
def strtol (base : ℕ) (str : Text) : ℤ :=
  let str := str.dropWhile isSpace
  let (neg, str) := match str with
    | '-' :: str => (true, str)
    | '+' :: str => (false, str)
    | str => (false, str)
  let digits := if base = 16 then
      match str with
      | '0' :: 'x' :: c :: _ | '0' :: 'X' :: c :: _ => if isXDigit c then str.drop 2 else str
      | str => str
    else str
  let n : ℤ := digitsValue base digits
  max (-2 ^ 63) (min (2 ^ 63 - 1) (if neg then -n else n))

/-- The value of a `long` in an `int`. -/
def toInt32 (n : ℤ) : ℤ := n.bmod (2 ^ 32)

section Range
variable (cfg : Config) (eval : Sym → State → State)

/-- The comparison of a value with the bounds of a `P_RANGE`. -/
def inBounds (base : ℕ) (str : Text) : Option Property → Bool
  | some p =>
    match p.expr with
    | .range lo hi =>
      decide (strtol base (lo.name?.getD []) ≤ toInt32 (strtol base str) ∧
        toInt32 (strtol base str) ≤ strtol base (hi.name?.getD []))
    | _ => true
  | none => true

/-- `sym_tristate_within_range`. -/
def symTristateWithinRange (s : Sym) (val : Tristate) (st : State) : Bool :=
  let type := cfg.symGetType st s
  if st.visible s = .no then false
  else if !type.isLogic then false
  else if type = .boolean ∧ val = .mod then false
  else if st.visible s ≤ st.revTri s then false
  else if cfg.isChoiceValue s ∧ st.visible s = .yes then val = .yes
  else decide (st.revTri s ≤ val ∧ val ≤ st.visible s)

/-- `sym_string_within_range`. -/
def symStringWithinRange (s : Sym) (str : Text) (st : State) : Bool × State :=
  match cfg.type s with
  | .string => (symStringValid .string str, st)
  | .int =>
    if !symStringValid .int str then (false, st)
    else
      let (p, st) := symGetRangeProp cfg eval s st
      (inBounds 10 str p, st)
  | .hex =>
    if !symStringValid .hex str then (false, st)
    else
      let (p, st) := symGetRangeProp cfg eval s st
      (inBounds 16 str p, st)
  | .boolean | .tristate =>
    match textTri str with
    | some val => (symTristateWithinRange cfg s val st, st)
    | none => (false, st)
  | .unknown => (false, st)

end Range

/-! ## The setters -/

/-- The user value of a bool or tristate symbol; a choice remembers the member that is set. -/
def setTristateData (cfg : Config) (s : Sym) (val : Tristate) (D : UserData) : UserData :=
  let D := D.setNew s false
  let D := if cfg.isChoiceValue s ∧ val = .yes then
      match cfg.choiceOf s with
      | some cs => (D.setVal cs (.sym s)).setNew cs false
      | none => D
    else D
  D.setTri s val

/-- `sym_set_tristate_value`. -/
def symSetTristateValue (cfg : Config) (s : Sym) (val : Tristate) (st : State) : Bool × State :=
  let oldval := (st.curr s).tri
  if oldval ≠ val ∧ !symTristateWithinRange cfg s val st then (false, st)
  else
    let st := st.withData (setTristateData cfg s val st.data)
    (true, if oldval ≠ val then symClearAllValid cfg st else st)

/-- The value `sym_set_string_value` stores: a hexadecimal number gets its prefix. -/
def storedText (type : SymType) (newval : Text) : Text :=
  if type = .hex then
    match newval with
    | '0' :: 'x' :: _ | '0' :: 'X' :: _ => newval
    | _ => '0' :: 'x' :: newval
  else newval

/-- `sym_set_string_value`. -/
def symSetStringValue (cfg : Config) (s : Sym) (newval : Text) (st : State) : Bool × State :=
  if (cfg.type s).isLogic then
    match textTri newval with
    | some val => symSetTristateValue cfg s val st
    | none => (false, st)
  else
    match symStringWithinRange cfg (symCalcValue cfg) s newval st with
    | (false, st) => (false, st)
    | (true, st) =>
      if storedText (cfg.type s) newval = newval ∧ (st.user s).val = .text newval then
        (true, st.setNew s false)
      else
        (true, symClearAllValid cfg (st.withData
          ((st.data.setNew s false).setVal s (.text (storedText (cfg.type s) newval)))))

end Grasshopper.Kconfig
