import Grasshopper.Kconfig.Menu.Visible

/-! # `conf_write` of `confdata.c` -/

namespace Grasshopper.Kconfig

/-- The characters of a string value, with a backslash before quotes and backslashes. -/
def escape (str : Text) : Text :=
  str.flatMap fun c => if c = '"' ∨ c = '\\' then ['\\', c] else [c]

/-- The comment at the top of the file. -/
def fileHeader : Text := "#\n# Automatically generated make config: don't edit\n#\n".toList

/-- The title of a menu or a comment. -/
def titleLines (str : Text) : Text := "\n#\n# ".toList ++ str ++ "\n#\n".toList

/-- The line of a bool or tristate symbol. -/
def triLine (name : Text) : Tristate → Text
  | .no => "# ".toList ++ name ++ " is not set\n".toList
  | .mod => name ++ "=m\n".toList
  | .yes => name ++ "=y\n".toList

/-- The line of a string symbol. -/
def stringLine (name str : Text) : Text := name ++ "=\"".toList ++ escape str ++ "\"\n".toList

/-- The line of an int or hex symbol. -/
def numberLine (name str : Text) : Text := name ++ "=".toList ++ str ++ "\n".toList

/-- What is written for a symbol with `SYMBOL_WRITE`. -/
def symbolLine (type : SymType) (name : Text) (v : SymbolValue) : Text :=
  match type with
  | .boolean | .tristate => triLine name v.tri
  | .string => stringLine name v.val.toText
  | .int | .hex => numberLine name v.val.toText
  | .unknown => []

section Write
variable (cfg : Config)

/-- One round of the walk over the menus. -/
def writeEntry (e : Entry) (st : State) : Text × State :=
  match e.sym with
  | none =>
    match entryIsVisible cfg e (fun st => (false, st)) st with
    | (true, st) => (titleLines ((e.prompt.bind (·.text)).getD []), st)
    | (false, st) => ([], st)
  | some s =>
    if s.isChoice then ([], st)
    else
      let st := symCalcValue cfg s st
      if !st.write s then ([], st)
      else
        let st := st.setWrite s false
        let st := if cfg.type s = .tristate then symCalcValue cfg modulesSym st else st
        (symbolLine (cfg.type s) (s.name?.getD []) (st.curr s), st)

/-- The walk over the menus. -/
def writeEntries : List Entry → State → Text × State
  | [], st => ([], st)
  | e :: es, st =>
    let (text, st) := writeEntry cfg e st
    let (rest, st) := writeEntries es st
    (text ++ rest, st)

/-- `conf_write`, when the file can be written: its contents, and the state after it. -/
def confWrite (st : State) : Text × State :=
  let st := if st.changeCount = 0 then symClearAllValid cfg st else st
  let (text, st) := writeEntries cfg cfg.menus.preorder st
  (fileHeader ++ text, { st with changeCount := 0 })

end Write

end Grasshopper.Kconfig
