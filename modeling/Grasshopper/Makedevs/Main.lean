import Grasshopper.Library.Scanf

/-! # `makedevs.c`

The lines of a device table, and what is made of them under the root directory. `mknod`, `chown`,
`chmod` and `mkdir` work on a tree of named nodes, which they leave as it is when they fail.
-/

namespace Grasshopper.Makedevs

abbrev Text := List Char

/-! ## The system -/

/-- A file, directory or device. `rdev` holds the major and the minor number. -/
structure Node where
  mode : UInt32
  uid : UInt32
  gid : UInt32
  rdev : UInt32 × UInt32
deriving DecidableEq

def S_IFMT : UInt32 := 0o170000
def S_IFIFO : UInt32 := 0o010000
def S_IFCHR : UInt32 := 0o020000
def S_IFDIR : UInt32 := 0o040000
def S_IFBLK : UInt32 := 0o060000
def S_IFREG : UInt32 := 0o100000

/-- The calls that change the file system, with their arguments. -/
inductive Call where
  | mkdir (path : Text)
  | mknod (path : Text) (mode : UInt32) (rdev : UInt32 × UInt32)
  | chown (path : Text) (uid gid : UInt32)
  | chmod (path : Text) (mode : UInt32)

/-- What a run depends on besides its table: the passwd and group files, the ids of the caller, the
current directory (after `chdir`), and which calls the system refuses for reasons other than the
names in the tree (permissions, space, a read-only file system). -/
structure Host where
  getpwnam : Text → Option UInt32
  getgrnam : Text → Option UInt32
  getuid : UInt32
  getgid : UInt32
  cwd : List Text
  refuses : Call → Bool

/-- A system that knows no names of users and groups, with the superuser as caller. -/
def numericHost : Host := ⟨fun _ => none, fun _ => none, 0, 0, [], fun _ => false⟩

/-- The nodes below the top directory, by the names on the way to them. -/
abbrev Files := List Text → Option Node

/-- The names in a path. -/
def names (path : Text) : List Text :=
  (path.splitOnP (· == '/')).filter fun name => !(name.isEmpty || name == ['.'])

/-- The place that a path leads to; links and `..` are not followed. -/
def Host.resolve (host : Host) (path : Text) : List Text :=
  if path.head? = some '/' then names path else host.cwd ++ names path

namespace Files

def taken (fs : Files) (place : List Text) : Bool := place.isEmpty || (fs place).isSome

def isKind (fs : Files) (kind : UInt32) (place : List Text) : Bool :=
  (fs place).any fun node => node.mode &&& S_IFMT == kind

def isDir (fs : Files) (place : List Text) : Bool := place.isEmpty || fs.isKind S_IFDIR place

def set (fs : Files) (place : List Text) (node : Node) : Files := Function.update fs place node

end Files

/-- The part of `errno` that `bb_make_directory` looks at. -/
inductive Errno where
  | exist
  | other

section Calls
variable (host : Host)

def mkdir (path : Text) (fs : Files) : Except Errno Files :=
  let place := host.resolve path
  if fs.taken place then .error .exist
  else if host.refuses (.mkdir path) || !fs.isDir place.dropLast then .error .other
  else .ok (fs.set place ⟨S_IFDIR ||| 0o777, host.getuid, host.getgid, (0, 0)⟩)

/-- A node that `mknod` makes belongs to the caller. -/
def mknod (path : Text) (mode : UInt32) (rdev : UInt32 × UInt32) (fs : Files) : Option Files :=
  let place := host.resolve path
  if fs.taken place || host.refuses (.mknod path mode rdev) || !fs.isDir place.dropLast ||
      path.getLast? == some '/' then none
  else some (fs.set place ⟨mode, host.getuid, host.getgid, rdev⟩)

/-- The id -1 stands for no change. -/
def chown (path : Text) (uid gid : UInt32) (fs : Files) : Option Files :=
  if host.refuses (.chown path uid gid) then none
  else (fs (host.resolve path)).map fun node =>
    fs.set (host.resolve path)
      { node with
        uid := if uid = -1 then node.uid else uid
        gid := if gid = -1 then node.gid else gid }

/-- Only the permissions change. -/
def chmod (path : Text) (mode : UInt32) (fs : Files) : Option Files :=
  if host.refuses (.chmod path mode) then none
  else (fs (host.resolve path)).map fun node =>
    fs.set (host.resolve path)
      { node with mode := (node.mode &&& ~~~0o7777) ||| (mode &&& 0o7777) }

end Calls

/-! ## The lines of the table -/

/-- `bb_get_chomped_line_from_file`, called until the end of the file: a line ends at a newline or
at a NUL. `linebuf` holds the characters read so far, the last one first. -/
def tableLines (linebuf : Text) : Text → List Text
  | [] => if linebuf.isEmpty then [] else [linebuf.reverse]
  | ch :: file =>
    if ch = '\n' ∨ ch = '\x00' then linebuf.reverse :: tableLines [] file
    else tableLines (ch :: linebuf) file

/-- `"%40s %c %o %40s %40s %u %u %u %u %u"` -/
def lineFormat : List Scanf.Directive :=
  [.word 40, .space, .character, .space, .number 8, .space, .word 40, .space, .word 40,
    .space, .number 10, .space, .number 10, .space, .number 10, .space, .number 10, .space,
    .number 10]

/-- The fields of a line that `sscanf` converts. -/
def fields (line : Text) : List Scanf.Field := Scanf.sscanf lineFormat line

/-- The arrays of the loop's body that no round initialises: each round finds in them what the
round before left. -/
structure Buffers where
  name : Text
  user : Text
  group : Text

def Buffers.scan (buffers : Buffers) (line : Text) : Buffers where
  name := ((fields line)[0]?).elim buffers.name Scanf.Field.text
  user := ((fields line)[3]?).elim buffers.user Scanf.Field.text
  group := ((fields line)[4]?).elim buffers.group Scanf.Field.text

/-- The variables of a round once its line is read. -/
structure Entry where
  fullName : Text
  type : Char
  mode : UInt32
  uid : UInt32
  gid : UInt32
  major : UInt32
  minor : UInt32
  start : UInt32
  increment : UInt32
  count : UInt32
deriving DecidableEq

/-- A numeric variable of the round, with its initial value. -/
def numberAt (line : Text) (i : ℕ) (initial : UInt32) : UInt32 :=
  ((fields line)[i]?).elim initial Scanf.Field.value

/-- `get_ug_id`: a number, or a name that the system knows. -/
def getUgId (getxxnam : Text → Option UInt32) (s : Text) : Option UInt32 :=
  match Scanf.strtoul 10 s with
  | some (r, []) => some (UInt32.ofNat r)
  | _ => getxxnam s

/-- `concat_path_file`. -/
def concatPathFile (path filename : Text) : Text :=
  path ++ (if path.getLast? = some '/' then [] else ['/']) ++ filename.dropWhile (· == '/')

/-- What becomes of a line: it is skipped, it is reported, the program exits with a message, or it
is carried out. -/
inductive Verdict where
  | skip
  | invalid
  | die (msg : Text)
  | entry (e : Entry)
deriving DecidableEq

/-- The test on the line that `main` makes with `sscanf` and the bounds of the numbers. -/
def Passes (line : Text) : Prop :=
  ¬((fields line).length < 2 ∨
    numberAt line 5 0 ||| numberAt line 6 0 ||| numberAt line 7 0 ||| numberAt line 9 0 |||
      numberAt line 8 0 > 255)

instance (line : Text) : Decidable (Passes line) := inferInstanceAs (Decidable ¬_)

section Main
variable (host : Host) (rootdir : Text)

/-- `gid`: the caller's where the array is empty. -/
def groupId (buffers : Buffers) : Option UInt32 :=
  if buffers.group.isEmpty then some host.getgid else getUgId host.getgrnam buffers.group

/-- `uid`: the caller's where the array is empty. -/
def userId (buffers : Buffers) : Option UInt32 :=
  if buffers.user.isEmpty then some host.getuid else getUgId host.getpwnam buffers.user

/-- The variables once both ids are known. -/
def entryOf (line : Text) (buffers : Buffers) (uid gid : UInt32) : Entry where
  fullName := concatPathFile rootdir buffers.name
  type := ((fields line)[1]?).elim '\x00' Scanf.Field.char
  mode := numberAt line 2 0o755
  uid := uid
  gid := gid
  major := numberAt line 5 0
  minor := numberAt line 6 0
  start := numberAt line 7 0
  increment := numberAt line 8 0
  count := numberAt line 9 0

/-- A round of `main` up to `full_name`, from the arrays as `sscanf` leaves them. -/
def interpret (line : Text) (buffers : Buffers) : Verdict :=
  if ¬Passes line then
    if line.head?.all fun c => c == '#' || Scanf.isSpace c then .skip else .invalid
  else if buffers.name.head? = some '#' then .skip
  else
    match groupId host buffers with
    | none => .die ("unknown group name: ".toList ++ buffers.group)
    | some gid =>
      match userId host buffers with
      | none => .die ("unknown user name: ".toList ++ buffers.user)
      | some uid => .entry (entryOf rootdir line buffers uid gid)

/-! ## Carrying out a line -/

/-- The paths that `bb_make_directory` hands to `mkdir`, the shortest one first: a path ends before
a name other than the first, or with the whole text. -/
def directoryPaths (passed : Text) : Text → List Text
  | [] => [passed.reverse]
  | '/' :: c :: s =>
    if c = '/' then directoryPaths ('/' :: passed) (c :: s)
    else ('/' :: passed).reverse :: directoryPaths ('/' :: passed) (c :: s)
  | c :: s => directoryPaths (c :: passed) s

/-- The loop of `bb_make_directory` with `FILEUTILS_RECUR`: a directory that exists already is
passed over, and the last one gets its permissions if it is new. The last value is what `path` holds
afterwards: when a parent cannot be made, the path stays cut there. -/
def bbMakeDirectory (mode : UInt32) : List Text → Files → Files × List Text × Text
  | [], fs => (fs, [], [])
  | [path], fs =>
    match mkdir host path fs with
    | .ok fs =>
      match chmod host path mode fs with
      | some fs => (fs, [], path)
      | none => (fs, ["Cannot set permissions of directory `".toList ++ path ++ "'".toList], path)
    | .error .exist =>
      if fs.isDir (host.resolve path) then (fs, [], path)
      else (fs, ["Cannot create directory `".toList ++ path ++ "'".toList], path)
    | .error .other => (fs, ["Cannot create directory `".toList ++ path ++ "'".toList], path)
  | path :: paths, fs =>
    match mkdir host path fs with
    | .ok fs => bbMakeDirectory mode paths fs
    | .error .exist =>
      if fs.isDir (host.resolve path) then bbMakeDirectory mode paths fs
      else (fs, ["Cannot create directory `".toList ++ path ++ "'".toList], path)
    | .error .other => (fs, ["Cannot create directory `".toList ++ path ++ "'".toList], path)

/-- A message about a line. -/
def lineMsg (linenum : ℕ) (text : String) (path : Text) : Text :=
  "line ".toList ++ Scanf.decimal linenum ++ text.toList ++ path

/-- `chown` and then `chmod`, for a directory or a file. -/
def setOwner (linenum : ℕ) (e : Entry) (fs : Files) : Files × List Text :=
  match chown host e.fullName e.uid e.gid fs with
  | none => (fs, [lineMsg linenum ": chown failed for " e.fullName])
  | some fs =>
    if e.mode = -1 then (fs, [])
    else
      match chmod host e.fullName e.mode fs with
      | none => (fs, [lineMsg linenum ": chmod failed for " e.fullName])
      | some fs => (fs, [])

/-- `mknod` with `chown` and `chmod`, for one node. -/
def makeNode (linenum : ℕ) (e : Entry) (mode : UInt32) (path : Text) (rdev : UInt32 × UInt32)
    (fs : Files) : Files × List Text :=
  let (fs, made) :=
    match mknod host path mode rdev fs with
    | none => (fs, [lineMsg linenum ": Couldnt create node " path])
    | some fs =>
      match chown host path e.uid e.gid fs with
      | none => (fs, [lineMsg linenum ": chown failed for " path])
      | some fs => (fs, [])
  if mode = -1 then (fs, made)
  else
    match chmod host path mode fs with
    | none => (fs, made ++ [lineMsg linenum ": chmod failed for " path])
    | some fs => (fs, made)

/-- The type bits of a node, for the types that `mknod` is called for. -/
def typeBits : Char → Option UInt32
  | 'p' => some S_IFIFO
  | 'c' => some S_IFCHR
  | 'b' => some S_IFBLK
  | _ => none

/-- `"%s%d"` -/
def Entry.numberedName (e : Entry) (i : ℕ) : Text := e.fullName ++ Scanf.decimal i

/-- The device number in round `i` of the loop over a range. -/
def Entry.rdevAt (e : Entry) (i : ℕ) : UInt32 × UInt32 :=
  (e.major, e.minor + (UInt32.ofNat i * e.increment - e.start))

/-- `for (i = start; i < count; i++)`, with the number of rounds left. -/
def makeRange (linenum : ℕ) (e : Entry) (mode : UInt32) :
    ℕ → ℕ → Files → Files × List Text
  | 0, _, fs => (fs, [])
  | rounds + 1, i, fs =>
    let (fs, made) := makeNode host linenum e mode (e.numberedName i) (e.rdevAt i) fs
    let (fs, rest) := makeRange linenum e mode rounds (i + 1) fs
    (fs, made ++ rest)

/-- The rest of a round, after `full_name`. -/
def apply (linenum : ℕ) (e : Entry) (fs : Files) : Files × List Text :=
  if e.type = 'd' then
    let (fs, made, fullName) :=
      bbMakeDirectory host (e.mode ||| S_IFDIR) (directoryPaths [] e.fullName) fs
    let (fs, owned) := setOwner host linenum { e with fullName := fullName } fs
    (fs, made ++ owned)
  else if e.type = 'f' then
    if fs.isKind S_IFREG (host.resolve e.fullName) then setOwner host linenum e fs
    else (fs, [lineMsg linenum ": regular file '" (e.fullName ++ "' does not exist".toList)])
  else
    match typeBits e.type with
    | none => (fs, [lineMsg linenum ": Unsupported file type " [e.type]])
    | some bits =>
      let mode := e.mode ||| bits
      if 0 < e.count then
        makeRange host linenum e mode (e.count.toNat - e.start.toNat) e.start.toNat fs
      else makeNode host linenum e mode e.fullName (e.major, e.minor) fs

/-- How far `main` has come: the verdicts on the lines so far, the messages and the files. -/
structure Run where
  verdicts : List Verdict
  messages : List Text
  files : Files

/-- The loop of `main`; an unknown user or group ends it. -/
def mainLoop : ℕ → List Text → Buffers → Files → Run
  | _, [], _, fs => ⟨[], [], fs⟩
  | linenum, line :: lines, buffers, fs =>
    let buffers := buffers.scan line
    match interpret host rootdir line buffers with
    | .skip =>
      let run := mainLoop (linenum + 1) lines buffers fs
      { run with verdicts := .skip :: run.verdicts }
    | .invalid =>
      let run := mainLoop (linenum + 1) lines buffers fs
      { run with
        verdicts := .invalid :: run.verdicts
        messages := lineMsg linenum " invalid: '" (line ++ "'".toList) :: run.messages }
    | .die msg => ⟨[.die msg], [msg], fs⟩
    | .entry e =>
      let (fs, messages) := apply host linenum e fs
      let run := mainLoop (linenum + 1) lines buffers fs
      { run with
        verdicts := .entry e :: run.verdicts
        messages := messages ++ run.messages }

/-- `makedevs` on a device table, with what the stack holds at the start. -/
def makedevs (table : Text) (stack : Buffers) (fs : Files) : Run :=
  mainLoop host rootdir 1 (tableLines [] table) stack fs

end Main

end Grasshopper.Makedevs
