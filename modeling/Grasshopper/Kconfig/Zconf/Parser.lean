import Mathlib.Data.List.Basic

/-! # The block structure of `zconf.y`

The grammar reads a tree of source files line by line. A statement's own options and arguments do not
matter to it here: a line opens a block, ends one or does neither, and a `source` line goes on in
another file.
-/

namespace Grasshopper.Kconfig.Zconf

/-- The blocks of the grammar: `menu_block`, `choice_block` and `if_block`. -/
inductive Block
  | menu
  | choice
  | ifBlock
  deriving DecidableEq, Repr

/-- The name of the token that starts a block. -/
def Block.tokenname : Block → String
  | menu => "menu"
  | choice => "choice"
  | ifBlock => "if"

/-- The name of the token that ends a block. -/
def Block.endTokenname : Block → String
  | menu => "endmenu"
  | choice => "endchoice"
  | ifBlock => "endif"

/-- A statement of one line with its options, other than `source`. -/
inductive Line
  | config
  | menuconfig
  | comment
  | eol
  | mainmenu
  | start (b : Block)
  | finish (b : Block)
  deriving DecidableEq, Repr

/-- A statement, where `source` has the file it names. -/
inductive Statement
  | line (l : Line)
  | source (name : String) (body : List Statement)

/-- What the parser prints. -/
inductive Message
  | unexpected (token : Block)
  | within (token block : Block)
  | differentFile (token block : Block)
  | missing (block : Block)
  deriving DecidableEq, Repr

/-- The lines of a message, without the place they begin with. -/
def Message.texts : Message → List String
  | unexpected token => ["unexpected '" ++ token.endTokenname ++ "' statement"]
  | within token block =>
    ["unexpected '" ++ token.endTokenname ++ "' within " ++ block.tokenname ++ " block"]
  | differentFile token block =>
    ["'" ++ token.endTokenname ++ "' in different file than '" ++ block.tokenname ++ "'",
      "location of the '" ++ block.tokenname ++ "'"]
  | missing block =>
    ["missing '" ++ block.endTokenname ++ "' for this '" ++ block.tokenname ++ "' statement"]

/-- Whether a block goes on with a line: a `choice_block` is made of `common_block`, and only the
top level has `mainmenu`. -/
def Block.takes : Block → Line → Bool
  | _, .mainmenu => false
  | choice, .start menu => false
  | choice, .start choice => false
  | _, _ => true

/-- The parser: its open blocks, innermost first, and the files of `current_menu` and of the menus
above it. -/
structure Parser (φ : Type) where
  blocks : List Block := []
  menus : List φ := []
  messages : List Message := []
  zconfnerrs : ℕ := 0

namespace Parser

variable {φ : Type} [DecidableEq φ]

/-- The rule of a block without its end. -/
def missing (p : Parser φ) (b : Block) : Parser φ :=
  { p with
    blocks := p.blocks.tail
    messages := .missing b :: p.messages
    zconfnerrs := p.zconfnerrs + 1 }

/-- The blocks that do not go on with a line are reduced first. -/
def reduce (p : Parser φ) (l : Line) : Parser φ :=
  (p.blocks.takeWhile (!·.takes l)).foldl missing p

def zconfEndtoken (p : Parser φ) (file : φ) (token block : Block) : Bool × Parser φ :=
  if token ≠ block then
    (false, { p with messages := .within token block :: p.messages, zconfnerrs := p.zconfnerrs + 1 })
  else if p.menus.head? ≠ some file then
    (false,
      { p with messages := .differentFile token block :: p.messages, zconfnerrs := p.zconfnerrs + 1 })
  else (true, p)

def menuEndMenu (p : Parser φ) : Parser φ := { p with menus := p.menus.tail }

/-- `menu_end`, `choice_end` and `if_end`. -/
def blockEnd (p : Parser φ) (file : φ) (token block : Block) : Parser φ :=
  match p.zconfEndtoken file token block with
  | (true, p) => p.menuEndMenu
  | (false, p) => p

/-- Reads a line of `current_file`. -/
def line (p : Parser φ) (file : φ) (l : Line) : Parser φ :=
  let p := p.reduce l
  match l with
  | .start b => { p with blocks := b :: p.blocks, menus := file :: p.menus }
  | .finish token =>
    match p.blocks with
    | [] => { p with messages := .unexpected token :: p.messages }
    | b :: bs => { p.blockEnd file token b with blocks := bs }
  | .config | .menuconfig | .comment | .eol | .mainmenu => p

/-- At the end of the input every open block is reduced. -/
def eof (p : Parser φ) : Parser φ := p.blocks.foldl missing p

end Parser

/-- The scanner: `current_file` with the files that read it in, all of them busy, and the files it is
done with. -/
structure Scanner where
  file : String
  parents : List String
  scanned : List String

/-- Where the program stops. -/
inductive Exit
  | recursiveScan (name : String)
  | alreadyScanned (name : String)
  | zconfnerrs
  deriving DecidableEq, Repr

namespace Scanner

def zconfNextfile (s : Scanner) (name : String) : Except Exit Scanner :=
  if name ∈ s.file :: s.parents then .error (.recursiveScan name)
  else if name ∈ s.scanned then .error (.alreadyScanned name)
  else .ok { s with file := name, parents := s.file :: s.parents }

def zconfEndfile (s : Scanner) : Scanner :=
  match s.parents with
  | [] => { s with scanned := s.file :: s.scanned }
  | f :: fs => ⟨f, fs, s.file :: s.scanned⟩

end Scanner

mutual

def readStatement (s : Scanner) (p : Parser String) :
    Statement → Except Exit (Scanner × Parser String)
  | .line l => .ok (s, p.line s.file l)
  | .source name body => do
    let s ← s.zconfNextfile name
    let (s, p) ← readStatements s p body
    return (s.zconfEndfile, p)

def readStatements (s : Scanner) (p : Parser String) :
    List Statement → Except Exit (Scanner × Parser String)
  | [] => .ok (s, p)
  | st :: sts => do
    let (s, p) ← readStatement s p st
    readStatements s p sts

end

/-- The grammar over the file it starts with. -/
def zconfparse (name : String) (body : List Statement) : Except Exit (Parser String) := do
  let (_, p) ← readStatements ⟨name, [], []⟩ {} body
  return p.eof

/-- `conf_parse` up to its check of `zconfnerrs`. -/
def confParse (name : String) (body : List Statement) : Except Exit (Parser String) := do
  let p ← zconfparse name body
  if p.zconfnerrs ≠ 0 then .error .zconfnerrs else .ok p

mutual

/-- The files a statement reads in. -/
def Statement.files : Statement → List String
  | .line _ => []
  | .source name body => name :: Statement.filesOf body

def Statement.filesOf : List Statement → List String
  | [] => []
  | st :: sts => st.files ++ Statement.filesOf sts

end

mutual

/-- The lines a statement stands for, each with its file. -/
def Statement.lines (file : String) : Statement → List (Line × String)
  | .line l => [(l, file)]
  | .source name body => Statement.linesOf name body

def Statement.linesOf (file : String) : List Statement → List (Line × String)
  | [] => []
  | st :: sts => st.lines file ++ Statement.linesOf file sts

end

/-- A tree of source files: none of them is read in twice. -/
structure SourceTree where
  name : String
  body : List Statement
  distinct : (name :: Statement.filesOf body).Nodup

namespace SourceTree

/-- The lines of the tree in the order in which they are read. -/
def lines (t : SourceTree) : List (Line × String) := Statement.linesOf t.name t.body

/-- `conf_parse` gets past its check of `zconfnerrs`. -/
def Accepted (t : SourceTree) : Prop := ∃ p, confParse t.name t.body = .ok p

end SourceTree

/-! ## Reading a tree is reading its lines -/

variable {φ : Type} [DecidableEq φ]

/-- What the parser makes of lines, each with its file. -/
def Parser.readLines (p : Parser φ) (ls : List (Line × φ)) : Parser φ :=
  ls.foldl (fun p l => p.line l.2 l.1) p

@[simp] theorem Parser.readLines_nil (p : Parser φ) : p.readLines [] = p := rfl

@[simp] theorem Parser.readLines_cons (p : Parser φ) (l : Line × φ) (ls : List (Line × φ)) :
    p.readLines (l :: ls) = (p.line l.2 l.1).readLines ls := rfl

@[simp] theorem Parser.readLines_append (p : Parser φ) (ls ls' : List (Line × φ)) :
    p.readLines (ls ++ ls') = (p.readLines ls).readLines ls' := by
  simp [readLines]

/-- A scanner that is back in its file after it has read in more of them. -/
structure Scanner.Back (s s' : Scanner) (names : List String) : Prop where
  file : s'.file = s.file
  parents : s'.parents = s.parents
  scanned : ∀ n ∈ s'.scanned, n ∈ s.scanned ∨ n ∈ names

/-- The names are new to a scanner. -/
structure Scanner.Fresh (s : Scanner) (names : List String) : Prop where
  nodup : names.Nodup
  file : s.file ∉ names
  parents : ∀ n ∈ s.parents, n ∉ names
  scanned : ∀ n ∈ s.scanned, n ∉ names

theorem Scanner.Fresh.of_append_left {s : Scanner} {l r : List String}
    (h : s.Fresh (l ++ r)) : s.Fresh l where
  nodup := (List.nodup_append.mp h.nodup).1
  file hl := h.file (List.mem_append_left r hl)
  parents n hn hl := h.parents n hn (List.mem_append_left r hl)
  scanned n hn hl := h.scanned n hn (List.mem_append_left r hl)

theorem Scanner.Fresh.of_append_right {s s' : Scanner} {l r : List String}
    (h : s.Fresh (l ++ r)) (hb : s.Back s' l) : s'.Fresh r where
  nodup := (List.nodup_append.mp h.nodup).2.1
  file hr := h.file (List.mem_append_right l (hb.file ▸ hr))
  parents n hn hr := h.parents n (hb.parents ▸ hn) (List.mem_append_right l hr)
  scanned n hn hr := by
    rcases hb.scanned n hn with hs | hl
    · exact h.scanned n hs (List.mem_append_right l hr)
    · exact (List.nodup_append.mp h.nodup).2.2 n hl n hr rfl

theorem Scanner.Fresh.nextfile {s : Scanner} {name : String} {names : List String}
    (h : s.Fresh (name :: names)) :
    s.zconfNextfile name = .ok ⟨name, s.file :: s.parents, s.scanned⟩ ∧
      Scanner.Fresh ⟨name, s.file :: s.parents, s.scanned⟩ names := by
  constructor
  · have hbusy : name ∉ s.file :: s.parents := by
      intro hm
      rcases List.mem_cons.mp hm with rfl | hm
      · exact h.file (by simp)
      · exact h.parents name hm (by simp)
    have hscanned : name ∉ s.scanned := fun hm => h.scanned name hm (by simp)
    rw [zconfNextfile, if_neg hbusy, if_neg hscanned]
  · refine ⟨(List.nodup_cons.mp h.nodup).2, (List.nodup_cons.mp h.nodup).1, ?_, ?_⟩
    · intro n hn hm
      rcases List.mem_cons.mp hn with rfl | hn
      · exact h.file (List.mem_cons_of_mem _ hm)
      · exact h.parents n hn (List.mem_cons_of_mem _ hm)
    · intro n hn hm
      exact h.scanned n hn (List.mem_cons_of_mem _ hm)

mutual

theorem readStatement_lines {s : Scanner} {st : Statement} (h : s.Fresh st.files) (p : Parser String) :
    ∃ s', readStatement s p st = .ok (s', p.readLines (st.lines s.file)) ∧ s.Back s' st.files := by
  cases st with
  | line l => exact ⟨s, rfl, rfl, rfl, fun n hn => .inl hn⟩
  | source name body =>
    obtain ⟨hnext, hfresh⟩ := Scanner.Fresh.nextfile h
    obtain ⟨s', hs', hback⟩ := readStatements_lines hfresh p
    refine ⟨s'.zconfEndfile, ?_, ?_⟩
    · simp only [readStatement, hnext, Statement.lines]
      change (readStatements _ p body >>= _) = _
      rw [hs']
      rfl
    · have hend : s'.zconfEndfile = ⟨s.file, s.parents, name :: s'.scanned⟩ := by
        rw [Scanner.zconfEndfile, hback.parents, hback.file]
      rw [hend]
      refine ⟨rfl, rfl, fun n hn => ?_⟩
      rcases List.mem_cons.mp hn with rfl | hn
      · exact .inr (by simp [Statement.files])
      · exact (hback.scanned n hn).imp_right (by simpa [Statement.files] using Or.inr)

theorem readStatements_lines {s : Scanner} {sts : List Statement}
    (h : s.Fresh (Statement.filesOf sts)) (p : Parser String) :
    ∃ s', readStatements s p sts = .ok (s', p.readLines (Statement.linesOf s.file sts)) ∧
      s.Back s' (Statement.filesOf sts) := by
  cases sts with
  | nil => exact ⟨s, rfl, rfl, rfl, fun n hn => .inl hn⟩
  | cons st sts =>
    obtain ⟨s', hs', hback'⟩ := readStatement_lines h.of_append_left p
    obtain ⟨s'', hs'', hback''⟩ :=
      readStatements_lines (h.of_append_right hback') (p.readLines (st.lines s.file))
    refine ⟨s'', ?_, ?_, ?_, fun n hn => ?_⟩
    · simp only [readStatements, hs', Statement.linesOf, Parser.readLines_append]
      rw [← hback'.file]
      rw [hback'.file] at hs'' ⊢
      exact hs''
    · exact hback''.file.trans hback'.file
    · exact hback''.parents.trans hback'.parents
    · rcases hback''.scanned n hn with hs | hm
      · exact (hback'.scanned n hs).imp_right (by simpa [Statement.filesOf] using Or.inl)
      · exact .inr (by simp [Statement.filesOf, hm])

end

/-- Over a tree the parser reads all lines and then the end of the input. -/
theorem zconfparse_eq (t : SourceTree) :
    zconfparse t.name t.body = .ok (Parser.readLines {} t.lines).eof := by
  have hfresh : Scanner.Fresh ⟨t.name, [], []⟩ (Statement.filesOf t.body) :=
    ⟨(List.nodup_cons.mp t.distinct).2, (List.nodup_cons.mp t.distinct).1, by simp, by simp⟩
  obtain ⟨s', hs', -⟩ := readStatements_lines hfresh {}
  rw [zconfparse, hs']
  rfl

theorem SourceTree.accepted_iff (t : SourceTree) :
    t.Accepted ↔ (Parser.readLines {} t.lines).eof.zconfnerrs = 0 := by
  have hparse : confParse t.name t.body =
      if (Parser.readLines {} t.lines).eof.zconfnerrs ≠ 0 then .error .zconfnerrs
      else .ok (Parser.readLines {} t.lines).eof := by
    rw [confParse, zconfparse_eq]
    rfl
  rw [Accepted, hparse]
  by_cases h : (Parser.readLines {} t.lines).eof.zconfnerrs = 0
  · simp [h]
  · simp [h]

end Grasshopper.Kconfig.Zconf
