import Grasshopper.Kconfig.Menu.Build
import Grasshopper.Kconfig.Zconf.Nested

/-! # Files without a final newline

`nl_or_eof` ends a `mainmenu` line and the ends of blocks. The scanner has left a file when it returns
the `T_EOF` at its end, so an end of a block that has no newline is compared with the file that read
this one in.
-/

namespace Grasshopper.Kconfig.Zconf

open Nesting

/-! ## The parser with its menu tree -/

/-- A menu entry: the line of its statement and its `file`. Both are missing for `rootmenu`. -/
structure Item where
  line : Option Line
  file : Option String
  deriving DecidableEq, Repr

/-- The parser: its open blocks, innermost first, and the menu tree with `current_menu`. Entries are
numbered in the order of their statements. -/
structure TreeParser where
  blocks : List Block := []
  messages : List Message := []
  zconfnerrs : ℕ := 0
  tree : MenuBuilder Item := menuInit ⟨none, none⟩

namespace TreeParser

/-- `current_menu->file`. -/
def menuFile (p : TreeParser) : Option String := (p.tree.menus p.tree.currentMenu).data.file

/-- The rule of a block without its end. -/
def missing (p : TreeParser) (b : Block) : TreeParser :=
  { p with
    blocks := p.blocks.tail
    messages := .missing b :: p.messages
    zconfnerrs := p.zconfnerrs + 1 }

/-- The blocks that do not go on with a line are reduced first. -/
def reduce (p : TreeParser) (l : Line) : TreeParser :=
  (p.blocks.takeWhile (!·.takes l)).foldl missing p

def zconfEndtoken (p : TreeParser) (currentFile : Option String) (token block : Block) :
    Bool × TreeParser :=
  if token ≠ block then
    (false, { p with messages := .within token block :: p.messages, zconfnerrs := p.zconfnerrs + 1 })
  else if p.menuFile ≠ currentFile then
    (false,
      { p with messages := .differentFile token block :: p.messages, zconfnerrs := p.zconfnerrs + 1 })
  else (true, p)

/-- `menu_end`, `choice_end` and `if_end`. -/
def blockEnd (p : TreeParser) (currentFile : Option String) (token block : Block) : TreeParser :=
  match p.zconfEndtoken currentFile token block with
  | (true, p) => { p with tree := p.tree.menuEndMenu }
  | (false, p) => p

/-- Reads a line, with the `current_file` of its actions. -/
def line (p : TreeParser) (currentFile : Option String) (l : Line) : TreeParser :=
  let p := p.reduce l
  match l with
  | .config | .menuconfig | .comment =>
    { p with tree := p.tree.menuAddEntry ⟨some l, currentFile⟩ }
  | .start b =>
    { p with
      blocks := b :: p.blocks
      tree := (p.tree.menuAddEntry ⟨some l, currentFile⟩).menuAddMenu }
  | .finish token =>
    match p.blocks with
    | [] => { p with messages := .unexpected token :: p.messages }
    | b :: bs => { p.blockEnd currentFile token b with blocks := bs }
  | .eol | .mainmenu => p

/-- At the end of the input every open block is reduced. -/
def eof (p : TreeParser) : TreeParser := p.blocks.foldl missing p

/-- Reads lines, each with its `current_file`. -/
def readLines (p : TreeParser) (ls : List (Line × Option String)) : TreeParser :=
  ls.foldl (fun p l => p.line l.2 l.1) p

end TreeParser

/-! ## The scanner and the ends of files -/

/-- The scanner: the busy files, `current_file` first, and the files it is done with. -/
structure Files where
  busy : List String
  scanned : List String := []

namespace Files

def currentFile (s : Files) : Option String := s.busy.head?

def zconfNextfile (s : Files) (name : String) : Except Exit Files :=
  if name ∈ s.busy then .error (.recursiveScan name)
  else if name ∈ s.scanned then .error (.alreadyScanned name)
  else .ok { s with busy := name :: s.busy }

def zconfEndfile (s : Files) : Files := ⟨s.busy.tail, s.busy.head?.toList ++ s.scanned⟩

end Files

/-- Whether the rule of a line ends with `nl_or_eof`. -/
def Line.endsAtEof : Line → Bool
  | mainmenu | finish _ => true
  | _ => false

section Load
-- the files without a newline after their last statement
variable (cut : List String)

mutual

def loadStatement (s : Files) (p : TreeParser) : Statement → Except Exit (Files × TreeParser)
  | .line l => .ok (s, p.line s.currentFile l)
  | .source name body => do
    let s ← s.zconfNextfile name
    loadFile name s p body

/-- What is left of a file, and the `T_EOF` at its end. -/
def loadFile (name : String) (s : Files) (p : TreeParser) :
    List Statement → Except Exit (Files × TreeParser)
  | [] =>
    let s := s.zconfEndfile
    .ok (s, p.line s.currentFile .eol)
  | [.line l] =>
    if name ∈ cut then
      let s := s.zconfEndfile
      .ok (s, p.line s.currentFile l)
    else
      let p := p.line s.currentFile l
      let s := s.zconfEndfile
      .ok (s, p.line s.currentFile .eol)
  | st :: sts => do
    let (s, p) ← loadStatement s p st
    loadFile name s p sts

end

end Load

mutual

/-- The files a statement reads in with what they consist of. -/
def Statement.bodies : Statement → List (String × List Statement)
  | .line _ => []
  | .source name body => (name, body) :: Statement.bodiesOf body

def Statement.bodiesOf : List Statement → List (String × List Statement)
  | [] => []
  | st :: sts => st.bodies ++ Statement.bodiesOf sts

end

namespace SourceTree

/-- The last statement of a file. -/
def EndsWith (t : SourceTree) (name : String) (l : Line) : Prop :=
  ∃ body, (name, body) ∈ (t.name, t.body) :: Statement.bodiesOf t.body ∧
    body.getLast? = some (.line l)

end SourceTree

/-- A tree of source files, some of them without a newline after their last statement. -/
structure Sources extends SourceTree where
  cut : List String
  ends : ∀ name ∈ cut, ∃ l, toSourceTree.EndsWith name l ∧ l.endsAtEof

namespace Sources

/-- The tree without the newline after the last statement of one more file. -/
def drop (t : Sources) {name : String} {l : Line} (h : t.EndsWith name l) (hl : l.endsAtEof) :
    Sources where
  toSourceTree := t.toSourceTree
  cut := name :: t.cut
  ends := List.forall_mem_cons.mpr ⟨⟨l, h, hl⟩, t.ends⟩

/-- `conf_parse` up to its check of `zconfnerrs`: the menu tree. -/
def confParse (t : Sources) : Except Exit (Links.Heap Item) := do
  let (_, p) ← loadFile t.cut t.name ⟨[t.name], []⟩ {} t.body
  let p := p.eof
  if p.zconfnerrs ≠ 0 then .error .zconfnerrs else .ok p.tree.menus

end Sources

/-! ## Reading a tree is reading its lines -/

section Reads
variable (cut : List String)

mutual

/-- The lines a statement stands for, each with the `current_file` of its actions. -/
def Statement.reads (file : String) : Statement → List (Line × Option String)
  | .line l => [(l, some file)]
  | .source name body => Statement.readsOf name (some file) body

def Statement.readsOf (file : String) (parent : Option String) :
    List Statement → List (Line × Option String)
  | [] => []
  | [.line l] => [(l, if file ∈ cut then parent else some file)]
  | st :: sts => st.reads file ++ Statement.readsOf file parent sts

end

end Reads

namespace TreeParser

@[simp] theorem readLines_nil (p : TreeParser) : p.readLines [] = p := rfl

@[simp] theorem readLines_cons (p : TreeParser) (l : Line × Option String)
    (ls : List (Line × Option String)) :
    p.readLines (l :: ls) = (p.line l.2 l.1).readLines ls := rfl

@[simp] theorem readLines_append (p : TreeParser) (ls ls' : List (Line × Option String)) :
    p.readLines (ls ++ ls') = (p.readLines ls).readLines ls' := List.foldl_append

/-- Every block goes on with an empty line. -/
@[simp] theorem line_eol (p : TreeParser) (currentFile : Option String) :
    p.line currentFile .eol = p := by
  have hreduce : p.reduce .eol = p := by
    cases hblocks : p.blocks with
    | nil => rw [reduce, hblocks, List.takeWhile_nil, List.foldl_nil]
    | cons b bs =>
      have htakes : b.takes .eol = true := by cases b <;> rfl
      rw [reduce, hblocks, List.takeWhile_cons_of_neg (by simp [htakes]), List.foldl_nil]
  rw [line, hreduce]

end TreeParser

/-- The names are new to the scanner. -/
structure Files.Fresh (s : Files) (names : List String) : Prop where
  nodup : names.Nodup
  busy : ∀ n ∈ s.busy, n ∉ names
  scanned : ∀ n ∈ s.scanned, n ∉ names

theorem Files.Fresh.of_append_left {s : Files} {l r : List String} (h : s.Fresh (l ++ r)) :
    s.Fresh l where
  nodup := (List.nodup_append.mp h.nodup).1
  busy n hn hl := h.busy n hn (List.mem_append_left r hl)
  scanned n hn hl := h.scanned n hn (List.mem_append_left r hl)

theorem Files.Fresh.of_append_right {s : Files} {l r scanned : List String}
    (h : s.Fresh (l ++ r)) (hscanned : ∀ n ∈ scanned, n ∈ s.scanned ∨ n ∈ l) :
    Files.Fresh ⟨s.busy, scanned⟩ r where
  nodup := (List.nodup_append.mp h.nodup).2.1
  busy n hn hr := h.busy n hn (List.mem_append_right l hr)
  scanned n hn hr := by
    rcases hscanned n hn with hs | hl
    · exact h.scanned n hs (List.mem_append_right l hr)
    · exact (List.nodup_append.mp h.nodup).2.2 n hl n hr rfl

theorem Files.Fresh.nextfile {s : Files} {name : String} {names : List String}
    (h : s.Fresh (name :: names)) :
    s.zconfNextfile name = .ok ⟨name :: s.busy, s.scanned⟩ ∧
      Files.Fresh ⟨name :: s.busy, s.scanned⟩ names := by
  constructor
  · have hbusy : name ∉ s.busy := fun hm => h.busy name hm List.mem_cons_self
    have hscanned : name ∉ s.scanned := fun hm => h.scanned name hm List.mem_cons_self
    rw [zconfNextfile, if_neg hbusy, if_neg hscanned]
  · refine ⟨(List.nodup_cons.mp h.nodup).2, ?_, ?_⟩
    · intro n hn hm
      rcases List.mem_cons.mp hn with rfl | hn
      · exact (List.nodup_cons.mp h.nodup).1 hm
      · exact h.busy n hn (List.mem_cons_of_mem _ hm)
    · intro n hn hm
      exact h.scanned n hn (List.mem_cons_of_mem _ hm)

/-- Induction over the statements of a file, where the line it ends with stands apart. -/
theorem Statement.induction {P : Statement → Prop} {Q : List Statement → Prop}
    (line : ∀ l, P (.line l)) (source : ∀ name body, Q body → P (.source name body))
    (nil : Q []) (last : ∀ l, Q [.line l])
    (cons : ∀ st sts, (∀ l, st = .line l → sts = [] → False) → P st → Q sts → Q (st :: sts)) :
    (∀ st, P st) ∧ ∀ sts, Q sts := by
  have hcons : ∀ st sts, P st → Q sts → Q (st :: sts) := by
    intro st sts hst hsts
    match st, sts with
    | .line l, [] => exact last l
    | .line l, _ :: _ => exact cons _ _ (fun _ _ hnil => nomatch hnil) hst hsts
    | .source _ _, _ => exact cons _ _ (fun _ hline => nomatch hline) hst hsts
  exact ⟨@Statement.rec P Q line source nil hcons, @Statement.rec_1 P Q line source nil hcons⟩

theorem exists_load (cut : List String) :
    (∀ st : Statement, ∀ file rest scanned, Files.Fresh ⟨file :: rest, scanned⟩ st.files → ∀ p,
      ∃ scanned', loadStatement cut ⟨file :: rest, scanned⟩ p st =
          .ok (⟨file :: rest, scanned'⟩, p.readLines (st.reads cut file)) ∧
        ∀ n ∈ scanned', n ∈ scanned ∨ n ∈ st.files) ∧
    ∀ sts, ∀ file rest scanned,
      Files.Fresh ⟨file :: rest, scanned⟩ (Statement.filesOf sts) → ∀ p,
      ∃ scanned', loadFile cut file ⟨file :: rest, scanned⟩ p sts =
          .ok (⟨rest, scanned'⟩, p.readLines (Statement.readsOf cut file rest.head? sts)) ∧
        ∀ n ∈ scanned', n ∈ scanned ∨ n ∈ file :: Statement.filesOf sts := by
  -- the scanner is done with the file when it ends
  have hend : ∀ (file : String) (scanned files : List String),
      ∀ n ∈ file :: scanned, n ∈ scanned ∨ n ∈ file :: files := by
    intro file scanned files n hn
    rcases List.mem_cons.mp hn with rfl | hn
    · exact .inr List.mem_cons_self
    · exact .inl hn
  apply Statement.induction
  case line =>
    intro l file rest scanned _ p
    exact ⟨scanned, rfl, fun n hn => .inl hn⟩
  case source =>
    intro name body ih file rest scanned h p
    obtain ⟨hnext, hfresh⟩ := Files.Fresh.nextfile h
    obtain ⟨scanned', hload, hscanned⟩ := ih name (file :: rest) scanned hfresh p
    refine ⟨scanned', ?_, hscanned⟩
    rw [loadStatement, hnext]
    exact hload
  case nil =>
    intro file rest scanned _ p
    refine ⟨file :: scanned, ?_, hend file scanned _⟩
    rw [loadFile, TreeParser.line_eol, Statement.readsOf, TreeParser.readLines_nil]
    rfl
  case last =>
    intro l file rest scanned _ p
    refine ⟨file :: scanned, ?_, hend file scanned _⟩
    rw [loadFile.eq_2, Statement.readsOf.eq_2]
    split_ifs
    · rfl
    · simp only [TreeParser.line_eol]
      rfl
  case cons =>
    intro st sts hlast ihst ihsts file rest scanned h p
    obtain ⟨scanned₁, hfirst, hscanned₁⟩ := ihst file rest scanned h.of_append_left p
    obtain ⟨scanned₂, hrest, hscanned₂⟩ := ihsts file rest scanned₁
      (h.of_append_right hscanned₁) (p.readLines (st.reads cut file))
    refine ⟨scanned₂, ?_, fun n hn => ?_⟩
    · rw [loadFile.eq_3 _ _ _ _ _ _ hlast, Statement.readsOf.eq_3 _ _ _ _ _ hlast, hfirst]
      rw [TreeParser.readLines_append]
      exact hrest
    · rw [Statement.filesOf]
      rcases hscanned₂ n hn with hs | hm
      · rcases hscanned₁ n hs with hs | hm
        · exact .inl hs
        · exact .inr (List.mem_cons_of_mem _ (List.mem_append_left _ hm))
      · rcases List.mem_cons.mp hm with rfl | hm
        · exact .inr List.mem_cons_self
        · exact .inr (List.mem_cons_of_mem _ (List.mem_append_right _ hm))

/-! ## The menus of the parser are those of the tree -/

/-- The files of an entry and of those above it, up to `rootmenu`. -/
def Above (b : MenuBuilder Item) : ℕ → List (Option String) → Prop
  | i, [] => i = rootmenu
  | i, file :: files =>
    i < b.fresh ∧ (b.menus i).data.file = file ∧
      ∃ j, (b.menus i).parent = some j ∧ Above b j files

theorem Above.menuAddEntry {b : MenuBuilder Item} {i : ℕ} {files : List (Option String)}
    (h : Above b i files) (item : Item) : Above (b.menuAddEntry item) i files := by
  induction files generalizing i with
  | nil => exact h
  | cons file files ih =>
    obtain ⟨hi, hfile, j, hparent, habove⟩ := h
    have hne : i ≠ b.fresh := Nat.ne_of_lt hi
    refine ⟨Nat.lt_succ_of_lt hi, ?_, j, ?_, ih habove⟩
    · rw [b.menuAddEntry_data item hne]
      exact hfile
    · rw [b.menuAddEntry_parent item hne]
      exact hparent

theorem Above.congr {b b' : MenuBuilder Item} {i : ℕ} {files : List (Option String)}
    (h : Above b i files) (hmenus : b'.menus = b.menus) (hfresh : b'.fresh = b.fresh) :
    Above b' i files := by
  induction files generalizing i with
  | nil => exact h
  | cons file files ih =>
    obtain ⟨hi, hfile, j, hparent, habove⟩ := h
    rw [Above, hmenus, hfresh]
    exact ⟨hi, hfile, j, hparent, ih habove⟩

/-- The parser with its tree does what the parser with the files of its menus does. -/
structure TreeParser.Refines (p : TreeParser) (q : Parser (Option String)) : Prop where
  blocks : p.blocks = q.blocks
  messages : p.messages = q.messages
  zconfnerrs : p.zconfnerrs = q.zconfnerrs
  above : Above p.tree p.tree.currentMenu q.menus
  le_menus : q.blocks.length ≤ q.menus.length

namespace TreeParser.Refines

variable {p : TreeParser} {q : Parser (Option String)}

theorem start : Refines {} {} := ⟨rfl, rfl, rfl, rfl, Nat.le_refl 0⟩

theorem missing (h : p.Refines q) (b : Block) : (p.missing b).Refines (q.missing b) where
  blocks := congrArg List.tail h.blocks
  messages := congrArg (Message.missing b :: ·) h.messages
  zconfnerrs := congrArg (· + 1) h.zconfnerrs
  above := h.above
  le_menus := by
    rw [Parser.missing, List.length_tail]
    exact Nat.le_trans (Nat.sub_le _ _) h.le_menus

theorem foldl_missing (h : p.Refines q) (bs : List Block) :
    (bs.foldl TreeParser.missing p).Refines (bs.foldl Parser.missing q) := by
  induction bs generalizing p q with
  | nil => exact h
  | cons b bs ih => exact ih (h.missing b)

theorem reduce (h : p.Refines q) (l : Line) : (p.reduce l).Refines (q.reduce l) := by
  rw [TreeParser.reduce, Parser.reduce, h.blocks]
  exact h.foldl_missing _

theorem eof (h : p.Refines q) : p.eof.Refines q.eof := by
  rw [TreeParser.eof, Parser.eof, h.blocks]
  exact h.foldl_missing _

theorem menuAddEntry (h : p.Refines q) (item : Item) :
    Refines { p with tree := p.tree.menuAddEntry item } q where
  blocks := h.blocks
  messages := h.messages
  zconfnerrs := h.zconfnerrs
  above := h.above.menuAddEntry item
  le_menus := h.le_menus

theorem start_block (h : p.Refines q) (b : Block) (l : Line) (file : Option String) :
    Refines
      { p with
        blocks := b :: p.blocks
        tree := (p.tree.menuAddEntry ⟨some l, file⟩).menuAddMenu }
      { q with blocks := b :: q.blocks, menus := file :: q.menus } where
  blocks := congrArg (b :: ·) h.blocks
  messages := h.messages
  zconfnerrs := h.zconfnerrs
  above := by
    have hup : Above (p.tree.menuAddEntry ⟨some l, file⟩) p.tree.currentMenu q.menus :=
      h.above.menuAddEntry _
    refine ⟨Nat.lt_succ_self _, ?_, p.tree.currentMenu, ?_, hup.congr rfl rfl⟩
    · exact congrArg Item.file (p.tree.menuAddEntry_data_fresh _)
    · exact p.tree.menuAddEntry_parent_fresh _
  le_menus := Nat.succ_le_succ h.le_menus

/-- The end of a block inside the blocks `bs`. -/
theorem finish_block (h : p.Refines q) {b : Block} {bs : List Block} (hb : q.blocks = b :: bs)
    (file : Option String) (token : Block) :
    Refines { p.blockEnd file token b with blocks := bs }
      { q.blockEnd file token b with blocks := bs } := by
  have hlen := h.le_menus
  rw [hb, List.length_cons] at hlen
  have habove := h.above
  cases hmenus : q.menus with
  | nil =>
    rw [hmenus] at hlen
    exact absurd hlen (Nat.not_succ_le_zero _)
  | cons f fs =>
    rw [hmenus] at hlen habove
    have hmenu : p.menuFile = f := habove.2.1
    obtain ⟨j, hparent, hup⟩ := habove.2.2
    simp only [TreeParser.blockEnd, TreeParser.zconfEndtoken, Parser.blockEnd, Parser.zconfEndtoken,
      hmenu, hmenus, List.head?_cons, ne_eq, Option.some.injEq]
    by_cases htoken : token = b
    · by_cases hfile : f = file
      · simp only [htoken, hfile, not_true_eq_false, if_false]
        refine ⟨rfl, h.messages, h.zconfnerrs, ?_, ?_⟩
        · rw [MenuBuilder.menuEndMenu, hparent, Option.getD_some, Parser.menuEndMenu, hmenus]
          exact hup.congr rfl rfl
        · rw [Parser.menuEndMenu, hmenus]
          exact Nat.le_of_succ_le_succ hlen
      · simp only [htoken, hfile, not_true_eq_false, not_false_eq_true, if_false, if_true]
        refine ⟨rfl, ?_, ?_, habove, Nat.le_of_succ_le hlen⟩
        · rw [h.messages]
        · rw [h.zconfnerrs]
    · simp only [htoken, not_false_eq_true, if_true]
      refine ⟨rfl, ?_, ?_, habove, Nat.le_of_succ_le hlen⟩
      · rw [h.messages]
      · rw [h.zconfnerrs]

theorem line (h : p.Refines q) (file : Option String) (l : Line) :
    (p.line file l).Refines (q.line file l) := by
  have hr := h.reduce l
  cases l with
  | config => exact hr.menuAddEntry _
  | menuconfig => exact hr.menuAddEntry _
  | comment => exact hr.menuAddEntry _
  | eol => exact hr
  | mainmenu => exact hr
  | start b => exact hr.start_block b _ file
  | finish token =>
    simp only [TreeParser.line, Parser.line, hr.blocks]
    cases hb : (q.reduce (.finish token)).blocks with
    | nil =>
      refine ⟨rfl, ?_, hr.zconfnerrs, hr.above, Nat.zero_le _⟩
      rw [hr.messages]
    | cons b bs => exact hr.finish_block hb file token

theorem readLines (h : p.Refines q) (ls : List (Line × Option String)) :
    (p.readLines ls).Refines (q.readLines ls) := by
  induction ls generalizing p q with
  | nil => exact h
  | cons l ls ih => exact ih (h.line l.2 l.1)

end TreeParser.Refines

namespace Sources

/-- The lines of the tree in the order in which they are read. -/
def reads (t : Sources) : List (Line × Option String) :=
  Statement.readsOf t.cut t.name none t.body

/-- Over a tree the parser reads all lines and then the end of the input. -/
theorem confParse_eq (t : Sources) :
    t.confParse =
      if (TreeParser.readLines {} t.reads).eof.zconfnerrs ≠ 0 then .error .zconfnerrs
      else .ok (TreeParser.readLines {} t.reads).eof.tree.menus := by
  have hfresh : Files.Fresh ⟨[t.name], []⟩ (Statement.filesOf t.body) := by
    refine ⟨(List.nodup_cons.mp t.distinct).2, fun n hn => ?_, List.forall_mem_nil _⟩
    rw [List.mem_singleton.mp hn]
    exact (List.nodup_cons.mp t.distinct).1
  obtain ⟨scanned, hload, -⟩ := (exists_load t.cut).2 _ _ _ _ hfresh {}
  rw [confParse, hload]
  rfl

end Sources

end Grasshopper.Kconfig.Zconf
