import Mathlib.Data.List.DropRight
import Grasshopper.Kconfig.Zconf.Eof

/-! # The newline at the end of a file

Where the last statement of a file ends with `nl_or_eof`, a missing newline changes the file with
which an end of a block is compared: two runs of the parser differ in one line.
-/

namespace Grasshopper.Kconfig.Zconf

open Nesting

/-! ## What one more missing newline changes -/

/-- Two ways to read lines differ in the last one of a file: the one in the file itself, the other
outside. -/
def Differ (name : String) (l : Line) (ls ls' : List (Line × Option String)) : Prop :=
  ∃ us vs file, file ≠ some name ∧ ls = us ++ (l, some name) :: vs ∧ ls' = us ++ (l, file) :: vs ∧
    ∀ x ∈ vs, x.2 ≠ some name

namespace Differ

variable {name : String} {l : Line} {ls ls' : List (Line × Option String)}

theorem append_left (h : Differ name l ls ls') (ws : List (Line × Option String)) :
    Differ name l (ws ++ ls) (ws ++ ls') := by
  obtain ⟨us, vs, file, hfile, rfl, rfl, hvs⟩ := h
  exact ⟨ws ++ us, vs, file, hfile, (List.append_assoc ..).symm, (List.append_assoc ..).symm, hvs⟩

theorem append_right (h : Differ name l ls ls') {ws : List (Line × Option String)}
    (hws : ∀ x ∈ ws, x.2 ≠ some name) : Differ name l (ls ++ ws) (ls' ++ ws) := by
  obtain ⟨us, vs, file, hfile, rfl, rfl, hvs⟩ := h
  refine ⟨us, vs ++ ws, file, hfile, by simp, by simp, fun x hx => ?_⟩
  exact (List.mem_append.mp hx).elim (hvs x) (hws x)

end Differ

section Differ
variable (cut : List String) {name : String}

/-- The lines of a file are read as before where the file with one newline less is not read in. -/
theorem reads_cons_cut :
    (∀ st : Statement, name ∉ st.files → ∀ file, st.reads (name :: cut) file = st.reads cut file) ∧
    ∀ sts, name ∉ Statement.filesOf sts → ∀ file parent, file ≠ name →
      Statement.readsOf (name :: cut) file parent sts =
        Statement.readsOf cut file parent sts := by
  apply Statement.induction
  case line =>
    intro l _ file
    rfl
  case source =>
    intro name' body ih h file
    rw [Statement.files, List.mem_cons, not_or] at h
    exact ih h.2 name' (some file) (Ne.symm h.1)
  case nil =>
    intro _ file parent _
    rw [Statement.readsOf, Statement.readsOf]
  case last =>
    intro l _ file parent hne
    simp [Statement.readsOf, hne]
  case cons =>
    intro st sts hlast ihst ihsts h file parent hne
    rw [Statement.filesOf, List.mem_append, not_or] at h
    rw [Statement.readsOf.eq_3 _ _ _ _ _ hlast, Statement.readsOf.eq_3 _ _ _ _ _ hlast,
      ihst h.1, ihsts h.2 file parent hne]

/-- A line is read in a file that is read in, or in the one above. -/
theorem ne_of_mem_reads :
    (∀ st : Statement, name ∉ st.files → ∀ file, file ≠ name →
      ∀ x ∈ st.reads cut file, x.2 ≠ some name) ∧
    ∀ sts, name ∉ Statement.filesOf sts → ∀ file parent, file ≠ name → parent ≠ some name →
      ∀ x ∈ Statement.readsOf cut file parent sts, x.2 ≠ some name := by
  have hsome : ∀ file, file ≠ name → some file ≠ some name :=
    fun file hne heq => hne (Option.some.inj heq)
  apply Statement.induction
  case line =>
    intro l _ file hne x hx
    rw [Statement.reads, List.mem_singleton] at hx
    rw [hx]
    exact hsome file hne
  case source =>
    intro name' body ih h file hne
    rw [Statement.files, List.mem_cons, not_or] at h
    exact ih h.2 name' (some file) (Ne.symm h.1) (hsome file hne)
  case nil =>
    intro _ file parent _ _ x hx
    rw [Statement.readsOf] at hx
    cases hx
  case last =>
    intro l _ file parent hne hparent x hx
    rw [Statement.readsOf, List.mem_singleton] at hx
    rw [hx]
    split_ifs
    · exact hparent
    · exact hsome file hne
  case cons =>
    intro st sts hlast ihst ihsts h file parent hne hparent x hx
    rw [Statement.filesOf, List.mem_append, not_or] at h
    rw [Statement.readsOf.eq_3 _ _ _ _ _ hlast] at hx
    rcases List.mem_append.mp hx with hx | hx
    · exact ihst h.1 file hne x hx
    · exact ihsts h.2 file parent hne hparent x hx

/-- The file itself. -/
theorem differ_own {parent : Option String} {l : Line} {sts : List Statement}
    (hcut : name ∉ cut) (hparent : parent ≠ some name) (h : name ∉ Statement.filesOf sts)
    (hlast : sts.getLast? = some (.line l)) :
    Differ name l (Statement.readsOf cut name parent sts)
      (Statement.readsOf (name :: cut) name parent sts) := by
  induction sts with
  | nil => cases hlast
  | cons st sts ih =>
    rw [Statement.filesOf, List.mem_append, not_or] at h
    cases sts with
    | nil =>
      obtain rfl : st = .line l := Option.some.inj hlast
      refine ⟨[], [], parent, hparent, ?_, ?_, List.forall_mem_nil _⟩
      · rw [Statement.readsOf, if_neg hcut, List.nil_append]
      · rw [Statement.readsOf, if_pos List.mem_cons_self, List.nil_append]
    | cons st' sts =>
      rw [List.getLast?_cons_cons] at hlast
      have hnot : ∀ l, st = .line l → st' :: sts = [] → False := fun _ _ => List.cons_ne_nil st' sts
      rw [Statement.readsOf.eq_3 _ _ _ _ _ hnot, Statement.readsOf.eq_3 _ _ _ _ _ hnot,
        (reads_cons_cut cut).1 st h.1]
      exact (ih h.2 hlast).append_left _

theorem mem_files_of_mem_bodies {body : List Statement} :
    (∀ st : Statement, (name, body) ∈ st.bodies → name ∈ st.files) ∧
    ∀ sts, (name, body) ∈ Statement.bodiesOf sts → name ∈ Statement.filesOf sts := by
  apply Statement.induction
  case line => exact fun l h => nomatch h
  case source =>
    intro name' body' ih h
    rw [Statement.files]
    rcases List.mem_cons.mp h with heq | h
    · exact List.mem_cons.mpr (.inl (Prod.mk.inj heq).1)
    · exact List.mem_cons_of_mem _ (ih h)
  case nil => exact fun h => nomatch h
  case last => exact fun l h => nomatch h
  case cons =>
    intro st sts _ ihst ihsts h
    rw [Statement.filesOf]
    rcases List.mem_append.mp h with h | h
    · exact List.mem_append_left _ (ihst h)
    · exact List.mem_append_right _ (ihsts h)

/-- A file somewhere below. -/
theorem differ_reads {l : Line} {body : List Statement} (hcut : name ∉ cut)
    (hend : body.getLast? = some (.line l)) :
    (∀ st : Statement, (name, body) ∈ st.bodies → ∀ file, (file :: st.files).Nodup →
      Differ name l (st.reads cut file) (st.reads (name :: cut) file)) ∧
    ∀ sts, (name, body) ∈ Statement.bodiesOf sts → ∀ file parent,
      (file :: Statement.filesOf sts).Nodup → parent ≠ some name →
      Differ name l (Statement.readsOf cut file parent sts)
        (Statement.readsOf (name :: cut) file parent sts) := by
  apply Statement.induction
  case line => exact fun l h => nomatch h
  case source =>
    intro name' body' ih h file hnodup
    have hmem : name ∈ (Statement.source name' body').files := mem_files_of_mem_bodies.1 _ h
    obtain ⟨hnotMem, hnodup'⟩ := List.nodup_cons.mp hnodup
    have hfile : some file ≠ some name := by
      intro heq
      rw [Option.some.inj heq] at hnotMem
      exact hnotMem hmem
    rw [Statement.reads, Statement.reads]
    rcases List.mem_cons.mp h with heq | h
    · obtain ⟨rfl, rfl⟩ := Prod.mk.inj heq
      exact differ_own cut hcut hfile (List.nodup_cons.mp hnodup').1 hend
    · exact ih h name' (some file) hnodup' hfile
  case nil => exact fun h => nomatch h
  case last => exact fun l h => nomatch h
  case cons =>
    intro st sts hlast ihst ihsts h file parent hnodup hparent
    have hmem : name ∈ Statement.filesOf (st :: sts) := mem_files_of_mem_bodies.2 _ h
    have hfile : file ≠ name := by
      rintro rfl
      exact (List.nodup_cons.mp hnodup).1 hmem
    rw [Statement.filesOf] at hnodup
    obtain ⟨hout, happend⟩ := List.nodup_cons.mp hnodup
    obtain ⟨hleft, hright, hdisjoint⟩ := List.nodup_append.mp happend
    rw [Statement.readsOf.eq_3 _ _ _ _ _ hlast, Statement.readsOf.eq_3 _ _ _ _ _ hlast]
    rcases List.mem_append.mp h with h | h
    · have hrest : name ∉ Statement.filesOf sts := fun hm =>
        hdisjoint name (mem_files_of_mem_bodies.1 _ h) name hm rfl
      have hfirst : (file :: st.files).Nodup :=
        List.nodup_cons.mpr ⟨fun hm => hout (List.mem_append_left _ hm), hleft⟩
      rw [(reads_cons_cut cut).2 sts hrest file parent hfile]
      exact (ihst h file hfirst).append_right
        ((ne_of_mem_reads cut).2 sts hrest file parent hfile hparent)
    · have hfirst : name ∉ st.files := fun hm =>
        hdisjoint name hm name (mem_files_of_mem_bodies.2 _ h) rfl
      have hrest : (file :: Statement.filesOf sts).Nodup :=
        List.nodup_cons.mpr ⟨fun hm => hout (List.mem_append_right _ hm), hright⟩
      rw [(reads_cons_cut cut).1 st hfirst]
      exact (ihsts h file parent hrest hparent).append_left _

theorem reads_map_fst :
    (∀ st : Statement, ∀ file,
      (st.reads cut file).map Prod.fst = (st.lines file).map Prod.fst) ∧
    ∀ sts, ∀ file parent, (Statement.readsOf cut file parent sts).map Prod.fst =
      (Statement.linesOf file sts).map Prod.fst := by
  apply Statement.induction
  case line => exact fun l file => rfl
  case source => exact fun name body ih file => ih name (some file)
  case nil => exact fun file parent => rfl
  case last =>
    intro l file parent
    simp [Statement.readsOf, Statement.linesOf, Statement.lines]
  case cons =>
    intro st sts hlast ihst ihsts file parent
    rw [Statement.readsOf.eq_3 _ _ _ _ _ hlast, Statement.linesOf, List.map_append,
      List.map_append, ihst, ihsts]

end Differ

namespace Sources

/-- The blocks of the tree are nested without the ends outside every block, where a block and its end
have the same `current_file`. -/
def NestedBlocks (t : Sources) : Prop := Nested (dropStray 0 (t.reads.flatMap brackets))

/-- The lines that are read before the last one of a file. -/
def before (t : Sources) (name : String) : List (Line × Option String) :=
  (t.reads.rdropWhile fun l => l.2 ≠ some name).dropLast

/-- The last line of a file stands outside every block. -/
def Outside (t : Sources) (name : String) : Prop :=
  depth 0 ((t.before name).flatMap brackets) = 0

theorem reads_map_fst (t : Sources) : t.reads.map Prod.fst = t.lines.map Prod.fst :=
  (Zconf.reads_map_fst t.cut).2 t.body t.name none

/-- The parser with the files of its menus, after the lines of the tree. -/
theorem refines (ls : List (Line × Option String)) :
    (TreeParser.readLines {} ls).Refines (Parser.readLines {} ls) :=
  TreeParser.Refines.start.readLines ls

/-- Which trees get past the check. -/
theorem zconfnerrs_eq_zero_iff (t : Sources) :
    (TreeParser.readLines {} t.reads).eof.zconfnerrs = 0 ↔ t.WellPlaced ∧ t.NestedBlocks := by
  have hsync : Parser.Sync ({} : Parser (Option String)) [] := ⟨rfl, rfl, rfl⟩
  rw [(refines t.reads).eof.zconfnerrs, hsync.readLines_iff t.reads, t.reads_map_fst]
  exact and_congr_right fun _ => unclosed_eq_nil_iff

theorem confParse_of_error {t : Sources} (h : ¬ (t.WellPlaced ∧ t.NestedBlocks)) :
    t.confParse = .error .zconfnerrs := by
  rw [confParse_eq, if_pos (mt t.zconfnerrs_eq_zero_iff.mp h)]

theorem confParse_of_nested {t : Sources} (h : t.WellPlaced ∧ t.NestedBlocks) :
    t.confParse = .ok (TreeParser.readLines {} t.reads).eof.tree.menus := by
  rw [confParse_eq, if_neg (not_not.mpr (t.zconfnerrs_eq_zero_iff.mpr h))]

end Sources

/-- A line that does not say where it is read is read the same way outside every block. -/
theorem TreeParser.line_congr {p : TreeParser} {l : Line} (hl : l.endsAtEof)
    (h : l = .mainmenu ∨ p.blocks = []) (file file' : Option String) :
    p.line file l = p.line file' l := by
  cases l with
  | mainmenu => rfl
  | finish token =>
    have hblocks : p.blocks = [] := h.resolve_left nofun
    have hreduce : p.reduce (.finish token) = p := by
      rw [reduce, hblocks, List.takeWhile_nil, List.foldl_nil]
    simp only [line, hreduce, hblocks]
  | _ => cases hl

namespace Sources

variable {t : Sources} {name : String} {l : Line}

theorem exists_reads (h : t.EndsWith name l) (hl : l.endsAtEof) (hcut : name ∉ t.cut) :
    ∃ vs file, file ≠ some name ∧ t.reads = t.before name ++ (l, some name) :: vs ∧
      (t.drop h hl).reads = t.before name ++ (l, file) :: vs := by
  obtain ⟨body, hbody, hlast⟩ := h
  have hdiffer : Differ name l t.reads (t.drop ⟨body, hbody, hlast⟩ hl).reads := by
    rcases List.mem_cons.mp hbody with heq | hmem
    · obtain ⟨rfl, rfl⟩ := Prod.mk.inj heq
      exact differ_own t.cut hcut nofun (List.nodup_cons.mp t.distinct).1 hlast
    · exact (differ_reads t.cut hcut hlast).2 t.body hmem t.name none t.distinct nofun
  obtain ⟨us, vs, file, hfile, hreads, hdrop, hvs⟩ := hdiffer
  have hbefore : t.before name = us := by
    have hreverse : (us ++ (l, some name) :: vs).reverse =
        vs.reverse ++ (us ++ [(l, some name)]).reverse := by simp
    have hdropped : ∀ x ∈ vs.reverse, decide (x.2 ≠ some name) = true := fun x hx =>
      decide_eq_true (hvs x (List.mem_reverse.mp hx))
    rw [before, hreads, List.rdropWhile, hreverse, List.dropWhile_append_of_pos hdropped]
    change (List.rdropWhile _ _).dropLast = us
    rw [List.rdropWhile_concat_neg _ _ _ (by simp), List.dropLast_concat]
  rw [hbefore]
  exact ⟨vs, file, hfile, hreads, hdrop⟩

/-- Where the last line of a file stands outside every block, its newline does not matter. -/
theorem confParse_drop_of_outside (h : t.EndsWith name l) (hl : l.endsAtEof)
    (hcut : name ∉ t.cut) (hout : l = .mainmenu ∨ t.Outside name) :
    (t.drop h hl).confParse = t.confParse := by
  obtain ⟨vs, file, -, hreads, hdrop⟩ := exists_reads h hl hcut
  by_cases hzero : (Parser.readLines {} (t.before name)).zconfnerrs = 0
  · have hsync : Parser.Sync ({} : Parser (Option String)) [] := ⟨rfl, rfl, rfl⟩
    obtain ⟨s, hs, hlen⟩ := hsync.exists_readLines hzero
    have hblocks : l = .mainmenu ∨ (TreeParser.readLines {} (t.before name)).blocks = [] := by
      refine hout.imp_right fun hdepth => ?_
      have hnil : s = [] := List.length_eq_zero_iff.mp (hlen.trans hdepth)
      rw [(refines _).blocks, hs.blocks, hnil, List.map_nil]
    have hsame : TreeParser.readLines {} (t.drop h hl).reads = TreeParser.readLines {} t.reads := by
      rw [hdrop, hreads, TreeParser.readLines_append, TreeParser.readLines_append,
        TreeParser.readLines_cons, TreeParser.readLines_cons]
      rw [TreeParser.line_congr hl hblocks file (some name)]
    rw [confParse_eq, confParse_eq, hsame]
  · -- both have an error before the line
    have herror : ∀ (t' : Sources) (file' : Option String),
        t'.reads = t.before name ++ (l, file') :: vs → t'.confParse = .error .zconfnerrs := by
      intro t' file' hreads'
      rw [confParse_eq, if_pos]
      rw [(refines t'.reads).eof.zconfnerrs, hreads', Parser.readLines_append]
      exact Parser.zconfnerrs_eof_ne_zero hzero _
    rw [herror t (some name) hreads, herror (t.drop h hl) file hdrop]

/-- Where the last line of a file stands inside a block, the tree does not get past the check both
with its newline and without. -/
theorem not_both (h : t.EndsWith name l) (hl : l.endsAtEof) (hcut : name ∉ t.cut)
    (hmain : l ≠ .mainmenu) (hinside : ¬ t.Outside name)
    (hok : t.WellPlaced ∧ t.NestedBlocks) : ¬ (t.drop h hl).NestedBlocks := by
  intro hnested
  obtain ⟨vs, file, hfile, hreads, hdrop⟩ := exists_reads h hl hcut
  -- neither parser has made an error after the line
  have hafter : ∀ (t' : Sources) (file' : Option String),
      t'.reads = t.before name ++ (l, file') :: vs → t'.WellPlaced ∧ t'.NestedBlocks →
      (((Parser.readLines {} (t.before name)).line file' l).readLines vs).eof.zconfnerrs = 0 := by
    intro t' file' hreads' hok'
    have hzero := t'.zconfnerrs_eq_zero_iff.mpr hok'
    rwa [(refines t'.reads).eof.zconfnerrs, hreads', Parser.readLines_append,
      Parser.readLines_cons] at hzero
  have hzero := hafter t (some name) hreads hok
  have hzero' := hafter (t.drop h hl) file hdrop ⟨hok.1, hnested⟩
  have hline : ((Parser.readLines {} (t.before name)).line (some name) l).zconfnerrs = 0 := by
    by_contra hne
    exact Parser.zconfnerrs_eof_ne_zero hne vs hzero
  have hbefore : (Parser.readLines {} (t.before name)).zconfnerrs = 0 :=
    Nat.eq_zero_of_le_zero (Nat.le_trans (Parser.zconfnerrs_le_line _ _ _) (Nat.le_of_eq hline))
  have hsync : Parser.Sync ({} : Parser (Option String)) [] := ⟨rfl, rfl, rfl⟩
  obtain ⟨s, hs, hlen⟩ := hsync.exists_readLines hbefore
  cases l with
  | finish token =>
    cases s with
    | nil => exact hinside hlen.symm
    | cons k s =>
      have hfinish := hs.finish_cons (some name) token
      have hfinish' := hs.finish_cons file token
      split_ifs at hfinish with hk
      · rw [← hk, if_neg (fun heq => hfile (Prod.mk.inj heq).2)] at hfinish'
        exact Parser.zconfnerrs_eof_ne_zero hfinish' vs hzero'
      · exact hfinish hline
  | mainmenu => exact hmain rfl
  | _ => cases hl

/-- The newline after the last statement of a file does not matter exactly where that is `mainmenu`
or an end outside every block, or where the tree is not nested, neither with that end in the file
itself nor with that end in the file that reads it in. -/
theorem confParse_drop_iff (t : Sources) {name : String} {l : Line} (h : t.EndsWith name l)
    (hl : l.endsAtEof) (hcut : name ∉ t.cut) :
    (t.drop h hl).confParse = t.confParse ↔
      l = .mainmenu ∨ t.Outside name ∨
        ¬ (t.WellPlaced ∧ (t.NestedBlocks ∨ (t.drop h hl).NestedBlocks)) := by
  have hplaced : (t.drop h hl).WellPlaced ↔ t.WellPlaced := Iff.rfl
  constructor
  · intro heq
    by_contra hnot
    rw [not_or, not_or, not_not] at hnot
    obtain ⟨hmain, hinside, hwell, hnested⟩ := hnot
    rcases hnested with hnested | hnested
    · have hdrop := not_both h hl hcut hmain hinside ⟨hwell, hnested⟩
      rw [confParse_of_nested ⟨hwell, hnested⟩, confParse_of_error (mt And.right hdrop)] at heq
      cases heq
    · have hself : ¬ t.NestedBlocks := fun hself =>
        not_both h hl hcut hmain hinside ⟨hwell, hself⟩ hnested
      rw [confParse_of_nested ⟨hplaced.mpr hwell, hnested⟩,
        confParse_of_error (mt And.right hself)] at heq
      cases heq
  · intro hcond
    by_cases hboth : t.WellPlaced ∧ (t.NestedBlocks ∨ (t.drop h hl).NestedBlocks)
    · have hout : l = .mainmenu ∨ t.Outside name :=
        hcond.imp_right fun hrest => hrest.resolve_right (not_not.mpr hboth)
      exact confParse_drop_of_outside h hl hcut hout
    · have hself : ¬ (t.WellPlaced ∧ t.NestedBlocks) := fun hok => hboth ⟨hok.1, .inl hok.2⟩
      have hdrop : ¬ ((t.drop h hl).WellPlaced ∧ (t.drop h hl).NestedBlocks) :=
        fun hok => hboth ⟨hok.1, .inr hok.2⟩
      rw [confParse_of_error hself, confParse_of_error hdrop]

/-- A file with a menu that sources a file with an `endmenu` outside every menu of its own. -/
def sampleSources : Sources where
  name := "Config.in"
  body := [.line (.start .menu), .line .config, .line (.finish .menu),
    .source "extra.in" [.line .comment, .line (.finish .menu)]]
  distinct := by decide
  cut := []
  ends := nofun

theorem sampleSources_endsWith : sampleSources.EndsWith "extra.in" (.finish .menu) :=
  ⟨_, .tail _ (.head _), rfl⟩

theorem sampleSources_confParse_drop :
    (sampleSources.drop sampleSources_endsWith rfl).confParse = sampleSources.confParse :=
  (confParse_drop_iff sampleSources sampleSources_endsWith rfl nofun).mpr (.inr (.inl rfl))

/-- A file with a menu and its end. -/
def oneMenu : Sources where
  name := "Config.in"
  body := [.line (.start .menu), .line .config, .line (.finish .menu)]
  distinct := by decide
  cut := []
  ends := nofun

/-- Without a newline `endmenu` is read when no file is left. -/
theorem oneMenu_confParse_drop :
    ¬ ∀ (t : Sources) (name : String) (l : Line) (h : t.EndsWith name l) (hl : l.endsAtEof),
      name ∉ t.cut → (t.drop h hl).confParse = t.confParse := by
  intro hall
  have hends : oneMenu.EndsWith "Config.in" (.finish .menu) := ⟨_, .head _, rfl⟩
  have heq := hall oneMenu "Config.in" (.finish .menu) hends rfl nofun
  have hdrop : (oneMenu.drop hends rfl).confParse = .error .zconfnerrs := rfl
  obtain ⟨tree, htree⟩ : ∃ tree, oneMenu.confParse = .ok tree := ⟨_, rfl⟩
  rw [hdrop, htree] at heq
  cases heq

end Sources

end Grasshopper.Kconfig.Zconf
