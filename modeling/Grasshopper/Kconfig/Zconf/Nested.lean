import Grasshopper.Kconfig.Zconf.Parser
import Grasshopper.Library.Nesting

/-! # The blocks that `conf_parse` accepts

An end of a block inside another block, in another file or missing is counted in `zconfnerrs`. An end
outside every block is only reported: the parser accepts the trees that are nested without these.
-/

namespace Grasshopper.Kconfig.Zconf

open Nesting

/-! ## Blocks as brackets -/

/-- The bracket of a line: the kind of its block and the file it stands in. -/
def brackets {φ : Type} : Line × φ → List (Bracket (Block × φ))
  | (.start b, file) => [.opening (b, file)]
  | (.finish b, file) => [.closing (b, file)]
  | _ => []

/-- Whether a line may stand inside the open blocks. -/
def admits : List Block → Line → Bool
  | [], _ => true
  | b :: _, l => b.takes l

/-- The blocks that are open after a line. -/
def after : List Block → Line → List Block
  | bs, .start b => b :: bs
  | bs, .finish _ => bs.tail
  | bs, _ => bs

/-- No line stands directly in a block whose rule has no place for it. -/
def placed : List Block → List Line → Bool
  | _, [] => true
  | bs, l :: ls => admits bs l && placed (after bs l) ls

namespace SourceTree

/-- The blocks of a tree, each with its file. -/
def brackets (t : SourceTree) : List (Bracket (Block × String)) := t.lines.flatMap Zconf.brackets

/-- Every statement stands where the grammar has one of its kind: no `menu` and no `choice` directly
in a `choice`, no `mainmenu` in a block. -/
def WellPlaced (t : SourceTree) : Prop := placed [] (t.lines.map Prod.fst)

instance (t : SourceTree) : Decidable t.WellPlaced := inferInstanceAs (Decidable (_ = true))

end SourceTree

/-! ## The error counter -/

/-- Whether a message is counted: all are, but the one for an end outside every block. -/
def Message.counted : Message → Bool
  | unexpected _ => false
  | within _ _ | differentFile _ _ | missing _ => true

/-- The counter is the number of the counted messages. -/
def Parser.Counted {φ : Type} (p : Parser φ) : Prop := p.zconfnerrs = p.messages.countP Message.counted

namespace Parser

variable {φ : Type}

theorem Counted.missing {p : Parser φ} (h : p.Counted) (b : Block) : (p.missing b).Counted := by
  simpa [Counted, Parser.missing, Message.counted, List.countP_cons] using h

theorem Counted.foldl_missing {p : Parser φ} (h : p.Counted) (bs : List Block) :
    (bs.foldl Parser.missing p).Counted := by
  induction bs generalizing p with
  | nil => exact h
  | cons b bs ih => exact ih (h.missing b)

variable [DecidableEq φ]

theorem Counted.blockEnd {p : Parser φ} (h : p.Counted) (file : φ) (token b : Block) :
    (p.blockEnd file token b).Counted := by
  unfold Parser.blockEnd zconfEndtoken
  split_ifs <;> simpa [Counted, menuEndMenu, Message.counted, List.countP_cons] using h

theorem Counted.line {p : Parser φ} (h : p.Counted) (file : φ) (l : Line) :
    (p.line file l).Counted := by
  have hr : (p.reduce l).Counted := h.foldl_missing _
  unfold Parser.line
  cases l with
  | start b => exact hr
  | finish token =>
    cases hb : (p.reduce (.finish token)).blocks with
    | nil => simpa [Counted, hb, Message.counted, List.countP_cons] using hr
    | cons b bs => simpa [Counted, hb] using hr.blockEnd file token b
  | config => exact hr
  | menuconfig => exact hr
  | comment => exact hr
  | eol => exact hr
  | mainmenu => exact hr

theorem Counted.readLines {p : Parser φ} (h : p.Counted) (ls : List (Line × φ)) :
    (p.readLines ls).Counted := by
  induction ls generalizing p with
  | nil => exact h
  | cons l ls ih => exact ih (h.line l.2 l.1)

end Parser

/-- `conf_parse` exits exactly when the grammar has printed a message other than the one for an end
outside every block. -/
theorem SourceTree.accepted_iff_messages (t : SourceTree) :
    t.Accepted ↔ ∀ m ∈ (Parser.readLines {} t.lines).eof.messages, ¬ m.counted := by
  have hcounted : (Parser.readLines {} t.lines).eof.Counted :=
    (Parser.Counted.readLines (p := {}) rfl t.lines).foldl_missing _
  rw [t.accepted_iff, hcounted, List.countP_eq_zero]

/-! ## What a line does to the counter -/

namespace Parser

variable {φ : Type}

theorem zconfnerrs_foldl_missing (p : Parser φ) (bs : List Block) :
    (bs.foldl missing p).zconfnerrs = p.zconfnerrs + bs.length := by
  induction bs generalizing p with
  | nil => rfl
  | cons b bs ih =>
    have hone : (p.missing b).zconfnerrs = p.zconfnerrs + 1 := rfl
    rw [List.foldl_cons, ih, hone, List.length_cons]
    omega

theorem reduce_of_admits {p : Parser φ} {l : Line} (h : admits p.blocks l) : p.reduce l = p := by
  unfold reduce
  cases hb : p.blocks with
  | nil => rfl
  | cons b bs =>
    have ht : b.takes l = true := by simpa [admits, hb] using h
    simp [ht]

theorem zconfnerrs_reduce_pos {p : Parser φ} {l : Line} (h : ¬ admits p.blocks l) :
    0 < (p.reduce l).zconfnerrs := by
  rw [reduce, zconfnerrs_foldl_missing]
  cases hb : p.blocks with
  | nil => simp [admits, hb] at h
  | cons b bs =>
    have ht : b.takes l = false := by simpa [admits, hb] using h
    simp only [List.takeWhile_cons, ht, Bool.not_false, if_true, List.length_cons]
    omega

variable [DecidableEq φ]

theorem zconfnerrs_le_blockEnd (p : Parser φ) (file : φ) (token b : Block) :
    p.zconfnerrs ≤ (p.blockEnd file token b).zconfnerrs := by
  unfold blockEnd zconfEndtoken
  split_ifs <;> simp [menuEndMenu]

theorem zconfnerrs_reduce_le_line (p : Parser φ) (file : φ) (l : Line) :
    (p.reduce l).zconfnerrs ≤ (p.line file l).zconfnerrs := by
  unfold line
  cases l with
  | finish token =>
    cases hb : (p.reduce (.finish token)).blocks with
    | nil => simp [hb]
    | cons b bs => simpa [hb] using zconfnerrs_le_blockEnd _ file token b
  | _ => exact Nat.le_refl _

theorem zconfnerrs_le_line (p : Parser φ) (file : φ) (l : Line) :
    p.zconfnerrs ≤ (p.line file l).zconfnerrs := by
  have hr : p.zconfnerrs ≤ (p.reduce l).zconfnerrs := by
    rw [reduce, zconfnerrs_foldl_missing]
    exact Nat.le_add_right _ _
  exact Nat.le_trans hr (p.zconfnerrs_reduce_le_line file l)

/-- An error is never forgotten. -/
theorem zconfnerrs_le_readLines (p : Parser φ) (ls : List (Line × φ)) :
    p.zconfnerrs ≤ (p.readLines ls).zconfnerrs := by
  induction ls generalizing p with
  | nil => exact Nat.le_refl _
  | cons l ls ih => exact Nat.le_trans (p.zconfnerrs_le_line l.2 l.1) (ih _)

omit [DecidableEq φ] in
theorem zconfnerrs_eof (p : Parser φ) : p.eof.zconfnerrs = p.zconfnerrs + p.blocks.length :=
  zconfnerrs_foldl_missing p p.blocks

theorem zconfnerrs_eof_ne_zero {p : Parser φ} (h : p.zconfnerrs ≠ 0) (ls : List (Line × φ)) :
    (p.readLines ls).eof.zconfnerrs ≠ 0 := by
  have hle := p.zconfnerrs_le_readLines ls
  rw [zconfnerrs_eof]
  omega

/-- A parser without an error has open exactly the given blocks, and these are its menus. -/
structure Sync (p : Parser φ) (s : List (Block × φ)) : Prop where
  blocks : p.blocks = s.map Prod.fst
  menus : p.menus = s.map Prod.snd
  zconfnerrs : p.zconfnerrs = 0

theorem Sync.start {p : Parser φ} {s : List (Block × φ)} (h : p.Sync s) {b : Block}
    (ha : admits (s.map Prod.fst) (.start b)) (file : φ) :
    (p.line file (.start b)).Sync ((b, file) :: s) := by
  rw [← h.blocks] at ha
  simp only [line, reduce_of_admits ha]
  exact ⟨by simp [h.blocks], by simp [h.menus], h.zconfnerrs⟩

theorem Sync.finish_nil {p : Parser φ} (h : p.Sync []) (file : φ) (token : Block) :
    (p.line file (.finish token)).Sync [] := by
  have hb : p.blocks = [] := h.blocks
  have hr : p.reduce (.finish token) = p := reduce_of_admits (by simp [admits, hb])
  simp only [line, hr, hb]
  exact ⟨rfl, h.menus, h.zconfnerrs⟩

theorem Sync.finish_cons {p : Parser φ} {k : Block × φ} {s : List (Block × φ)}
    (h : p.Sync (k :: s)) (file : φ) (token : Block) :
    if (token, file) = k then (p.line file (.finish token)).Sync s
    else (p.line file (.finish token)).zconfnerrs ≠ 0 := by
  obtain ⟨b, f⟩ := k
  have hb : p.blocks = b :: s.map Prod.fst := h.blocks
  have hm : p.menus = f :: s.map Prod.snd := h.menus
  have hr : p.reduce (.finish token) = p := by
    apply reduce_of_admits
    cases b <;> simp [admits, hb, Block.takes]
  simp only [line, hr, hb, blockEnd, zconfEndtoken]
  by_cases ht : token = b
  · by_cases hf : file = f
    · subst ht hf
      simp only [hm, List.head?_cons, ne_eq, not_true_eq_false, if_false, if_true]
      exact ⟨rfl, by simp [menuEndMenu, hm], h.zconfnerrs⟩
    · simp [ht, hm, hf, Ne.symm hf]
  · simp [ht]

/-- A line that neither opens nor ends a block. -/
theorem Sync.other {p : Parser φ} {s : List (Block × φ)} (h : p.Sync s) {l : Line}
    (ha : admits (s.map Prod.fst) l) (hs : ∀ b, l ≠ .start b) (hf : ∀ b, l ≠ .finish b)
    (file : φ) : p.line file l = p := by
  rw [← h.blocks] at ha
  cases l with
  | start b => exact absurd rfl (hs b)
  | finish b => exact absurd rfl (hf b)
  | _ => simp only [line, reduce_of_admits ha]

/-- The lines are read without an error when they stand where they may and their blocks, without the
ends outside every block, close what is open. -/
theorem Sync.readLines_iff {p : Parser φ} {s : List (Block × φ)} (h : p.Sync s)
    (ls : List (Line × φ)) :
    (p.readLines ls).eof.zconfnerrs = 0 ↔
      placed (s.map Prod.fst) (ls.map Prod.fst) ∧
        unclosed s (dropStray s.length (ls.flatMap brackets)) = some [] := by
  induction ls generalizing p s with
  | nil =>
    rw [readLines_nil, zconfnerrs_eof, h.zconfnerrs, h.blocks]
    simp [placed, dropStray, unclosed]
  | cons l ls ih =>
    obtain ⟨l, file⟩ := l
    by_cases ha : admits (s.map Prod.fst) l
    · cases l with
      | start b =>
        rw [readLines_cons, ih (h.start ha file)]
        simp [placed, ha, after, brackets, dropStray, unclosed]
      | finish token =>
        cases s with
        | nil =>
          rw [readLines_cons, ih (h.finish_nil file token)]
          simp [placed, admits, after, brackets, dropStray]
        | cons k s =>
          have hline := h.finish_cons file token
          split_ifs at hline with hk
          · rw [readLines_cons, ih hline]
            simp_all [placed, after, brackets, dropStray, unclosed]
          · have hne := zconfnerrs_eof_ne_zero hline ls
            refine iff_of_false hne ?_
            simp [brackets, dropStray, unclosed, hk]
      | _ =>
        rw [readLines_cons, h.other ha (by simp) (by simp), ih h]
        simp [placed, ha, after, brackets]
    · refine iff_of_false (zconfnerrs_eof_ne_zero ?_ ls) (by simp [placed, ha])
      have hpos := zconfnerrs_reduce_pos (p := p) (l := l) (h.blocks ▸ ha)
      have hle := p.zconfnerrs_reduce_le_line file l
      simp only
      omega

/-- As long as there is no error, the brackets of the lines tell how many blocks are open. -/
theorem Sync.exists_readLines {p : Parser φ} {s : List (Block × φ)} (h : p.Sync s)
    {ls : List (Line × φ)} (hok : (p.readLines ls).zconfnerrs = 0) :
    ∃ s', (p.readLines ls).Sync s' ∧ s'.length = depth s.length (ls.flatMap brackets) := by
  induction ls generalizing p s with
  | nil => exact ⟨s, h, rfl⟩
  | cons l ls ih =>
    obtain ⟨l, file⟩ := l
    rw [readLines_cons] at hok ⊢
    have hline : (p.line file l).zconfnerrs = 0 :=
      Nat.eq_zero_of_le_zero (hok ▸ zconfnerrs_le_readLines _ ls)
    have ha : admits (s.map Prod.fst) l := by
      by_contra ha
      have hpos := zconfnerrs_reduce_pos (p := p) (l := l) (h.blocks ▸ ha)
      have hle := p.zconfnerrs_reduce_le_line file l
      omega
    cases l with
    | start b => exact ih (h.start ha file) hok
    | finish token =>
      cases s with
      | nil => exact ih (h.finish_nil file token) hok
      | cons k s =>
        have hfinish := h.finish_cons file token
        split_ifs at hfinish with hk
        · exact ih hfinish hok
        · exact absurd hline hfinish
    | _ =>
      rw [h.other ha (by simp) (by simp)] at hok ⊢
      exact ih h hok

end Parser

namespace SourceTree

/-- What `conf_parse` accepts: trees whose statements stand where they may and whose blocks are
nested once the ends outside every block are left out. -/
theorem accepted_iff_dropStray (t : SourceTree) :
    t.Accepted ↔ t.WellPlaced ∧ Nested (dropStray 0 t.brackets) := by
  have hsync : Parser.Sync ({} : Parser String) [] := ⟨rfl, rfl, rfl⟩
  rw [t.accepted_iff, hsync.readLines_iff t.lines]
  exact and_congr_right fun _ => unclosed_eq_nil_iff

/-- Where every statement stands in its place, nested trees are accepted. -/
theorem accepted_of_nested {t : SourceTree} (hp : t.WellPlaced) (h : Nested t.brackets) :
    t.Accepted := by
  rw [accepted_iff_dropStray, dropStray_eq_self h.not_stray]
  exact ⟨hp, h⟩

/-- `conf_parse` accepts the properly nested trees and no others, exactly on the trees in which no end
stands outside every block while everything else is nested. -/
theorem accepted_iff_nested (t : SourceTree) :
    (t.WellPlaced → (t.Accepted ↔ Nested t.brackets)) ↔
      (t.WellPlaced → Stray t.brackets → ¬ Nested (dropStray 0 t.brackets)) := by
  constructor
  · intro h hp hs hd
    have hacc : t.Accepted := t.accepted_iff_dropStray.mpr ⟨hp, hd⟩
    exact ((h hp).mp hacc).not_stray hs
  · intro h hp
    constructor
    · intro hacc
      have hd := (t.accepted_iff_dropStray.mp hacc).2
      have hs : ¬ Stray t.brackets := fun hs => h hp hs hd
      rwa [dropStray_eq_self hs] at hd
    · exact accepted_of_nested hp

/-- A single file with an `endmenu` and nothing else. -/
def loneEndmenu : SourceTree := ⟨"Config.in", [.line (.finish .menu)], by decide⟩

/-- The `endmenu` is outside every menu, and `conf_parse` goes on. -/
theorem loneEndmenu_accepted :
    ¬ ∀ t : SourceTree, t.WellPlaced → (t.Accepted ↔ Nested t.brackets) := by
  intro h
  have hacc : loneEndmenu.Accepted := ⟨_, rfl⟩
  exact absurd ((h loneEndmenu (by decide)).mp hacc) (by decide)

end SourceTree

end Grasshopper.Kconfig.Zconf
