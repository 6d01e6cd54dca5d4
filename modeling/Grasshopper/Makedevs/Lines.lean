import Grasshopper.Makedevs.Main

/-! # Each line on its own

The arrays for the user and the group keep their text from line to line, so a line that leaves one
of them unread is given the ids of an earlier line.
-/

namespace Grasshopper.Makedevs

/-- What is applied for a line: its variables, if it is carried out and its type is known. -/
def Verdict.applied : Verdict → Option Entry
  | .entry e => if e.type = 'd' ∨ e.type = 'f' ∨ (typeBits e.type).isSome then some e else none
  | _ => none

section Local
variable (host : Host) (rootdir : Text) (stack : Buffers)

/-- In all tables that a line occurs in, and at all its places, the same is applied for it. -/
def LineLocal (line : Text) : Prop :=
  ∀ (table table' : Text) (fs fs' : Files) (i i' : ℕ) (v v' : Verdict),
    (tableLines [] table)[i]? = some line →
    (tableLines [] table')[i']? = some line →
    (makedevs host rootdir table stack fs).verdicts[i]? = some v →
    (makedevs host rootdir table' stack fs').verdicts[i']? = some v' →
    v.applied = v'.applied

end Local

/-- A text that `bb_get_chomped_line_from_file` can return. -/
def IsLine (line : Text) : Prop := ∀ c ∈ line, ¬(c = '\n' ∨ c = '\x00')

instance (line : Text) : Decidable (IsLine line) :=
  List.decidableBAll _ line

/-- The line determines both ids, or none is needed: all five texts of the line are there, or it is
a comment, or its type is not known, or its user is not known to the system. -/
def SelfContained (host : Host) (line : Text) : Prop :=
  let own := Buffers.scan ⟨[], [], []⟩ line
  let type := ((fields line)[1]?).elim '\x00' Scanf.Field.char
  own.name.head? = some '#' ∨ ¬(type = 'd' ∨ type = 'f' ∨ (typeBits type).isSome) ∨
    5 ≤ (fields line).length ∨ (fields line).length = 4 ∧ userId host own = none

/-! ## What a line leaves as it was -/

section Scan
variable {line : Text}

theorem elim_getElem? {α β : Type*} (l : List α) {i : ℕ} (hi : i < l.length) (b b' : β)
    (f : α → β) : (l[i]?).elim b f = (l[i]?).elim b' f := by
  rw [List.getElem?_eq_getElem hi, Option.elim_some, Option.elim_some]

theorem Buffers.scan_name (h : 1 ≤ (fields line).length) (b b' : Buffers) :
    (b.scan line).name = (b'.scan line).name := elim_getElem? _ h _ _ _

theorem Buffers.scan_user (h : 4 ≤ (fields line).length) (b b' : Buffers) :
    (b.scan line).user = (b'.scan line).user := elim_getElem? _ h _ _ _

theorem Buffers.scan_group (h : 5 ≤ (fields line).length) (b b' : Buffers) :
    (b.scan line).group = (b'.scan line).group := elim_getElem? _ h _ _ _

theorem Buffers.scan_user_kept (h : (fields line).length < 4) (b : Buffers) :
    (b.scan line).user = b.user := by
  have hnone : (fields line)[3]? = none := List.getElem?_eq_none (by omega)
  rw [Buffers.scan, hnone, Option.elim_none]

theorem Buffers.scan_group_kept (h : (fields line).length < 5) (b : Buffers) :
    (b.scan line).group = b.group := by
  have hnone : (fields line)[4]? = none := List.getElem?_eq_none (by omega)
  rw [Buffers.scan, hnone, Option.elim_none]

theorem userId_congr (host : Host) {b b' : Buffers} (h : b.user = b'.user) :
    userId host b = userId host b' := by
  rw [userId, userId, h]

end Scan

/-! ## Lines that stand for themselves -/

section Applied
variable {host : Host} {rootdir line : Text}

/-- What is applied for a line, from the ids that its arrays stand for. -/
theorem applied_interpret (hpass : Passes line) (buffers : Buffers)
    (hname : buffers.name.head? ≠ some '#') :
    (interpret host rootdir line buffers).applied =
      (groupId host buffers).bind fun gid => (userId host buffers).bind fun uid =>
        (Verdict.entry (entryOf rootdir line buffers uid gid)).applied := by
  rw [interpret, if_neg (not_not.mpr hpass), if_neg hname]
  cases groupId host buffers with
  | none => rfl
  | some gid =>
    cases userId host buffers with
    | none => rfl
    | some uid => rfl

theorem Passes.two_le (h : Passes line) : 2 ≤ (fields line).length :=
  not_lt.mp (not_or.mp h).1

theorem SelfContained.applied_eq (h : SelfContained host line) (hpass : Passes line)
    (b b' : Buffers) :
    (interpret host rootdir line (b.scan line)).applied =
      (interpret host rootdir line (b'.scan line)).applied := by
  have hnames : ∀ b : Buffers, (b.scan line).name = (Buffers.scan ⟨[], [], []⟩ line).name :=
    fun b => Buffers.scan_name (by have := hpass.two_le; omega) _ _
  by_cases hname : (Buffers.scan ⟨[], [], []⟩ line).name.head? = some '#'
  · simp [interpret, hpass, hnames, hname]
  · rw [applied_interpret hpass _ (by rwa [hnames]), applied_interpret hpass _ (by rwa [hnames])]
    rcases h with h | h | h | ⟨hlen, h⟩
    · exact absurd h hname
    · have hnone : ∀ (b : Buffers) uid gid,
          (Verdict.entry (entryOf rootdir line b uid gid)).applied = none :=
        fun b uid gid => if_neg h
      simp [hnone]
    · have hscan : b.scan line = b'.scan line := by
        rw [Buffers.mk.injEq]
        exact ⟨Buffers.scan_name (by omega) _ _, Buffers.scan_user (by omega) _ _,
          Buffers.scan_group h _ _⟩
      rw [hscan]
    · have hnone : ∀ b : Buffers, userId host (b.scan line) = none := fun b =>
        (userId_congr host (Buffers.scan_user hlen.ge _ _)).trans h
      simp [hnone]

theorem mainLoop_head (linenum : ℕ) (lines : List Text) (buffers : Buffers) (fs : Files) :
    (mainLoop host rootdir linenum (line :: lines) buffers fs).verdicts[0]? =
      some (interpret host rootdir line (buffers.scan line)) := by
  rw [mainLoop]
  cases interpret host rootdir line (buffers.scan line) with
  | skip | invalid | die | entry => rfl

/-- A verdict of a run is the reading of its line from some earlier arrays. -/
theorem mainLoop_verdict {linenum i : ℕ} {lines : List Text} {buffers : Buffers} {fs : Files}
    {v : Verdict} (hline : lines[i]? = some line)
    (hv : (mainLoop host rootdir linenum lines buffers fs).verdicts[i]? = some v) :
    ∃ b : Buffers, v = interpret host rootdir line (b.scan line) := by
  induction lines generalizing linenum i buffers fs with
  | nil => cases hline
  | cons first lines ih =>
    cases i with
    | zero =>
      cases hline
      rw [mainLoop_head] at hv
      exact ⟨buffers, (Option.some.inj hv).symm⟩
    | succ i =>
      rw [mainLoop] at hv
      cases hfirst : interpret host rootdir first (buffers.scan first) with
      | die msg =>
        rw [hfirst] at hv
        cases hv
      | skip | invalid | entry =>
        rw [hfirst] at hv
        exact ih hline hv

theorem SelfContained.lineLocal (h : SelfContained host line) (hpass : Passes line)
    (stack : Buffers) : LineLocal host rootdir stack line := by
  intro table table' fs fs' i i' v v' hi hi' hv hv'
  obtain ⟨b, rfl⟩ := mainLoop_verdict hi hv
  obtain ⟨b', rfl⟩ := mainLoop_verdict hi' hv'
  exact h.applied_eq hpass b b'

end Applied

/-! ## Lines that are given what an earlier line left -/

section Stale
variable {host : Host} {rootdir line : Text}

theorem tableLines_append {l : Text} (hl : IsLine l) (linebuf text : Text) :
    tableLines linebuf (l ++ text) = tableLines (l.reverse ++ linebuf) text := by
  induction l generalizing linebuf with
  | nil => rfl
  | cons c l ih =>
    rw [IsLine, List.forall_mem_cons] at hl
    rw [List.cons_append, tableLines, if_neg hl.1, ih hl.2, List.reverse_cons, List.append_assoc]
    rfl

theorem tableLines_two {first : Text} (hfirst : IsLine first) (hline : IsLine line)
    (hne : line ≠ []) : tableLines [] (first ++ '\n' :: line) = [first, line] := by
  have hlast : tableLines [] line = [line] := by
    have h := tableLines_append hline [] []
    rw [List.append_nil, List.append_nil] at h
    rw [h, tableLines, if_neg (by simpa using hne), List.reverse_reverse]
  rw [tableLines_append hfirst, tableLines, if_pos (.inl rfl), hlast, List.append_nil,
    List.reverse_reverse]

/-- `a b 0 0 c 256`: a line out of bounds, which still fills all arrays. -/
def filler (c : Char) : Text := ['a', ' ', 'b', ' ', '0', ' ', '0', ' ', c, ' ', '2', '5', '6']

theorem fields_filler {c : Char} (hc : c = '0' ∨ c = '1') :
    fields (filler c) =
      [.word ['a'], .character 'b', .number 0, .word ['0'], .word [c], .number 256] := by
  rcases hc with rfl | rfl
  · decide +kernel
  · decide +kernel

/-- After a line that is reported, the next one is read from what it left. -/
theorem verdicts_after_filler (host : Host) (rootdir : Text) {c : Char} (hc : c = '0' ∨ c = '1')
    (hline : IsLine line) (hne : line ≠ []) (stack : Buffers) (fs : Files) :
    (tableLines [] (filler c ++ '\n' :: line))[1]? = some line ∧
    (makedevs host rootdir (filler c ++ '\n' :: line) stack fs).verdicts[1]? =
      some (interpret host rootdir line (Buffers.scan ⟨['a'], ['0'], [c]⟩ line)) := by
  have hfiller : IsLine (filler c) := by
    rcases hc with rfl | rfl
    · decide
    · decide
  have hlines := tableLines_two hfiller hline hne
  have hinvalid : ¬Passes (filler c) := by
    rw [Passes, not_not]
    right
    simp only [numberAt, fields_filler hc]
    change (256 : UInt32) ||| 0 ||| 0 ||| 0 ||| 0 > 255
    decide
  have hfirst : ∀ b, interpret host rootdir (filler c) b = .invalid := fun b =>
    (if_pos hinvalid).trans rfl
  have hscan : stack.scan (filler c) = ⟨['a'], ['0'], [c]⟩ := by
    rw [Buffers.scan, fields_filler hc]
    rfl
  constructor
  · rw [hlines]
    rfl
  · rw [makedevs, hlines, mainLoop, hfirst, hscan]
    exact mainLoop_head 2 [] _ fs

/-- A line that does not determine both ids is given a group id by the line before it. -/
theorem applied_after_filler (rootdir : Text) (hpass : Passes line)
    (hself : ¬SelfContained host line) {c : Char} {gid : UInt32}
    (hc : c = '0' ∧ gid = 0 ∨ c = '1' ∧ gid = 1) :
    ∃ e, (interpret host rootdir line (Buffers.scan ⟨['a'], ['0'], [c]⟩ line)).applied = some e ∧
      e.gid = gid := by
  simp only [SelfContained, not_or, not_and, not_not] at hself
  obtain ⟨hname, htype, hlen, huser⟩ := hself
  obtain ⟨uid, huid⟩ : ∃ uid, userId host (Buffers.scan ⟨['a'], ['0'], [c]⟩ line) = some uid := by
    by_cases hfour : (fields line).length = 4
    · rw [userId_congr host (Buffers.scan_user hfour.ge _ ⟨[], [], []⟩)]
      exact Option.ne_none_iff_exists'.mp (huser hfour)
    · rw [userId, Buffers.scan_user_kept (by omega)]
      exact ⟨0, rfl⟩
  have hgid : groupId host (Buffers.scan ⟨['a'], ['0'], [c]⟩ line) = some gid := by
    rw [groupId, Buffers.scan_group_kept (by omega)]
    rcases hc with ⟨rfl, rfl⟩ | ⟨rfl, rfl⟩
    · rfl
    · rfl
  rw [Buffers.scan_name (by have := hpass.two_le; omega) _ ⟨['a'], ['0'], [c]⟩] at hname
  refine ⟨entryOf rootdir line (Buffers.scan ⟨['a'], ['0'], [c]⟩ line) uid gid, ?_, rfl⟩
  rw [applied_interpret hpass _ hname, hgid, huid]
  exact if_pos (by tauto)

theorem LineLocal.selfContained {stack : Buffers} (hline : IsLine line) (hpass : Passes line)
    (h : LineLocal host rootdir stack line) : SelfContained host line := by
  by_contra hself
  have hne : line ≠ [] := by
    rintro rfl
    exact absurd hpass (by decide)
  obtain ⟨e, he, hgid⟩ := applied_after_filler rootdir hpass hself (.inl ⟨rfl, rfl⟩)
  obtain ⟨e', he', hgid'⟩ := applied_after_filler rootdir hpass hself (.inr ⟨rfl, rfl⟩)
  obtain ⟨hl, hv⟩ := verdicts_after_filler host rootdir (.inl rfl) hline hne stack fun _ => none
  obtain ⟨hl', hv'⟩ := verdicts_after_filler host rootdir (.inr rfl) hline hne stack fun _ => none
  have hsame := h _ _ _ _ 1 1 _ _ hl hl' hv hv'
  rw [he, he'] at hsame
  cases hsame
  exact absurd (hgid.symm.trans hgid') (by decide)

/-- What is applied for a line depends on no other line exactly if the line determines both ids. -/
theorem lineLocal_iff {stack : Buffers} (hline : IsLine line) (hpass : Passes line) :
    LineLocal host rootdir stack line ↔ SelfContained host line :=
  ⟨LineLocal.selfContained hline hpass, fun h => h.lineLocal hpass stack⟩

end Stale

/-! ## A line without ids -/

/-- `b d 755` -/
def bareLine : Text := ['b', ' ', 'd', ' ', '7', '5', '5']

/-- `a d 755 i i` and then the line without ids -/
def bareAfter (i : Char) : Text :=
  ['a', ' ', 'd', ' ', '7', '5', '5', ' ', i, ' ', i, '\n'] ++ bareLine

theorem bareLine_lineLocal_iff :
    LineLocal numericHost ['/'] ⟨[], [], []⟩ bareLine ↔ SelfContained numericHost bareLine :=
  lineLocal_iff (by decide) (by decide +kernel)

/-- The same line makes a directory of user 0 after one line and of user 7 after another. -/
theorem bareLine_not_lineLocal :
    Passes bareLine ∧ ¬LineLocal numericHost ['/'] ⟨[], [], []⟩ bareLine := by
  refine ⟨by decide +kernel, fun h => ?_⟩
  have hsame := h (bareAfter '0') (bareAfter '7') (fun _ => none) (fun _ => none) 1 1
    (.entry ⟨['/', 'b'], 'd', 0o755, 0, 0, 0, 0, 0, 0, 0⟩)
    (.entry ⟨['/', 'b'], 'd', 0o755, 7, 7, 0, 0, 0, 0, 0⟩)
    (by decide +kernel) (by decide +kernel) (by decide +kernel) (by decide +kernel)
  exact absurd hsame (by decide +kernel)

end Grasshopper.Makedevs
