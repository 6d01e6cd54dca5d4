import Grasshopper.Makedevs.System
import Grasshopper.Makedevs.Range
import Grasshopper.Makedevs.Lines

/-! # The exit status of `makedevs`

The loop of `main` on a system whose calls may succeed or fail in any way, with the variable `ret`
that records failures and the status that the program exits with.
-/

namespace Grasshopper.Makedevs

section Calls
variable {σ : Type} (sys : System σ)

/-- The calls for one object: what they told, whether `ret` becomes `EXIT_FAILURE`, and the system
after them. -/
abbrev Calls (σ : Type) := List Event × Bool × σ

/-- `chown` and then `chmod`, for a directory or a file. -/
def ownerCalls (path : Text) (uid gid mode : UInt32) (st : σ) : Calls σ :=
  match sys.chown path uid gid st with
  | (false, st) => ([.chown path uid gid false], true, st)
  | (true, st) =>
    if mode = -1 then ([.chown path uid gid true], false, st)
    else
      let (ok, st) := sys.chmod path mode st
      ([.chown path uid gid true, .chmod path mode ok], !ok, st)

/-- `mknod` and `chown`. -/
def mknodCalls (path : Text) (uid gid mode : UInt32) (rdev : UInt32 × UInt32) (st : σ) : Calls σ :=
  match sys.mknod path mode rdev st with
  | (false, st) => ([.mknod path mode false], true, st)
  | (true, st) =>
    let (ok, st) := sys.chown path uid gid st
    ([.mknod path mode true, .chown path uid gid ok], !ok, st)

/-- `mknod` with `chown`, and then `chmod`, for one node. -/
def nodeCalls (path : Text) (uid gid mode : UInt32) (rdev : UInt32 × UInt32) (st : σ) : Calls σ :=
  let (log, failed, st) := mknodCalls sys path uid gid mode rdev st
  if mode = -1 then (log, failed, st)
  else
    let (ok, st) := sys.chmod path mode st
    (log ++ [.chmod path mode ok], failed || !ok, st)

/-- `for (i = start; i < count; i++)`, with the number of rounds left. -/
def rangeCalls (e : Entry) (mode : UInt32) : ℕ → ℕ → σ → Calls σ
  | 0, _, st => ([], false, st)
  | rounds + 1, i, st =>
    let (log, failed, st) := nodeCalls sys (e.numberedName i) e.uid e.gid mode (e.rdevAt i) st
    let (rest, failed', st) := rangeCalls e mode rounds (i + 1) st
    (log ++ rest, failed || failed', st)

/-- A line of type `d`; the `umask` is 0. What `bb_make_directory` returns is dropped, and the
buffer used as it is left. -/
def directoryCalls (e : Entry) (st : σ) : Option (Calls σ) := do
  let dir ← makeDirectory sys (e.fullName ++ [NUL]) (e.mode ||| S_IFDIR).toNat 0 st
  let (log, failed, st) := ownerCalls sys (Cstring.text NUL dir.path) e.uid e.gid e.mode dir.sys
  return (dir.log ++ log, failed, st)

/-- A line of type `f`. -/
def fileCalls (e : Entry) (st : σ) : Calls σ :=
  let (mode, st) := sys.stat e.fullName st
  if statIs S_IFREG mode then
    let (log, failed, st) := ownerCalls sys e.fullName e.uid e.gid e.mode st
    (.stat e.fullName true :: log, failed, st)
  else ([.stat e.fullName false], true, st)

/-- A line of a type that `mknod` is called for. -/
def deviceCalls (e : Entry) (mode : UInt32) (st : σ) : Calls σ :=
  if 0 < e.count then
    rangeCalls sys e mode (e.count.toNat - e.start.toNat) e.start.toNat st
  else nodeCalls sys e.fullName e.uid e.gid mode (e.major, e.minor) st

/-- The rest of a round, after `full_name`. -/
def entryCalls (e : Entry) (st : σ) : Option (Calls σ) :=
  if e.type = 'd' then directoryCalls sys e st
  else if e.type = 'f' then some (fileCalls sys e st)
  else
    match typeBits e.type with
    | none => some ([], true, st)
    | some bits => some (deviceCalls sys e (e.mode ||| bits) st)

end Calls

/-- A round of the loop: what becomes of its line, and the calls that are made for it. -/
structure Round where
  verdict : Verdict
  log : List Event
deriving DecidableEq

/-- The end of a run: its rounds, the last value of `ret`, and the status of the program. -/
structure Exit where
  rounds : List Round
  ret : ℕ
  status : ℕ
deriving DecidableEq

section Main
variable {σ : Type} (sys : System σ) (host : Host) (rootdir : Text)

/-- The loop of `main` and what follows it; an unknown user or group ends it with status 1. -/
def statusLoop : List Text → Buffers → ℕ → σ → Option Exit
  | [], _, ret, _ => some ⟨[], ret, 0⟩
  | line :: lines, buffers, ret, st =>
    let buffers := buffers.scan line
    match interpret host rootdir line buffers with
    | .skip => do
      let exit ← statusLoop lines buffers ret st
      return { exit with rounds := ⟨.skip, []⟩ :: exit.rounds }
    | .invalid => do
      let exit ← statusLoop lines buffers 1 st
      return { exit with rounds := ⟨.invalid, []⟩ :: exit.rounds }
    | .die msg => some ⟨[⟨.die msg, []⟩], ret, 1⟩
    | .entry e => do
      let (log, failed, st) ← entryCalls sys e st
      let exit ← statusLoop lines buffers (if failed then 1 else ret) st
      return { exit with rounds := ⟨.entry e, log⟩ :: exit.rounds }

/-- `makedevs` on a device table, with what the stack holds at the start. -/
def makedevsStatus (table : Text) (stack : Buffers) (st : σ) : Option Exit :=
  statusLoop sys host rootdir (tableLines [] table) stack 0 st

end Main

/-! ## What a table asks for -/

/-- `chown` and `chmod` have given an object its owner and mode. -/
def Owned (log : List Event) (path : Text) (uid gid mode : UInt32) : Prop :=
  .chown path uid gid true ∈ log ∧ (mode = -1 ∨ .chmod path mode true ∈ log)

/-- A node is made as it is asked for. -/
def NodeMade (log : List Event) (path : Text) (uid gid mode : UInt32) : Prop :=
  .mknod path mode true ∈ log ∧ Owned log path uid gid mode

/-- The nodes that a line names: one, or as many as its count from its start on. -/
def Entry.objects (e : Entry) : List Text :=
  if 0 < e.count then (List.range e.count.toNat).map fun j => e.numberedName (e.start.toNat + j)
  else [e.fullName]

/-- Every object that a line names is there, with the owner and the mode it asks for. -/
def Entry.Carried (e : Entry) (log : List Event) : Prop :=
  if e.type = 'd' then .mkdir e.fullName true ∈ log ∧ Owned log e.fullName e.uid e.gid e.mode
  else if e.type = 'f' then
    .stat e.fullName true ∈ log ∧ Owned log e.fullName e.uid e.gid e.mode
  else
    match typeBits e.type with
    | none => False
    | some bits => ∀ path ∈ e.objects, NodeMade log path e.uid e.gid (e.mode ||| bits)

/-- A line is a blank or a comment, or is valid and carried out. -/
def Round.Done (r : Round) : Prop := r.verdict = .skip ∨ ∃ e, r.verdict = .entry e ∧ e.Carried r.log

/-! ## When nothing goes wrong -/

/-- A line has a type that is known, and a range of it starts at zero. -/
def Entry.Plain (e : Entry) : Prop :=
  if e.type = 'd' ∨ e.type = 'f' then True
  else (typeBits e.type).isSome ∧ (0 < e.count → e.start = 0)

/-- A line is no error, and no call for it fails. -/
def Round.Clean (r : Round) : Prop :=
  match r.verdict with
  | .skip => True
  | .invalid => False
  | .die _ => False
  | .entry e => e.Plain ∧ ∀ ev ∈ r.log, ¬ev.failed

/-- A line names a user or a group that the system does not know. -/
def Round.Dies (r : Round) : Prop := ∃ msg, r.verdict = .die msg

/-! ## The calls of one line -/

section Calls
variable {σ : Type} {path : Text} {uid gid mode : UInt32}

/-- The calls that give an object its owner and mode. -/
def Event.ofOwner : Event → Bool
  | chown _ _ _ _ => true
  | chmod _ _ _ => true
  | _ => false

theorem ownerCalls_log (sys : System σ) (path : Text) (uid gid mode : UInt32) (st : σ) :
    (∀ ev ∈ (ownerCalls sys path uid gid mode st).1, ev.ofOwner ∧ ev.path = path) ∧
      (Owned (ownerCalls sys path uid gid mode st).1 path uid gid mode ↔
        ∀ ev ∈ (ownerCalls sys path uid gid mode st).1, ¬ev.failed) := by
  unfold ownerCalls Owned
  obtain ⟨ok, st'⟩ := sys.chown path uid gid st
  cases ok with
  | false => simp [Event.ofOwner, Event.path, Event.failed]
  | true =>
    by_cases hmode : mode = -1
    · simp [hmode, Event.ofOwner, Event.path, Event.failed]
    · simp [hmode, Event.ofOwner, Event.path, Event.failed]

/-- `bb_make_directory` returns with the `umask` as it was. The buffer is as it was, and `main` gives
the owner and mode to the directory of the table, exactly if all parents of the path can be
passed. -/
theorem makeDirectory_frame_iff (sys : System σ) (path rest : Text) (hpath : NUL ∉ path)
    (mode : ℤ) (mask uid gid perm : UInt32) (st : σ) :
    ∃ r, makeDirectory sys (path ++ NUL :: rest) mode mask st = some r ∧
      ((r.path = path ++ NUL :: rest ∧ r.umask = mask ∧
          ∀ ev ∈ (ownerCalls sys (Cstring.text NUL r.path) uid gid perm r.sys).1, ev.path = path) ↔
        ParentsPass sys (directoryUmask mode mask) path st) := by
  obtain ⟨r, hr, hspec⟩ := makeDirectory_spec path rest hpath st
  refine ⟨r, hr, ?_⟩
  constructor
  · rintro ⟨hbuf, -, -⟩
    exact hspec.path.mp hbuf
  · intro hpass
    have hbuf := hspec.path.mpr hpass
    refine ⟨hbuf, hspec.umask, fun ev hev => ?_⟩
    have hname := ((ownerCalls_log sys _ uid gid perm r.sys).1 ev hev).2
    rwa [hbuf, Cstring.text_append hpath] at hname

theorem nodeCalls_log (sys : System σ) (path : Text) (uid gid mode : UInt32)
    (rdev : UInt32 × UInt32) (st : σ) :
    (∀ ev ∈ (nodeCalls sys path uid gid mode rdev st).1, ev.path = path) ∧
      (NodeMade (nodeCalls sys path uid gid mode rdev st).1 path uid gid mode ↔
        ∀ ev ∈ (nodeCalls sys path uid gid mode rdev st).1, ¬ev.failed) := by
  unfold nodeCalls mknodCalls NodeMade Owned
  obtain ⟨ok, st₁⟩ := sys.mknod path mode rdev st
  cases ok with
  | false =>
    by_cases hmode : mode = -1
    · simp [hmode, Event.path, Event.failed]
    · simp [hmode, Event.path, Event.failed]
  | true =>
    obtain ⟨ok, st₂⟩ := sys.chown path uid gid st₁
    by_cases hmode : mode = -1
    · simp [hmode, Event.path, Event.failed]
    · simp [hmode, Event.path, Event.failed]

/-- What the calls for one path tell does not depend on the calls for others. -/
theorem nodeMade_append {log log' : List Event} (h : ∀ ev ∈ log', ev.path ≠ path) :
    NodeMade (log ++ log') path uid gid mode ↔ NodeMade log path uid gid mode := by
  have hnot : ∀ ev : Event, ev.path = path → (ev ∈ log ++ log' ↔ ev ∈ log) := by
    intro ev hev
    rw [List.mem_append, or_iff_left]
    exact fun hmem => h ev hmem hev
  simp only [NodeMade, Owned, hnot (.mknod path mode true) rfl,
    hnot (.chown path uid gid true) rfl, hnot (.chmod path mode true) rfl]

theorem nodeMade_append_right {log log' : List Event} (h : ∀ ev ∈ log, ev.path ≠ path) :
    NodeMade (log ++ log') path uid gid mode ↔ NodeMade log' path uid gid mode := by
  have hnot : ∀ ev : Event, ev.path = path → (ev ∈ log ++ log' ↔ ev ∈ log') := by
    intro ev hev
    rw [List.mem_append, or_iff_right]
    exact fun hmem => h ev hmem hev
  simp only [NodeMade, Owned, hnot (.mknod path mode true) rfl,
    hnot (.chown path uid gid true) rfl, hnot (.chmod path mode true) rfl]

theorem Entry.numberedName_injective (e : Entry) : Function.Injective e.numberedName := by
  intro i j h
  exact Scanf.decimal_injective (List.append_cancel_left h)

/-- The rounds make their nodes exactly if no call fails. -/
theorem rangeCalls_log (sys : System σ) (e : Entry) (mode : UInt32) (rounds i : ℕ) (st : σ) :
    (∀ ev ∈ (rangeCalls sys e mode rounds i st).1,
      ∃ j, i ≤ j ∧ j < i + rounds ∧ ev.path = e.numberedName j) ∧
      ((∀ j, i ≤ j → j < i + rounds → NodeMade (rangeCalls sys e mode rounds i st).1
          (e.numberedName j) e.uid e.gid mode) ↔
        ∀ ev ∈ (rangeCalls sys e mode rounds i st).1, ¬ev.failed) := by
  induction rounds generalizing i st with
  | zero => simp [rangeCalls]; omega
  | succ rounds ih =>
    obtain ⟨hpath, hmade⟩ := nodeCalls_log sys (e.numberedName i) e.uid e.gid mode (e.rdevAt i) st
    rw [rangeCalls]
    generalize nodeCalls sys (e.numberedName i) e.uid e.gid mode (e.rdevAt i) st = calls
      at hpath hmade ⊢
    obtain ⟨log, failed, st'⟩ := calls
    obtain ⟨hpaths, hrest⟩ := ih (i + 1) st'
    dsimp only
    generalize rangeCalls sys e mode rounds (i + 1) st' = calls' at hpaths hrest ⊢
    obtain ⟨rest, failed', st''⟩ := calls'
    dsimp only at hpath hmade hpaths hrest ⊢
    constructor
    · intro ev hev
      rcases List.mem_append.mp hev with hev | hev
      · exact ⟨i, le_rfl, by omega, hpath ev hev⟩
      · obtain ⟨j, hj, hlt, hname⟩ := hpaths ev hev
        exact ⟨j, by omega, by omega, hname⟩
    · have hfirst : NodeMade (log ++ rest) (e.numberedName i) e.uid e.gid mode ↔
          NodeMade log (e.numberedName i) e.uid e.gid mode := by
        apply nodeMade_append
        intro ev hev hname
        obtain ⟨j, hj, hlt, hname'⟩ := hpaths ev hev
        have heq := e.numberedName_injective (hname'.symm.trans hname)
        omega
      have hlater : ∀ j, i + 1 ≤ j → (NodeMade (log ++ rest) (e.numberedName j) e.uid e.gid mode ↔
          NodeMade rest (e.numberedName j) e.uid e.gid mode) := by
        intro j hj
        apply nodeMade_append_right
        intro ev hev hname
        have heq := e.numberedName_injective ((hpath ev hev).symm.trans hname)
        omega
      constructor
      · intro h ev hev
        rcases List.mem_append.mp hev with hev | hev
        · exact hmade.mp (hfirst.mp (h i le_rfl (by omega))) ev hev
        · exact hrest.mp (fun j hj hlt => (hlater j hj).mp (h j (by omega) (by omega))) ev hev
      · intro h j hj hlt
        rcases hj.eq_or_lt with rfl | hj
        · exact hfirst.mpr (hmade.mpr fun ev hev => h ev (List.mem_append_left _ hev))
        · exact (hlater j hj).mpr
            (hrest.mpr (fun ev hev => h ev (List.mem_append_right _ hev)) j hj (by omega))

theorem owned_append {log log' : List Event} (h : ∀ ev ∈ log, ev.ofOwner = false) :
    Owned (log ++ log') path uid gid mode ↔ Owned log' path uid gid mode := by
  have hnot : ∀ ev : Event, ev.ofOwner → (ev ∈ log ++ log' ↔ ev ∈ log') := by
    intro ev hev
    rw [List.mem_append, or_iff_right]
    intro hmem
    rw [h ev hmem] at hev
    cases hev
  simp only [Owned, hnot (.chown path uid gid true) rfl, hnot (.chmod path mode true) rfl]

theorem directoryCalls_carried_iff (sys : System σ) (e : Entry) (hpath : NUL ∉ e.fullName)
    (st : σ) :
    ∃ log failed st', directoryCalls sys e st = some (log, failed, st') ∧
      (.mkdir e.fullName true ∈ log ∧ Owned log e.fullName e.uid e.gid e.mode ↔
        ∀ ev ∈ log, ¬ev.failed) := by
  obtain ⟨r, hr, hspec⟩ := makeDirectory_spec e.fullName [] hpath st
  obtain ⟨evs, hlog, hown, hall, hsome⟩ := hspec.log
  obtain ⟨howner, howned⟩ := ownerCalls_log sys (Cstring.text NUL r.path) e.uid e.gid e.mode r.sys
  generalize hcalls : ownerCalls sys (Cstring.text NUL r.path) e.uid e.gid e.mode r.sys = calls
    at howner howned
  obtain ⟨log, failed, st'⟩ := calls
  dsimp only at howner howned
  refine ⟨evs ++ log, failed, st', ?_, ?_⟩
  · unfold directoryCalls
    rw [hr]
    simp only [Option.bind_eq_bind, Option.bind_some, hcalls, hlog, List.nil_append]
    rfl
  have hmkdir : .mkdir e.fullName true ∈ evs ++ log ↔ .mkdir e.fullName true ∈ evs := by
    rw [List.mem_append, or_iff_left]
    exact fun hmem => absurd (howner _ hmem).1 (by simp [Event.ofOwner])
  have hnot : ∀ ev ∈ evs, ev.ofOwner = false := by
    intro ev hev
    have hdir := hown ev hev
    cases ev <;> simp_all [Event.ofDirectory, Event.ofOwner]
  -- once all parents are passed, `main` finds the whole path in the buffer
  have htext : .mkdir e.fullName true ∈ evs → Cstring.text NUL r.path = e.fullName := by
    intro hmade
    rw [hspec.path.mpr (hsome hmade)]
    exact Cstring.text_append hpath _
  rw [hmkdir, owned_append hnot]
  constructor
  · rintro ⟨hmade, hgiven⟩ ev hev
    rw [htext hmade] at howned
    rcases List.mem_append.mp hev with hev | hev
    · exact hall.mp hmade ev hev
    · exact howned.mp hgiven ev hev
  · intro hclean
    have hmade := hall.mpr fun ev hev => hclean ev (List.mem_append_left _ hev)
    rw [htext hmade] at howned
    exact ⟨hmade, howned.mpr fun ev hev => hclean ev (List.mem_append_right _ hev)⟩

theorem fileCalls_carried_iff (sys : System σ) (e : Entry) (st : σ) :
    (.stat e.fullName true ∈ (fileCalls sys e st).1 ∧
        Owned (fileCalls sys e st).1 e.fullName e.uid e.gid e.mode ↔
      ∀ ev ∈ (fileCalls sys e st).1, ¬ev.failed) := by
  unfold fileCalls
  obtain ⟨mode, st'⟩ := sys.stat e.fullName st
  dsimp only
  obtain ⟨howner, howned⟩ := ownerCalls_log sys e.fullName e.uid e.gid e.mode st'
  split_ifs
  · rw [← List.singleton_append, owned_append (by simp [Event.ofOwner]), howned]
    simp [Event.failed]
  · simp [Event.failed]

theorem deviceCalls_carried_iff (sys : System σ) (e : Entry) (mode : UInt32) (st : σ) :
    (∀ path ∈ e.objects, NodeMade (deviceCalls sys e mode st).1 path e.uid e.gid mode) ↔
      (0 < e.count → e.start = 0) ∧ ∀ ev ∈ (deviceCalls sys e mode st).1, ¬ev.failed := by
  unfold deviceCalls Entry.objects
  by_cases hcount : 0 < e.count
  · have hpos : 0 < e.count.toNat := by simpa using UInt32.lt_iff_toNat_lt.mp hcount
    obtain ⟨hpaths, hmade⟩ := rangeCalls_log sys e mode (e.count.toNat - e.start.toNat)
      e.start.toNat st
    rw [if_pos hcount, if_pos hcount]
    simp only [hcount, true_imp_iff, List.mem_map, List.mem_range]
    constructor
    · intro h
      have hstart : e.start = 0 := by
        by_contra hstart
        -- the last node is numbered from the count on
        have hstart : e.start.toNat ≠ 0 := fun h0 => hstart (UInt32.toNat_inj.mp h0)
        have hlast := (h _ ⟨e.count.toNat - 1, by omega, rfl⟩).1
        obtain ⟨j, hj, hlt, hname⟩ := hpaths _ hlast
        have heq := e.numberedName_injective hname
        omega
      refine ⟨hstart, hmade.mp fun j hj hlt => h _ ⟨j - e.start.toNat, by omega, ?_⟩⟩
      rw [Nat.add_sub_cancel' hj]
    · rintro ⟨hstart, hclean⟩ path ⟨j, hj, rfl⟩
      have h0 : e.start.toNat = 0 := congrArg UInt32.toNat hstart
      exact hmade.mpr hclean _ (by omega) (by omega)
  · obtain ⟨-, hmade⟩ := nodeCalls_log sys e.fullName e.uid e.gid mode (e.major, e.minor) st
    rw [if_neg hcount, if_neg hcount]
    simp only [hcount, false_imp_iff, true_and, List.mem_singleton, forall_eq]
    exact hmade

/-- A line whose path has no NUL is carried out exactly if nothing is wrong with it and no call for
it fails. -/
theorem entryCalls_carried_iff (sys : System σ) (e : Entry) (hpath : NUL ∉ e.fullName) (st : σ) :
    ∃ log failed st', entryCalls sys e st = some (log, failed, st') ∧
      (e.Carried log ↔ e.Plain ∧ ∀ ev ∈ log, ¬ev.failed) := by
  unfold entryCalls Entry.Carried Entry.Plain
  by_cases hd : e.type = 'd'
  · obtain ⟨log, failed, st', hcalls, hiff⟩ := directoryCalls_carried_iff sys e hpath st
    simp only [hd, true_or, if_true, true_and]
    exact ⟨log, failed, st', hcalls, hiff⟩
  · by_cases hf : e.type = 'f'
    · rw [if_neg hd, if_pos hf]
      refine ⟨_, _, _, rfl, ?_⟩
      rw [if_neg hd, if_pos hf, if_pos (Or.inr hf), true_and]
      exact fileCalls_carried_iff sys e st
    · simp only [hd, hf, or_self, if_false]
      cases typeBits e.type with
      | none => exact ⟨_, _, _, rfl, by simp⟩
      | some bits =>
        refine ⟨_, _, _, rfl, ?_⟩
        simp only [Option.isSome_some, true_and]
        exact deviceCalls_carried_iff sys e (e.mode ||| bits) st

end Calls

/-! ## A run -/

section Run
variable {σ : Type} (sys : System σ) (host : Host) {rootdir : Text}

theorem not_mem_fullName {line : Text} {buffers : Buffers} {e : Entry} (hroot : NUL ∉ rootdir)
    (hline : NUL ∉ line) (h : interpret host rootdir line (buffers.scan line) = .entry e) :
    NUL ∉ e.fullName := by
  obtain ⟨hpass, uid, gid, rfl⟩ := interpret_entry h
  have hfields : 0 < (fields line).length := by
    have := hpass.two_le
    omega
  have hname : NUL ∉ (buffers.scan line).name := by
    intro hmem
    rw [Buffers.scan, List.getElem?_eq_getElem hfields] at hmem
    exact hline (Scanf.mem_of_mem_word (List.getElem?_eq_getElem hfields) hmem)
  intro hmem
  rw [entryOf, concatPathFile] at hmem
  rcases List.mem_append.mp hmem with hmem | hmem
  · rcases List.mem_append.mp hmem with hmem | hmem
    · exact hroot hmem
    · split_ifs at hmem
      · cases hmem
      · rw [List.mem_singleton] at hmem
        exact absurd hmem (by decide)
  · exact hname ((List.dropWhile_sublist _).subset hmem)

/-- A run ends; its status is 0 unless a line names an unknown user or group, and each line is
carried out exactly if nothing goes wrong with it. -/
theorem statusLoop_spec (hroot : NUL ∉ rootdir) {lines : List Text}
    (hlines : ∀ line ∈ lines, NUL ∉ line) (buffers : Buffers) (ret : ℕ) (st : σ) :
    ∃ exit, statusLoop sys host rootdir lines buffers ret st = some exit ∧
      (exit.status = 0 ↔ ∀ r ∈ exit.rounds, ¬r.Dies) ∧
      ∀ r ∈ exit.rounds, r.Done ↔ r.Clean := by
  induction lines generalizing buffers ret st with
  | nil => exact ⟨_, rfl, by simp, by simp⟩
  | cons line lines ih =>
    have hrest : ∀ line ∈ lines, NUL ∉ line := fun l hl => hlines l (List.mem_cons_of_mem line hl)
    rw [statusLoop]
    dsimp only
    cases hverdict : interpret host rootdir line (buffers.scan line) with
    | skip =>
      obtain ⟨exit, hexit, hstatus, hrounds⟩ := ih hrest (buffers.scan line) ret st
      refine ⟨_, by rw [hexit]; rfl, ?_, ?_⟩
      · simpa [Round.Dies] using hstatus
      · simpa [Round.Done, Round.Clean] using hrounds
    | invalid =>
      obtain ⟨exit, hexit, hstatus, hrounds⟩ := ih hrest (buffers.scan line) 1 st
      refine ⟨_, by rw [hexit]; rfl, ?_, ?_⟩
      · simpa [Round.Dies] using hstatus
      · simpa [Round.Done, Round.Clean] using hrounds
    | die msg =>
      refine ⟨_, rfl, ?_, ?_⟩
      · simp [Round.Dies]
      · simp [Round.Done, Round.Clean]
    | entry e =>
      have hname := not_mem_fullName host hroot (hlines line List.mem_cons_self) hverdict
      obtain ⟨log, failed, st', hcalls, hcarried⟩ := entryCalls_carried_iff sys e hname st
      obtain ⟨exit, hexit, hstatus, hrounds⟩ :=
        ih hrest (buffers.scan line) (if failed then 1 else ret) st'
      refine ⟨{ exit with rounds := ⟨.entry e, log⟩ :: exit.rounds }, ?_, ?_, ?_⟩
      · simp only [hcalls, Option.bind_eq_bind, Option.bind_some, hexit]
        rfl
      · simpa [Round.Dies] using hstatus
      · rw [List.forall_mem_cons]
        refine ⟨?_, hrounds⟩
        simp only [Round.Done, Round.Clean, reduceCtorEq, false_or, Verdict.entry.injEq,
          exists_eq_left', hcarried]

theorem not_mem_of_mem_tableLines {linebuf table line : Text} (hbuf : NUL ∉ linebuf)
    (h : line ∈ tableLines linebuf table) : NUL ∉ line := by
  induction table generalizing linebuf with
  | nil =>
    rw [tableLines] at h
    split_ifs at h
    · cases h
    · rw [List.mem_singleton] at h
      rwa [h, List.mem_reverse]
  | cons ch table ih =>
    rw [tableLines] at h
    split_ifs at h with hend
    · rcases List.mem_cons.mp h with rfl | h
      · rwa [List.mem_reverse]
      · exact ih List.not_mem_nil h
    · apply ih _ h
      rw [List.mem_cons, not_or]
      exact ⟨fun hch => hend (.inr hch.symm), hbuf⟩

theorem Round.Dies.not_done {r : Round} (h : r.Dies) : ¬r.Done := by
  obtain ⟨msg, hmsg⟩ := h
  rintro (hskip | ⟨e, hentry, -⟩)
  · rw [hmsg] at hskip
    cases hskip
  · rw [hmsg] at hentry
    cases hentry

end Run

/-! ## Runs on two systems -/

/-- A system in which every call succeeds. -/
def obligingSystem : System Unit where
  mkdir := fun _ _ _ => (.made, ())
  stat := fun _ _ => (some S_IFREG, ())
  chmod := fun _ _ _ => (true, ())
  chown := fun _ _ _ _ => (true, ())
  mknod := fun _ _ _ _ => (true, ())

/-- A system on which no directory can be made. -/
def fullSystem : System Unit := { obligingSystem with mkdir := fun _ _ _ => (.failed, ()) }

theorem obligingSystem_makeDirectory :
    ∃ r, makeDirectory obligingSystem ['a', '/', 'b', NUL] 0o40755 0o22 () = some r ∧
      ((r.path = ['a', '/', 'b', NUL] ∧ r.umask = 0o22 ∧
          ∀ ev ∈ (ownerCalls obligingSystem (Cstring.text NUL r.path) 0 0 0o755 r.sys).1,
            ev.path = ['a', '/', 'b']) ↔
        ParentsPass obligingSystem (directoryUmask 0o40755 0o22) ['a', '/', 'b'] ()) :=
  makeDirectory_frame_iff obligingSystem ['a', '/', 'b'] [] (by decide) 0o40755 0o22 0 0 0o755 ()

/-- The path stays cut after its first directory, which gets the owner and mode of the second. -/
theorem fullSystem_makeDirectory :
    ∃ r, makeDirectory fullSystem ['a', '/', 'b', NUL] 0o40755 0 () = some r ∧
      r.value = -1 ∧ r.path = ['a', '/', NUL, NUL] ∧
      (ownerCalls fullSystem (Cstring.text NUL r.path) 0 0 0o755 r.sys).1 =
        [.chown ['a', '/'] 0 0 true, .chmod ['a', '/'] 0o755 true] :=
  ⟨_, rfl, rfl, rfl, by decide +kernel⟩

end Grasshopper.Makedevs
