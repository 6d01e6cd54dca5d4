import Grasshopper.Library.Cstring
import Grasshopper.Makedevs.Main

/-! # `bb_make_directory` on any system

The function cuts the path in the buffer it is given, one directory after the other, and works under
an `umask` of its own. Nothing is assumed here about what the system calls do.
-/

namespace Grasshopper.Makedevs

/-- What `mkdir` tells, with the values of `errno` that are told apart. -/
inductive MkdirResult where
  | made
  /-- `EEXIST` or `EISDIR` -/
  | exist
  | failed
deriving DecidableEq

/-- A system in which the calls do anything: each finds a state and leaves one. `mkdir` depends on
the `umask` of the process too. -/
structure System (σ : Type) where
  mkdir : UInt32 → Text → σ → MkdirResult × σ
  /-- The `st_mode` of a file that is there. -/
  stat : Text → σ → Option UInt32 × σ
  chmod : Text → UInt32 → σ → Bool × σ
  chown : Text → UInt32 → UInt32 → σ → Bool × σ
  mknod : Text → UInt32 → UInt32 × UInt32 → σ → Bool × σ

/-- `S_ISDIR` and the like, on what `stat` tells. -/
def statIs (kind : UInt32) (st : Option UInt32) : Bool := st.any fun mode => mode &&& S_IFMT == kind

/-- The calls of a run, with what they told. -/
inductive Event where
  /-- `mkdir` in `bb_make_directory`, and whether there is a directory after it. -/
  | mkdir (path : Text) (ok : Bool)
  /-- `chmod` in `bb_make_directory` -/
  | permissions (path : Text) (ok : Bool)
  | stat (path : Text) (regular : Bool)
  | mknod (path : Text) (mode : UInt32) (ok : Bool)
  | chown (path : Text) (uid gid : UInt32) (ok : Bool)
  | chmod (path : Text) (mode : UInt32) (ok : Bool)
deriving DecidableEq

namespace Event

/-- The calls that a failure of counts; the permissions of a directory are set again by `main`. -/
def failed : Event → Bool
  | mkdir _ ok => !ok
  | permissions _ _ => false
  | stat _ regular => !regular
  | mknod _ _ ok => !ok
  | chown _ _ _ ok => !ok
  | chmod _ _ ok => !ok

def path : Event → Text
  | mkdir path _ => path
  | permissions path _ => path
  | stat path _ => path
  | mknod path _ _ => path
  | chown path _ _ _ => path
  | chmod path _ _ => path

/-- The calls of `bb_make_directory`. -/
def ofDirectory : Event → Bool
  | mkdir _ _ => true
  | permissions _ _ => true
  | _ => false

end Event

/-- How `bb_make_directory` leaves the buffer, the `umask` and the system. -/
structure Made (σ : Type) where
  value : ℤ
  path : Text
  umask : UInt32
  log : List Event
  sys : σ

def NUL : Char := '\x00'

/-- The inner loops, from the characters at `s` on: past the characters other than `/`, then past
those that are `/`. The place where they stop, and the character that is put aside. -/
def nextParent (slashes : Bool) (s : ℕ) : Text → ℕ × Char
  | [] => (s, NUL)
  | ch :: rest =>
    if ch = '/' then nextParent true (s + 1) rest
    else if slashes then (s, ch)
    else if ch = NUL then (s, NUL)
    else nextParent false (s + 1) rest

section Directory
variable {σ : Type} (sys : System σ)

/-- `mkdir` and the test after it: whether there is a directory now, and whether it is new. -/
def makeOrFind (umask : UInt32) (path : Text) (st : σ) : Bool × Bool × σ :=
  match sys.mkdir umask path st with
  | (.made, st) => (true, true, st)
  | (.exist, st) =>
    let (mode, st) := sys.stat path st
    (statIs S_IFDIR mode, false, st)
  | (.failed, st) => (false, false, st)

/-- The loop of `bb_make_directory` with `FILEUTILS_RECUR`, with fuel for its rounds: `mask` is what
the `umask` was on entry. -/
def makeDirectoryLoop (mask umask : UInt32) (mode : ℤ) :
    ℕ → ℕ → Text → List Event → σ → Option (Made σ)
  | 0, _, _, _, _ => none
  | fuel + 1, s, path, log, st =>
    let (s, c) := nextParent false s (path.drop s)
    let path := path.set s NUL
    let dir := Cstring.text NUL path
    let (there, new, st) := makeOrFind sys umask dir st
    let log := log ++ [.mkdir dir there]
    if !there then some ⟨-1, path, mask, log, st⟩
    else if c = NUL then
      if !new then some ⟨0, path, mask, log, st⟩
      else if mode = -1 then some ⟨0, path, mask, log, st⟩
      else
        let (ok, st) := sys.chmod dir (UInt32.ofInt mode) st
        some ⟨if ok then 0 else -1, path, mask, log ++ [.permissions dir ok], st⟩
    else makeDirectoryLoop mask umask mode fuel s (path.set s c) log st

/-- The `umask` that the directories are made with. -/
def directoryUmask (mode : ℤ) (mask : UInt32) : UInt32 :=
  if mode = -1 then mask else mask &&& ~~~0o300

/-- The permissions that `bb_make_directory` sets. -/
def directoryMode (mode : ℤ) (mask : UInt32) : ℤ :=
  if mode = -1 then (0o777 &&& ~~~mask : UInt32).toNat else mode

/-- `bb_make_directory` with `FILEUTILS_RECUR`. -/
def makeDirectory (path : Text) (mode : ℤ) (mask : UInt32) (st : σ) : Option (Made σ) :=
  makeDirectoryLoop sys mask (directoryUmask mode mask) (directoryMode mode mask) path.length 0
    path [] st

/-! ## The parents of a path -/

/-- A parent can be passed if there is a directory after `mkdir`. -/
def passParent (umask : UInt32) (st : σ) (path : Text) : Option σ :=
  match makeOrFind sys umask path st with
  | (true, _, st) => some st
  | (false, _, _) => none

/-- All parents of a path can be passed, one after the other. -/
def ParentsPass (umask : UInt32) (path : Text) (st : σ) : Prop :=
  ((directoryPaths [] path).dropLast.foldlM (passParent sys umask) st).isSome

end Directory

/-! ## The inner loops -/

theorem nextParent_slashes (suf rest passed : Text) (hnul : NUL ∉ suf) (s : ℕ) :
    ∃ k ≤ suf.length,
      nextParent true s (suf ++ NUL :: rest) = (s + k, (suf.drop k).headD NUL) ∧
      directoryPaths passed ('/' :: suf) =
        if suf.drop k = [] then [passed.reverse ++ '/' :: suf]
        else (passed.reverse ++ '/' :: suf.take k) ::
          directoryPaths (('/' :: suf.take k).reverse ++ passed) (suf.drop k) := by
  induction suf generalizing passed s with
  | nil => exact ⟨0, le_rfl, rfl, by simp [directoryPaths]⟩
  | cons c suf ih =>
    have hc : c ≠ NUL := fun h => hnul (h ▸ List.mem_cons_self)
    have hnul' : NUL ∉ suf := fun h => hnul (List.mem_cons_of_mem c h)
    by_cases hslash : c = '/'
    · subst hslash
      obtain ⟨k, hk, hnext, hpaths⟩ := ih ('/' :: passed) hnul' (s + 1)
      refine ⟨k + 1, Nat.succ_le_succ hk, ?_, ?_⟩
      · rw [List.cons_append, nextParent, if_pos rfl, hnext, List.drop_succ_cons, Nat.add_assoc,
          Nat.add_comm 1 k]
      · rw [directoryPaths, if_pos rfl, hpaths]
        simp
    · refine ⟨0, Nat.zero_le _, ?_, ?_⟩
      · rw [List.cons_append, nextParent, if_neg hslash, if_pos rfl]
        rfl
      · rw [directoryPaths, if_neg hslash]
        simp

theorem directoryPaths_cons {c : Char} (h : c ≠ '/') (passed suf : Text) :
    directoryPaths passed (c :: suf) = directoryPaths (c :: passed) suf := by
  cases suf with
  | nil => simp [directoryPaths]
  | cons d suf => rw [directoryPaths]; simp [h]

/-- The next directory ends where a run of slashes does, or with the whole path. -/
theorem nextParent_spec (suf rest passed : Text) (hnul : NUL ∉ suf) (s : ℕ) :
    ∃ k ≤ suf.length, (suf ≠ [] → 0 < k) ∧
      nextParent false s (suf ++ NUL :: rest) = (s + k, (suf.drop k).headD NUL) ∧
      directoryPaths passed suf =
        if suf.drop k = [] then [passed.reverse ++ suf]
        else (passed.reverse ++ suf.take k) ::
          directoryPaths ((suf.take k).reverse ++ passed) (suf.drop k) := by
  induction suf generalizing passed s with
  | nil => exact ⟨0, le_rfl, fun h => absurd rfl h, rfl, by simp [directoryPaths]⟩
  | cons c suf ih =>
    have hc : c ≠ NUL := fun h => hnul (h ▸ List.mem_cons_self)
    have hnul' : NUL ∉ suf := fun h => hnul (List.mem_cons_of_mem c h)
    by_cases hslash : c = '/'
    · subst hslash
      obtain ⟨k, hk, hnext, hpaths⟩ := nextParent_slashes suf rest passed hnul' (s + 1)
      refine ⟨k + 1, Nat.succ_le_succ hk, fun _ => k.succ_pos, ?_, ?_⟩
      · rw [List.cons_append, nextParent, if_pos rfl, hnext, List.drop_succ_cons, Nat.add_assoc,
          Nat.add_comm 1 k]
      · rw [hpaths, List.drop_succ_cons, List.take_succ_cons]
    · obtain ⟨k, hk, -, hnext, hpaths⟩ := ih (c :: passed) hnul' (s + 1)
      refine ⟨k + 1, Nat.succ_le_succ hk, fun _ => k.succ_pos, ?_, ?_⟩
      · rw [List.cons_append, nextParent, if_neg hslash, if_neg Bool.false_ne_true, if_neg hc, hnext,
          List.drop_succ_cons, Nat.add_assoc, Nat.add_comm 1 k]
      · rw [directoryPaths_cons hslash, hpaths, List.drop_succ_cons, List.take_succ_cons]
        simp

/-! ## What is left in the buffer -/

section Frame
variable {σ : Type} {sys : System σ} {mask umask : UInt32} {mode : ℤ}

theorem directoryPaths_ne_nil (passed suf : Text) : directoryPaths passed suf ≠ [] := by
  induction suf generalizing passed with
  | nil => simp [directoryPaths]
  | cons c suf ih =>
    by_cases hslash : c = '/'
    · subst hslash
      cases suf with
      | nil => simp [directoryPaths]
      | cons d suf =>
        rw [directoryPaths]
        split_ifs
        · exact ih _
        · exact List.cons_ne_nil _ _
    · rw [directoryPaths_cons hslash]
      exact ih _

/-- A NUL where the buffer is cut, and the character put back. -/
theorem cut_buffer (before suf rest : Text) {c : Char} {tail : Text} (hnul : NUL ∉ before)
    (hsuf : suf = c :: tail) :
    Cstring.text NUL ((before ++ suf ++ NUL :: rest).set before.length NUL) = before ∧
      ((before ++ suf ++ NUL :: rest).set before.length NUL).set before.length c =
        before ++ suf ++ NUL :: rest := by
  subst hsuf
  rw [List.append_assoc, List.set_append_right _ _ le_rfl, Nat.sub_self, List.cons_append,
    List.set_cons_zero, List.set_append_right _ _ le_rfl, Nat.sub_self, List.set_cons_zero]
  exact ⟨Cstring.text_append hnul _, rfl⟩

theorem passParent_eq (path : Text) (st : σ) :
    passParent sys umask st path =
      if (makeOrFind sys umask path st).1 then some (makeOrFind sys umask path st).2.2 else none := by
  rw [passParent]
  obtain ⟨there, new, st⟩ := makeOrFind sys umask path st
  cases there <;> rfl

/-- What a run of the loop for the path `whole` does: it passes the parents as `pass` tells, and
leaves the buffer as it was if it passes all; its last call of `mkdir` is the one for the path. -/
structure LoopSpec (whole buf : Text) (mask : UInt32) (pass : Option σ) (log : List Event)
    (r : Made σ) : Prop where
  umask : r.umask = mask
  path : r.path = buf ↔ pass.isSome
  log : ∃ evs, r.log = log ++ evs ∧ (∀ ev ∈ evs, ev.ofDirectory) ∧
    (.mkdir whole true ∈ evs ↔ ∀ ev ∈ evs, ¬ev.failed) ∧ (.mkdir whole true ∈ evs → pass.isSome)

/-- The rest of the loop, from the start of a name. -/
theorem makeDirectoryLoop_spec {fuel : ℕ} (before suf rest : Text) (hnul : NUL ∉ before ++ suf)
    (hfuel : suf.length < fuel) (log : List Event) (st : σ) :
    ∃ r, makeDirectoryLoop sys mask umask mode fuel before.length
        (before ++ suf ++ NUL :: rest) log st = some r ∧
      LoopSpec (before ++ suf) (before ++ suf ++ NUL :: rest) mask
        ((directoryPaths before.reverse suf).dropLast.foldlM (passParent sys umask) st) log r := by
  induction fuel generalizing before suf log st with
  | zero => omega
  | succ fuel ih =>
    obtain ⟨hbefore, hsuf⟩ := not_or.mp (fun h => hnul (List.mem_append.mpr h))
    obtain ⟨k, hk, hpos, hnext, hpaths⟩ := nextParent_spec suf rest before.reverse hsuf before.length
    have hdrop : (before ++ suf ++ NUL :: rest).drop before.length = suf ++ NUL :: rest := by
      rw [List.append_assoc, List.drop_left]
    rw [makeDirectoryLoop, hdrop, hnext, hpaths]
    dsimp only
    cases hrest : suf.drop k with
    | nil =>
      -- the whole path: what is written is the NUL that is there
      have hall : k = suf.length := by
        have hlen := congrArg List.length hrest
        rw [List.length_drop, List.length_nil] at hlen
        omega
      have hset : (before ++ suf ++ NUL :: rest).set (before.length + k) NUL =
          before ++ suf ++ NUL :: rest := by
        rw [hall, ← List.length_append, List.set_append_right _ _ le_rfl, Nat.sub_self,
          List.set_cons_zero]
      have hwhole : Cstring.text NUL (before ++ suf ++ NUL :: rest) = before ++ suf :=
        Cstring.text_append hnul rest
      simp only [List.headD_nil, if_true, hset, hwhole, List.dropLast_singleton, List.foldlM_nil]
      obtain ⟨there, new, st'⟩ := makeOrFind sys umask (before ++ suf) st
      cases there with
      | false =>
        refine ⟨_, rfl, rfl, by simp, _, rfl, ?_, ?_, ?_⟩
        · simp [Event.ofDirectory]
        · simp [Event.failed]
        · simp
      | true =>
        cases new with
        | false =>
          refine ⟨_, rfl, rfl, by simp, _, rfl, ?_, ?_, ?_⟩
          · simp [Event.ofDirectory]
          · simp [Event.failed]
          · simp
        | true =>
          dsimp only [Bool.not_true, Bool.false_eq_true, if_false]
          by_cases hmode : mode = -1
          · rw [if_pos hmode]
            refine ⟨_, rfl, rfl, by simp, _, rfl, ?_, ?_, ?_⟩
            · simp [Event.ofDirectory]
            · simp [Event.failed]
            · simp
          · rw [if_neg hmode]
            refine ⟨_, rfl, rfl, by simp, _, List.append_assoc _ _ _, ?_, ?_, ?_⟩
            · simp [Event.ofDirectory]
            · simp [Event.failed]
            · simp
    | cons c tail =>
      have hc : c ≠ NUL := by
        rintro rfl
        apply hsuf
        apply List.mem_of_mem_drop (i := k)
        rw [hrest]
        exact List.mem_cons_self
      have hsplit : before ++ suf ++ NUL :: rest =
          (before ++ suf.take k) ++ (suf.drop k) ++ NUL :: rest := by
        rw [List.append_assoc before (suf.take k), List.take_append_drop]
      have hlength : before.length + k = (before ++ suf.take k).length := by
        rw [List.length_append, List.length_take, Nat.min_eq_left hk]
      have hcut : NUL ∉ before ++ suf.take k := by
        rw [List.mem_append, not_or]
        exact ⟨hbefore, fun h => hsuf (List.mem_of_mem_take h)⟩
      have hproper : before ++ suf.take k ≠ before ++ suf := by
        intro heq
        have hlen := congrArg List.length heq
        rw [← hlength, List.length_append] at hlen
        have hshort := congrArg List.length hrest
        rw [List.length_drop, List.length_cons] at hshort
        omega
      obtain ⟨htext, hback⟩ := cut_buffer (before ++ suf.take k) (suf.drop k) rest hcut hrest
      rw [← hsplit, ← hlength] at htext hback
      simp only [List.headD_cons, htext, reduceCtorEq, if_false, hc, hback]
      have hne : directoryPaths ((suf.take k).reverse ++ before.reverse) (c :: tail) ≠ [] :=
        directoryPaths_ne_nil _ _
      rw [List.reverse_reverse, List.dropLast_cons_of_ne_nil hne, List.foldlM_cons, passParent_eq]
      obtain ⟨there, new, st'⟩ := makeOrFind sys umask (before ++ suf.take k) st
      cases there with
      | false =>
        refine ⟨_, rfl, rfl, ?_, _, rfl, ?_, ?_, ?_⟩
        · constructor
          · intro hsame
            -- the buffer holds a shorter text
            dsimp only at hsame
            rw [hsame, Cstring.text_append hnul] at htext
            exact absurd htext.symm hproper
          · intro hsome
            cases hsome
        · simp [Event.ofDirectory]
        · simp [Event.failed]
        · simp
      | true =>
        have hne : suf ≠ [] := by
          rintro rfl
          rw [List.drop_nil] at hrest
          cases hrest
        have hfuel' : (suf.drop k).length < fuel := by
          have hpos := hpos hne
          rw [List.length_drop]
          omega
        have hwhole : before ++ suf.take k ++ suf.drop k = before ++ suf := by
          rw [List.append_assoc, List.take_append_drop]
        obtain ⟨r, hr, humask, hpath, evs, hlog, hown, hall, hsome⟩ :=
          ih (before ++ suf.take k) (suf.drop k) (hwhole ▸ hnul) hfuel'
            (log ++ [.mkdir (before ++ suf.take k) true]) st'
        rw [← hsplit, ← hlength] at hr
        rw [hwhole] at hpath hall hsome
        rw [List.reverse_append, hrest] at hpath hsome
        refine ⟨r, hr, humask, hpath, .mkdir (before ++ suf.take k) true :: evs, ?_, ?_, ?_, ?_⟩
        · rw [hlog, List.append_assoc]
          rfl
        · simpa [Event.ofDirectory] using hown
        · simpa [Event.failed, hproper.symm] using hall
        · simpa [hproper.symm] using hsome

/-- `bb_make_directory` returns; it leaves the path in the buffer as it was exactly if all parents
of the path can be passed. -/
theorem makeDirectory_spec (path rest : Text) (hpath : NUL ∉ path) (st : σ) :
    ∃ r, makeDirectory sys (path ++ NUL :: rest) mode mask st = some r ∧
      LoopSpec path (path ++ NUL :: rest) mask
        ((directoryPaths [] path).dropLast.foldlM (passParent sys (directoryUmask mode mask)) st)
        [] r := by
  apply makeDirectoryLoop_spec [] path rest hpath
  rw [List.length_append, List.length_cons]
  omega

end Frame

end Grasshopper.Makedevs
