import Grasshopper.Makedevs.Main

/-! # Ranges of device nodes

A line with a count asks for that many nodes, numbered from its start. The loop counts up to the
count itself, so it makes all of them only if it starts at zero.
-/

namespace Grasshopper.Makedevs

/-! ## Where the nodes of a range are -/

theorem names_append (path : Text) :
    ∃ dir base, ∀ i, names (path ++ Scanf.decimal i) = dir ++ [base ++ Scanf.decimal i] := by
  obtain ⟨before, last, h⟩ := Scanf.splitOnP_append (· == '/') path
  refine ⟨before.filter fun name => !(name.isEmpty || name == ['.']), last, fun i => ?_⟩
  have hslash : ∀ c ∈ Scanf.decimal i, (c == '/') = false := by
    intro c hc
    rw [beq_eq_false_iff_ne]
    rintro rfl
    exact Scanf.not_mem_decimal (by decide) i hc
  have hdot : last ++ Scanf.decimal i ≠ ['.'] := by
    intro hdot
    obtain ⟨c, hc⟩ := List.exists_mem_of_ne_nil _ (Scanf.decimal_ne_nil i)
    have hmem : c ∈ ['.'] := hdot ▸ List.mem_append_right last hc
    rw [List.mem_singleton] at hmem
    exact Scanf.not_mem_decimal (by decide) i (hmem ▸ hc)
  rw [names, h _ hslash, List.filter_append]
  simp [hdot, Scanf.decimal_ne_nil]

section Range
variable (host : Host) (e : Entry)

/-- The place of node `i`. -/
def Entry.place (i : ℕ) : List Text := host.resolve (e.numberedName i)

theorem Entry.place_eq : ∃ dir base, ∀ i, e.place host i = dir ++ [base ++ Scanf.decimal i] := by
  obtain ⟨dir, base, h⟩ := names_append e.fullName
  have hhead : ∀ i, (e.numberedName i).head? = some '/' ↔ e.fullName.head? = some '/' := by
    intro i
    rw [Entry.numberedName]
    cases e.fullName with
    | cons c path => simp
    | nil =>
      simp only [List.nil_append, List.head?_nil, reduceCtorEq, iff_false]
      intro hd
      exact Scanf.not_mem_decimal (by decide) i (List.mem_of_head? hd)
  by_cases habs : e.fullName.head? = some '/'
  · refine ⟨dir, base, fun i => ?_⟩
    rw [Entry.place, Host.resolve, if_pos ((hhead i).mpr habs), Entry.numberedName, h]
  · refine ⟨host.cwd ++ dir, base, fun i => ?_⟩
    rw [Entry.place, Host.resolve, if_neg (habs ∘ (hhead i).mp), Entry.numberedName, h,
      List.append_assoc]

theorem Entry.place_injective : Function.Injective (e.place host) := by
  intro i j h
  obtain ⟨dir, base, heq⟩ := e.place_eq host
  rw [heq, heq] at h
  exact Scanf.decimal_injective (by simpa using h)

/-- The directory that the nodes of a range are in. -/
theorem Entry.dropLast_place (i j : ℕ) :
    (e.place host i).dropLast = (e.place host j).dropLast := by
  obtain ⟨dir, base, heq⟩ := e.place_eq host
  rw [heq, heq, List.dropLast_concat, List.dropLast_concat]

theorem Entry.place_ne_dropLast (i j : ℕ) : e.place host i ≠ (e.place host j).dropLast := by
  obtain ⟨dir, base, heq⟩ := e.place_eq host
  rw [heq, heq, List.dropLast_concat]
  intro h
  simpa using congrArg List.length h

theorem Entry.place_ne_nil (i : ℕ) : (e.place host i).isEmpty = false := by
  obtain ⟨dir, base, heq⟩ := e.place_eq host
  simp [heq]

end Range

/-! ## One node -/

section Node
variable {host : Host} {path : Text} {fs : Files}

/-- The node that `mknod`, `chown` and `chmod` make when they succeed. -/
def Entry.node (e : Entry) (host : Host) (mode : UInt32) (rdev : UInt32 × UInt32) : Node where
  mode := mode
  uid := if e.uid = -1 then host.getuid else e.uid
  gid := if e.gid = -1 then host.getgid else e.gid
  rdev := rdev

theorem chmod_own_mode (mode : UInt32) : (mode &&& ~~~0o7777) ||| (mode &&& 0o7777) = mode := by
  rw [← UInt32.toBitVec_inj, UInt32.toBitVec_or, UInt32.toBitVec_and, UInt32.toBitVec_and,
    UInt32.toBitVec_not]
  apply BitVec.eq_of_getElem_eq
  intro i hi
  rw [BitVec.getElem_or, BitVec.getElem_and, BitVec.getElem_and, BitVec.getElem_not]
  cases mode.toBitVec[i] with
  | false => rfl
  | true => exact Bool.not_or_self _

theorem makeNode_files (linenum : ℕ) (e : Entry) (mode : UInt32) (rdev : UInt32 × UInt32)
    (hok : ∀ call, host.refuses call = false)
    (hfree : fs (host.resolve path) = none) (hne : (host.resolve path).isEmpty = false)
    (hdir : fs.isDir (host.resolve path).dropLast) (hpath : path.getLast? ≠ some '/') :
    (makeNode host linenum e mode path rdev fs).1 =
      fs.set (host.resolve path) (e.node host mode rdev) := by
  have hmknod : mknod host path mode rdev fs =
      some (fs.set (host.resolve path) ⟨mode, host.getuid, host.getgid, rdev⟩) := by
    simp [mknod, Files.taken, hfree, hne, hok, hdir, hpath]
  have hchown : chown host path e.uid e.gid
      (fs.set (host.resolve path) ⟨mode, host.getuid, host.getgid, rdev⟩) =
        some (fs.set (host.resolve path) (e.node host mode rdev)) := by
    simp [chown, hok, Files.set, Entry.node]
  have hchmod : chmod host path mode (fs.set (host.resolve path) (e.node host mode rdev)) =
      some (fs.set (host.resolve path) (e.node host mode rdev)) := by
    simp [chmod, hok, Files.set, Entry.node, chmod_own_mode]
  simp only [makeNode, hmknod, hchown, hchmod]
  split_ifs
  · rfl
  · rfl

end Node

/-! ## The loop over a range -/

section Loop
variable {host : Host}

theorem Entry.numberedName_getLast? (e : Entry) (i : ℕ) :
    (e.numberedName i).getLast? ≠ some '/' := by
  intro h
  rw [Entry.numberedName, List.getLast?_append] at h
  cases hd : (Scanf.decimal i).getLast? with
  | none => exact Scanf.decimal_ne_nil i (List.getLast?_eq_none_iff.mp hd)
  | some c =>
    rw [hd, Option.some_or] at h
    have hslash : '/' ∈ Scanf.decimal i := List.mem_of_getLast? (hd.trans h)
    exact Scanf.not_mem_decimal (by decide) i hslash

/-- The rounds from `i` on make one node each. -/
theorem makeRange_files (linenum : ℕ) (e : Entry) (mode : UInt32)
    (hok : ∀ call, host.refuses call = false) (rounds i : ℕ) (fs : Files)
    (hfree : ∀ i', i ≤ i' → i' < i + rounds → fs (e.place host i') = none)
    (hdir : fs.isDir (e.place host i).dropLast) :
    (∀ i', i ≤ i' → i' < i + rounds →
      (makeRange host linenum e mode rounds i fs).1 (e.place host i') =
        some (e.node host mode (e.rdevAt i'))) ∧
    ∀ place, (∀ i', i ≤ i' → i' < i + rounds → place ≠ e.place host i') →
      (makeRange host linenum e mode rounds i fs).1 place = fs place := by
  induction rounds generalizing i fs with
  | zero => exact ⟨fun i' hi hi' => by omega, fun place _ => rfl⟩
  | succ rounds ih =>
    have hnode := makeNode_files linenum e mode (e.rdevAt i) hok (hfree i le_rfl (by omega))
      (e.place_ne_nil host i) hdir (e.numberedName_getLast? i)
    have hother : ∀ place, place ≠ e.place host i →
        (makeNode host linenum e mode (e.numberedName i) (e.rdevAt i) fs).1 place = fs place := by
      intro place hplace
      rw [hnode]
      exact Function.update_of_ne hplace _ _
    have hfree' : ∀ i', i + 1 ≤ i' → i' < i + 1 + rounds →
        (makeNode host linenum e mode (e.numberedName i) (e.rdevAt i) fs).1
          (e.place host i') = none := by
      intro i' hi hi'
      rw [hother _ fun h => by have := e.place_injective host h; omega]
      exact hfree i' (by omega) (by omega)
    have hdir' : (makeNode host linenum e mode (e.numberedName i) (e.rdevAt i) fs).1.isDir
        (e.place host (i + 1)).dropLast := by
      rw [e.dropLast_place host (i + 1) i, Files.isDir, Files.isKind,
        hother _ (e.place_ne_dropLast host i i).symm]
      exact hdir
    obtain ⟨hmade, honly⟩ := ih (i + 1) _ hfree' hdir'
    constructor
    · intro i' hi hi'
      rcases hi.eq_or_lt with rfl | hlt
      · rw [makeRange]
        rw [honly _ fun i' hi _ h => by have := e.place_injective host h; omega, hnode]
        exact Function.update_self _ _ _
      · exact hmade i' hlt (by omega)
    · intro place hplace
      rw [makeRange]
      rw [honly place fun i' hi hi' => hplace i' (by omega) (by omega)]
      exact hother place (hplace i le_rfl (by omega))

end Loop

/-! ## The nodes a line asks for -/

theorem le_of_or_le {a b c : UInt32} (h : a ||| b ≤ c) : a ≤ c ∧ b ≤ c := by
  simp only [UInt32.le_iff_toNat_le, UInt32.toNat_or] at h ⊢
  exact ⟨Nat.left_le_or.trans h, Nat.right_le_or.trans h⟩

/-- The bound on the numbers together is a bound on each of them. -/
theorem Passes.bounds {line : Text} (h : Passes line) :
    numberAt line 6 0 ≤ 255 ∧ numberAt line 8 0 ≤ 255 ∧ numberAt line 9 0 ≤ 255 := by
  obtain ⟨hrest, hincrement⟩ := le_of_or_le (UInt32.not_lt.mp (not_or.mp h).2)
  obtain ⟨hrest, hcount⟩ := le_of_or_le hrest
  obtain ⟨hrest, -⟩ := le_of_or_le hrest
  exact ⟨(le_of_or_le hrest).2, hincrement, hcount⟩

theorem interpret_entry {host : Host} {rootdir line : Text} {buffers : Buffers} {e : Entry}
    (h : interpret host rootdir line buffers = .entry e) :
    Passes line ∧ ∃ uid gid, e = entryOf rootdir line buffers uid gid := by
  unfold interpret at h
  by_cases hpass : Passes line
  · rw [if_neg (not_not.mpr hpass)] at h
    split at h
    · cases h
    · split at h
      · cases h
      · split at h
        · cases h
        · cases h
          exact ⟨hpass, _, _, rfl⟩
  · rw [if_pos hpass] at h
    split at h
    · cases h
    · cases h

/-- In a range that starts at zero the device numbers are the ones asked for. -/
theorem Entry.rdevAt_minor {e : Entry} (hstart : e.start = 0) (hminor : e.minor ≤ 255)
    (hincrement : e.increment ≤ 255) {j : ℕ} (hj : j < 256) :
    (e.rdevAt j).2.toNat = e.minor.toNat + j * e.increment.toNat := by
  have hmul : j * e.increment.toNat ≤ 255 * 255 :=
    Nat.mul_le_mul (by omega) (UInt32.le_iff_toNat_le.mp hincrement)
  have hminor : e.minor.toNat ≤ 255 := UInt32.le_iff_toNat_le.mp hminor
  have hj' : (UInt32.ofNat j).toNat = j := UInt32.toNat_ofNat_of_lt' (by norm_num; omega)
  rw [Entry.rdevAt, hstart, UInt32.sub_zero, UInt32.toNat_add, UInt32.toNat_mul, hj',
    Nat.mod_eq_of_lt (by omega : j * e.increment.toNat < 2 ^ 32), Nat.mod_eq_of_lt (by omega)]

/-- All nodes of the range are there, with their device numbers, and nothing else has changed. -/
structure CreatesRange (host : Host) (e : Entry) (fs fs' : Files) : Prop where
  made : ∀ j < e.count.toNat, ∃ node, fs' (e.place host (e.start.toNat + j)) = some node ∧
    node.rdev.1 = e.major ∧ node.rdev.2.toNat = e.minor.toNat + j * e.increment.toNat
  only : ∀ place, (∀ j < e.count.toNat, place ≠ e.place host (e.start.toNat + j)) →
    fs' place = fs place

section Claim
variable {host : Host} {e : Entry} {fs : Files}

end Claim

/-! ## Two lines of the example table -/

/-- An empty tree but for `/dev`. -/
def devFiles : Files := fun place =>
  if place = [['d', 'e', 'v']] then some ⟨S_IFDIR ||| 0o755, 0, 0, (0, 0)⟩ else none

/-- `/dev/hda b 640 0 0 3 0 0 1 15` -/
def hdaFromZero : Text :=
  ['/', 'd', 'e', 'v', '/', 'h', 'd', 'a', ' ', 'b', ' ', '6', '4', '0', ' ', '0', ' ', '0', ' ',
    '3', ' ', '0', ' ', '0', ' ', '1', ' ', '1', '5']

/-- `/dev/hda b 640 0 0 3 1 1 1 15` -/
def hdaFromOne : Text :=
  ['/', 'd', 'e', 'v', '/', 'h', 'd', 'a', ' ', 'b', ' ', '6', '4', '0', ' ', '0', ' ', '0', ' ',
    '3', ' ', '1', ' ', '1', ' ', '1', ' ', '1', '5']

/-- The entry of a range `/dev/hda`. -/
def hdaEntry (minor start : UInt32) : Entry :=
  ⟨['/', 'd', 'e', 'v', '/', 'h', 'd', 'a'], 'b', 0o640, 0, 0, 3, minor, start, 1, 15⟩

end Grasshopper.Makedevs
