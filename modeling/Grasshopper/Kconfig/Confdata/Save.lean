import Grasshopper.Kconfig.Confdata.Write
import Grasshopper.Kconfig.Symbol.Keep

/-! # What is left when `conf_write(NULL)` fails

The new file is written next to `.config`, then `.config` is moved to `.config.old`, then the new
file is moved into its place. The lines take `SYMBOL_WRITE` from the symbols they are about, and a
failure at the end gives nothing back.
-/

namespace Grasshopper.Kconfig

section Model
variable (cfg : Config)

/-! ## The files -/

/-- The files that `conf_write(NULL)` touches. -/
inductive ConfigFile
  | config
  | configOld
  | tmpconfig
  | configTmp
  | configCmd
  deriving DecidableEq, Repr

/-- What each file holds, in the pieces it was printed in. -/
abbrev Disk := ConfigFile → Option (List Text)

/-- `rename` of the C library: whether it succeeds, and the files after it. -/
def rename (fails : Bool) (old new : ConfigFile) (disk : Disk) : Bool × Disk :=
  match disk old with
  | none => (false, disk)
  | some contents =>
    if fails then (false, disk)
    else (true, Function.update (Function.update disk old none) new (some contents))

/-- The calls of the C library that fail. -/
structure Faults where
  fopen : Bool := false
  fopenDep : Bool := false
  renameDep : Bool := false
  renameOld : Bool := false
  renameNew : Bool := false
  deriving DecidableEq, Repr

/-- `file_write_dep(NULL)`; its result is not looked at. -/
def fileWriteDep (faults : Faults) (dep : List Text) (disk : Disk) : Disk :=
  if faults.fopenDep then disk
  else
    (rename faults.renameDep .configTmp .configCmd
      (Function.update disk .configTmp (some dep))).2

/-- What the walk over the menus prints for each entry. -/
def writeLines : List Entry → State → List Text × State
  | [], st => ([], st)
  | e :: es, st =>
    let (text, st) := writeEntry cfg e st
    let (rest, st) := writeLines es st
    (text :: rest, st)

/-- The state in which the walk begins. -/
def writeStart (st : State) : State := if st.changeCount = 0 then symClearAllValid cfg st else st

/-- The lines that `conf_write` has for a state: one piece for each entry. -/
def confLines (st : State) : List Text :=
  (writeLines cfg cfg.menus.preorder (writeStart cfg st)).1

/-- What `conf_write(NULL)` returns, with the state and the files it leaves. -/
structure Saved where
  result : ℕ
  state : State
  disk : Disk

/-- `conf_write(NULL)`; `dep` is what goes into `.config.cmd`. -/
def confSave (dep : List Text) (faults : Faults) (st : State) (disk : Disk) : Saved :=
  if faults.fopen then ⟨1, st, disk⟩
  else
    let (lines, st) := writeLines cfg cfg.menus.preorder (writeStart cfg st)
    let disk := Function.update disk .tmpconfig (some (fileHeader :: lines))
    let disk := fileWriteDep faults dep disk
    let (_, disk) := rename faults.renameOld .config .configOld disk
    match rename faults.renameNew .tmpconfig .config disk with
    | (false, disk) => ⟨1, st, disk⟩
    | (true, disk) => ⟨0, { st with changeCount := 0 }, disk⟩

/-- A failed call leaves `.config` alone, and the next one that succeeds writes the lines that the
failed one had. -/
def SaveKeeps (dep : List Text) (faults : Faults) (st : State) (disk : Disk) : Prop :=
  (confSave cfg dep faults st disk).result = 1 →
    (confSave cfg dep faults st disk).disk .config = disk .config ∧
      ∀ dep' faults',
        (confSave cfg dep' faults' (confSave cfg dep faults st disk).state
          (confSave cfg dep faults st disk).disk).result = 0 →
        (confSave cfg dep' faults' (confSave cfg dep faults st disk).state
          (confSave cfg dep faults st disk).disk).disk .config =
            some (fileHeader :: confLines cfg st)

/-- Whether an entry has the line of a symbol. -/
def writesSymbol (e : Entry) (st : State) : Bool :=
  match e.sym with
  | none => false
  | some s => !s.isChoice && decide (cfg.type s ≠ .unknown) && (symCalcValue cfg s st).write s

/-- The entries that have the line of a symbol, in a walk over the menus. -/
def symbolEntries : List Entry → State → List Bool
  | [], _ => []
  | e :: es, st => writesSymbol cfg e st :: symbolEntries es (writeEntry cfg e st).2

/-- `SYMBOL_WRITE` is back, after a walk over the menus, where the walk needed it, and nowhere
else. -/
def FlagsBack (st : State) : Prop :=
  let es := cfg.menus.preorder
  symbolEntries cfg es (writeStart cfg st) =
    symbolEntries cfg es (writeLines cfg es (writeStart cfg st)).2

end Model

variable {cfg : Config}

/-! ## The lines -/

/-- The pieces of the lines make up what `conf_write` prints. -/
theorem writeEntries_eq_flatten (es : List Entry) (st : State) :
    writeEntries cfg es st = ((writeLines cfg es st).1.flatten, (writeLines cfg es st).2) := by
  induction es generalizing st with
  | nil => rfl
  | cons e es ih => simp only [writeEntries, writeLines, ih, List.flatten_cons]

/-- What is printed for an entry, with the values at the end of the walk. -/
def entryText (cfg : Config) (σ : Sym → SymbolValue) (e : Entry) (writes : Bool) : Text :=
  match e.sym with
  | none =>
    match e.prompt with
    | none => []
    | some p =>
      if optValue cfg.type σ p.visible ≠ .no then titleLines (p.text.getD []) else []
  | some s => if writes then symbolLine (cfg.type s) (s.name?.getD []) (σ s) else []

theorem symbolLine_ne_nil {type : SymType} (h : type ≠ .unknown) (name : Text) (v : SymbolValue) :
    symbolLine type name v ≠ [] := by
  cases type with
  | unknown => exact absurd rfl h
  | boolean => cases hv : v.tri <;> simp [symbolLine, triLine, hv]
  | tristate => cases hv : v.tri <;> simp [symbolLine, triLine, hv]
  | string => simp [symbolLine, stringLine]
  | int => simp [symbolLine, numberLine]
  | hex => simp [symbolLine, numberLine]

section Rounds
variable {e : Entry} {s : Sym} {st : State}

theorem writeEntry_title (h : e.sym = none) :
    writeEntry cfg e st =
      match e.prompt with
      | none => ([], st)
      | some p =>
        (if (optCalcValue cfg (symCalcValue cfg) p.visible st).1 ≠ .no
          then titleLines (p.text.getD []) else [],
        (optCalcValue cfg (symCalcValue cfg) p.visible st).2) := by
  simp only [writeEntry, h, entryIsVisible]
  cases e.prompt with
  | none => rfl
  | some p =>
    simp only [calcPromptTri, h]
    by_cases hv : (optCalcValue cfg (symCalcValue cfg) p.visible st).1 = .no
    · simp [hv]
    · simp [hv]

theorem writeEntry_choice (h : e.sym = some s) (hc : s.isChoice = true) :
    writeEntry cfg e st = ([], st) := by simp only [writeEntry, h, hc, if_true]

/-- What a symbol's entry leaves: the symbol has its value, and no `SYMBOL_WRITE` any more. -/
def written (cfg : Config) (s : Sym) (st : State) : State :=
  if cfg.type s = .tristate then symCalcValue cfg modulesSym (st.setWrite s false)
  else st.setWrite s false

theorem writeEntry_symbol (h : e.sym = some s) (hc : s.isChoice = false) :
    writeEntry cfg e st =
      if (symCalcValue cfg s st).write s then
        (symbolLine (cfg.type s) (s.name?.getD []) ((written cfg s (symCalcValue cfg s st)).curr s),
          written cfg s (symCalcValue cfg s st))
      else ([], symCalcValue cfg s st) := by
  simp only [writeEntry, h, hc, Bool.false_eq_true, if_false]
  cases hw : (symCalcValue cfg s st).write s with
  | false => rfl
  | true => rfl

theorem written_keeps {A : Set Sym} (hA : st.Marks A) : Keeps A st (written cfg s st) := by
  have hw : Keeps A st (st.setWrite s false) := .setWrite s false
  unfold written
  split_ifs
  · exact hw.trans (symCalcValue_keepsMarked modulesSym _ (hw.marks hA))
  · exact hw

/-- A round of the walk evaluates, and takes `SYMBOL_WRITE` from one symbol. -/
theorem writeEntry_keeps {A : Set Sym} (hA : st.Marks A) : Keeps A st (writeEntry cfg e st).2 := by
  have call : KeepsMarked A (symCalcValue cfg) := symCalcValue_keepsMarked
  cases h : e.sym with
  | none =>
    rw [writeEntry_title h]
    cases e.prompt with
    | none => exact .refl st
    | some p => exact optCalcValue_keeps call p.visible hA
  | some s =>
    cases hc : s.isChoice with
    | true => rw [writeEntry_choice h hc]
    | false =>
      have hs := call s st hA
      rw [writeEntry_symbol h hc]
      split_ifs
      · exact hs.trans (written_keeps (hs.marks hA))
      · exact hs

/-- A round prints what the values at a later time say. -/
theorem writeEntry_text (hn : cfg.symbols ≠ []) {σ : Sym → SymbolValue}
    (hσ : ∀ a, (writeEntry cfg e st).2.valid a = true → σ a = (writeEntry cfg e st).2.curr a) :
    (writeEntry cfg e st).1 = entryText cfg σ e (writesSymbol cfg e st) := by
  unfold entryText writesSymbol
  cases h : e.sym with
  | none =>
    rw [writeEntry_title h] at hσ ⊢
    cases hp : e.prompt with
    | none => rfl
    | some p =>
      obtain ⟨hm, hv⟩ := optCalcValue_marked hn p.visible st
      simp only [hp] at hσ ⊢
      rw [hv, optValue_congr p.visible fun a ha => (hσ a (hm a ha)).symm]
  | some s =>
    cases hc : s.isChoice with
    | true =>
      rw [writeEntry_choice h hc]
      simp [hc]
    | false =>
      have hs : (symCalcValue cfg s st).valid s = true := valid_symCalcValue hn s st
      rw [writeEntry_symbol h hc] at hσ ⊢
      cases hw : (symCalcValue cfg s st).write s with
      | false => simp [hw]
      | true =>
        have hk : Keeps {s} (symCalcValue cfg s st) (written cfg s (symCalcValue cfg s st)) :=
          written_keeps fun a ha => by rwa [Set.mem_singleton_iff.mp ha]
        have hcurr : σ s = (written cfg s (symCalcValue cfg s st)).curr s := by
          simp only [hw, if_true] at hσ
          exact hσ s (hk.valid s hs)
        by_cases ht : cfg.type s = .unknown
        · simp [ht, symbolLine]
        · simp [ht, hcurr, hc, hw]

end Rounds

theorem writeLines_keeps (es : List Entry) {A : Set Sym} {st : State} (hA : st.Marks A) :
    Keeps A st (writeLines cfg es st).2 := by
  induction es generalizing st with
  | nil => exact .refl st
  | cons e es ih =>
    have he : Keeps A st (writeEntry cfg e st).2 := writeEntry_keeps hA
    exact he.trans (ih (he.marks hA))

/-- The lines of a walk are those of its symbol entries, with the values at a later time. -/
theorem writeLines_text (hn : cfg.symbols ≠ []) {σ : Sym → SymbolValue} (es : List Entry) {st : State}
    (hσ : ∀ a, (writeLines cfg es st).2.valid a = true → σ a = (writeLines cfg es st).2.curr a) :
    (writeLines cfg es st).1 = List.zipWith (entryText cfg σ) es (symbolEntries cfg es st) := by
  induction es generalizing st with
  | nil => rfl
  | cons e es ih =>
    have he : (writeEntry cfg e st).1 = entryText cfg σ e (writesSymbol cfg e st) := by
      apply writeEntry_text hn
      intro a ha
      have hk : Keeps {a | (writeEntry cfg e st).2.valid a = true} (writeEntry cfg e st).2
          (writeLines cfg es (writeEntry cfg e st).2).2 := writeLines_keeps es fun _ h => h
      exact (hσ a (hk.valid a ha)).trans (hk.curr a ha)
    have hes : (writeLines cfg es (writeEntry cfg e st).2).1 = List.zipWith (entryText cfg σ) es
        (symbolEntries cfg es (writeEntry cfg e st).2) := ih hσ
    simp only [writeLines, symbolEntries, List.zipWith_cons_cons]
    rw [he, hes]

/-- Two walks print the same lines when they have the same symbol entries. -/
theorem zipWith_entryText_inj {σ : Sym → SymbolValue} (es : List Entry) {st st' : State}
    (h : List.zipWith (entryText cfg σ) es (symbolEntries cfg es st) =
      List.zipWith (entryText cfg σ) es (symbolEntries cfg es st')) :
    symbolEntries cfg es st = symbolEntries cfg es st' := by
  induction es generalizing st st' with
  | nil => rfl
  | cons e es ih =>
    simp only [symbolEntries, List.zipWith_cons_cons, List.cons.injEq] at h
    have he : writesSymbol cfg e st = writesSymbol cfg e st' := by
      have h1 := h.1
      unfold entryText writesSymbol at h1
      unfold writesSymbol
      cases hs : e.sym with
      | none => rfl
      | some s =>
        simp only [hs] at h1 ⊢
        by_cases hc : s.isChoice
        · simp [hc]
        by_cases ht : cfg.type s = .unknown
        · simp [ht]
        cases hw : (symCalcValue cfg s st).write s <;> cases hw' : (symCalcValue cfg s st').write s
        · rfl
        · simp [hc, ht, hw, hw', (symbolLine_ne_nil ht _ _).symm] at h1
        · simp [hc, ht, hw, hw', symbolLine_ne_nil ht _ _] at h1
        · rfl
    simp only [symbolEntries]
    rw [he, ih h.2]

/-! ## The files -/

theorem rename_of_ne (fails : Bool) {old new f : ConfigFile} (ho : f ≠ old) (hn : f ≠ new)
    (disk : Disk) : (rename fails old new disk).2 f = disk f := by
  unfold rename
  cases disk old with
  | none => rfl
  | some contents =>
    cases fails with
    | true => rfl
    | false => simp [Function.update_of_ne ho, Function.update_of_ne hn]

/-- What stays at the old name. -/
theorem rename_old (fails : Bool) {old new : ConfigFile} (h : old ≠ new) (disk : Disk) :
    (rename fails old new disk).2 old = if fails then disk old else none := by
  unfold rename
  cases hd : disk old with
  | none => cases fails <;> simp [hd]
  | some contents =>
    cases fails with
    | true => simpa using hd
    | false => simp [Function.update_of_ne h]

theorem fileWriteDep_of_ne (faults : Faults) (dep : List Text) (disk : Disk) {f : ConfigFile}
    (ht : f ≠ .configTmp) (hc : f ≠ .configCmd) : fileWriteDep faults dep disk f = disk f := by
  unfold fileWriteDep
  split_ifs
  · rfl
  · rw [rename_of_ne _ ht hc, Function.update_of_ne ht]

section Save
variable {dep : List Text} {faults : Faults} {st : State} {disk : Disk}

theorem confSave_of_fopen (h : faults.fopen = true) :
    confSave cfg dep faults st disk = ⟨1, st, disk⟩ := by
  simp [confSave, h]

/-- The files just before the last `rename`. -/
def beforeLast (cfg : Config) (dep : List Text) (faults : Faults) (st : State) (disk : Disk) : Disk :=
  (rename faults.renameOld .config .configOld
    (fileWriteDep faults dep
      (Function.update disk .tmpconfig (some (fileHeader :: confLines cfg st))))).2

theorem beforeLast_tmpconfig :
    beforeLast cfg dep faults st disk .tmpconfig = some (fileHeader :: confLines cfg st) := by
  unfold beforeLast
  rw [rename_of_ne _ (by decide) (by decide), fileWriteDep_of_ne _ _ _ (by decide) (by decide),
    Function.update_self]

theorem beforeLast_config :
    beforeLast cfg dep faults st disk .config = if faults.renameOld then disk .config else none := by
  unfold beforeLast
  rw [rename_old _ (by decide), fileWriteDep_of_ne _ _ _ (by decide) (by decide),
    Function.update_of_ne (by decide)]

/-- The state that the walk over the menus leaves. -/
def walked (cfg : Config) (st : State) : State :=
  (writeLines cfg cfg.menus.preorder (writeStart cfg st)).2

/-- When the file can be opened, only the last `rename` matters. -/
theorem confSave_of_open (h : faults.fopen = false) :
    confSave cfg dep faults st disk =
      if faults.renameNew then ⟨1, walked cfg st, beforeLast cfg dep faults st disk⟩
      else ⟨0, { walked cfg st with changeCount := 0 },
        Function.update (Function.update (beforeLast cfg dep faults st disk) .tmpconfig none) .config
          (some (fileHeader :: confLines cfg st))⟩ := by
  have htmp : beforeLast cfg dep faults st disk .tmpconfig =
      some (fileHeader :: confLines cfg st) := beforeLast_tmpconfig
  have hlast : rename faults.renameNew .tmpconfig .config (beforeLast cfg dep faults st disk) =
      if faults.renameNew then (false, beforeLast cfg dep faults st disk)
      else (true, Function.update (Function.update (beforeLast cfg dep faults st disk) .tmpconfig none)
        .config (some (fileHeader :: confLines cfg st))) := by
    rw [rename, htmp]
  unfold confSave
  simp only [h, Bool.false_eq_true, if_false]
  change (match rename faults.renameNew .tmpconfig .config (beforeLast cfg dep faults st disk) with
    | (false, disk) => (⟨1, walked cfg st, disk⟩ : Saved)
    | (true, disk) => ⟨0, { walked cfg st with changeCount := 0 }, disk⟩) = _
  rw [hlast]
  cases faults.renameNew <;> rfl

/-! ## A failed call and the next one -/

theorem writeStart_changeCount (st : State) : (writeStart cfg st).changeCount ≠ 0 := by
  unfold writeStart
  split_ifs with h
  · have hc : (symClearAllValid cfg st).changeCount = st.changeCount + 1 :=
      (symCalcValue_keeps modulesSym _).changeCount
    omega
  · exact h

/-- The walk does not reset the count, so the next one begins where this one ends. -/
theorem writeStart_walked (st : State) : writeStart cfg (walked cfg st) = walked cfg st := by
  have hk : Keeps ∅ (writeStart cfg st) (walked cfg st) :=
    writeLines_keeps _ fun _ h => h.elim
  have hc : (walked cfg st).changeCount ≠ 0 := by
    rw [hk.changeCount]
    exact writeStart_changeCount st
  exact if_neg hc

/-- A walk from where the last one ended prints the same lines exactly when `SYMBOL_WRITE` is back. -/
theorem confLines_walked_iff (hn : cfg.symbols ≠ []) (st : State) :
    confLines cfg (walked cfg st) = confLines cfg st ↔ FlagsBack cfg st := by
  have hk : Keeps {a | (walked cfg st).valid a = true} (walked cfg st)
      (writeLines cfg cfg.menus.preorder (walked cfg st)).2 := writeLines_keeps _ fun _ h => h
  have hfirst : (writeLines cfg cfg.menus.preorder (writeStart cfg st)).1 =
      List.zipWith (entryText cfg (writeLines cfg cfg.menus.preorder (walked cfg st)).2.curr)
        cfg.menus.preorder (symbolEntries cfg cfg.menus.preorder (writeStart cfg st)) :=
    writeLines_text hn _ fun a ha => hk.curr a ha
  have hagain : (writeLines cfg cfg.menus.preorder (walked cfg st)).1 =
      List.zipWith (entryText cfg (writeLines cfg cfg.menus.preorder (walked cfg st)).2.curr)
        cfg.menus.preorder (symbolEntries cfg cfg.menus.preorder (walked cfg st)) :=
    writeLines_text hn _ fun _ _ => rfl
  unfold confLines FlagsBack
  rw [writeStart_walked, hfirst, hagain]
  constructor
  · intro h
    exact (zipWith_entryText_inj _ h).symm
  · intro h
    rw [walked, ← h]

theorem confSave_config_of_result (h : (confSave cfg dep faults st disk).result = 0) :
    (confSave cfg dep faults st disk).disk .config = some (fileHeader :: confLines cfg st) := by
  cases hf : faults.fopen with
  | true => simp [confSave_of_fopen hf] at h
  | false =>
    cases hr : faults.renameNew with
    | true => simp [confSave_of_open hf, hr] at h
    | false => simp [confSave_of_open hf, hr]

/-- There is always a later call that succeeds. -/
theorem confSave_result_of_no_faults : (confSave cfg dep {} st disk).result = 0 := by
  rw [confSave_of_open rfl]
  rfl

end Save

/-! ## A file that is lost -/

section Example

/-- One bool option. -/
def oneOption : ParsedTree where
  block := .config nameA false [.type .boolean (some (['a'], none))] .nil
  choices_nodup := by decide
  named := by decide

/-- The second walk has no line for the option. -/
example : (symbolEntries oneOption.config oneOption.config.menus.preorder .initial,
    symbolEntries oneOption.config oneOption.config.menus.preorder
      (walked oneOption.config .initial)) = ([true], [false]) := by
  decide +kernel

end Example

end Grasshopper.Kconfig
