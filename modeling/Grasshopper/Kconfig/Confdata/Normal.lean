import Grasshopper.Kconfig.Confdata.Roundtrip

/-! # The normal form of a file

What `conf_write` prints for a file that was just read is a normal form of it: a program that reads
this text and writes it again prints the same text.
-/

namespace Grasshopper.Kconfig

/-- Every symbol is computed. -/
def State.Evaluated (t : ParsedTree) (st : State) : Prop := ∀ x, t.InTable x → st.valid x = true

/-! ## The walk over computed symbols -/

section Walk
variable {t : ParsedTree} {st st' : State} {e : Entry}

/-- A round takes `SYMBOL_WRITE` from its symbol, and computes nothing. -/
theorem writeEntry_evaluated (h : st.Evaluated t) (he : e.Fits t.config) :
    (writeEntry t.config e st).2 = match e.sym with
      | none => st
      | some s => if s.isChoice then st else st.setWrite s false := by
  cases hs : e.sym with
  | none =>
    rw [writeEntry_title hs]
    cases hp : e.prompt with
    | none => rfl
    | some p => simp [optCalcValue_again p.visible fun x hx => h x (he.syms p hp x hx)]
  | some s =>
    by_cases hc : s.isChoice = true
    · rw [writeEntry_choice hs hc]
      simp [hc]
    rw [Bool.not_eq_true] at hc
    rw [writeEntry_symbol hs hc, symCalcValue_of_valid (h s (.inr (he.sym s hs)))]
    have hmod : (st.setWrite s false).valid modulesSym = true := h _ (.inr t.modulesSym_mem)
    by_cases hw : st.write s = true
    · simp [hw, hc, written, symCalcValue_of_valid hmod]
    · rw [Bool.not_eq_true] at hw
      have hkeep : Function.update st.write s false = st.write := by simp [← hw]
      simp [hw, hc, State.setWrite, hkeep]

/-- Which entries have a line depends on `SYMBOL_WRITE` alone. -/
theorem symbolEntries_evaluated (h : st.Evaluated t) (h' : st'.Evaluated t)
    (hw : st.write = st'.write) (es : List Entry) (hes : ∀ e ∈ es, e.Fits t.config) :
    symbolEntries t.config es st = symbolEntries t.config es st' := by
  induction es generalizing st st' with
  | nil => rfl
  | cons e es ih =>
    rw [List.forall_mem_cons] at hes
    have hfirst : writesSymbol t.config e st = writesSymbol t.config e st' := by
      unfold writesSymbol
      cases hs : e.sym with
      | none => rfl
      | some s =>
        have hin : t.InTable s := .inr (hes.1.sym s hs)
        dsimp only
        rw [symCalcValue_of_valid (h s hin), symCalcValue_of_valid (h' s hin), hw]
    rw [symbolEntries, symbolEntries, hfirst, writeEntry_evaluated h hes.1,
      writeEntry_evaluated h' hes.1]
    congr 1
    cases e.sym with
    | none => exact ih h h' hw hes.2
    | some s =>
      dsimp only
      split_ifs
      · exact ih h h' hw hes.2
      · refine ih h h' ?_ hes.2
        simp only [State.setWrite, hw]

end Walk

/-! ## What no value tells apart -/

namespace Alike
variable {t : ParsedTree} {D D' : UserData} {ρ ρ' : Sym → SymbolValue} (h : Alike t.config ρ ρ')
include h

theorem writes (hmod : D'.modulesVal = D.modulesVal) (s : Sym) :
    Kconfig.writes t.config D ρ s = Kconfig.writes t.config D' ρ' s := by
  unfold Kconfig.writes
  rw [h.visibleTri, h.reverseTri, h.activeDefault, visibleTri_of_modulesVal hmod,
    reverseTri_of_modulesVal hmod]

theorem given (hmod : D'.modulesVal = D.modulesVal) (N : Set Sym) :
    Kconfig.given t.config D ρ N = Kconfig.given t.config D' ρ' N := by
  unfold Kconfig.given
  simp only [h.writes hmod]

theorem entryText (hchoices : t.SimpleChoices) (e : Entry) (b : Bool) :
    Kconfig.entryText t.config ρ e b = Kconfig.entryText t.config ρ' e b := by
  unfold Kconfig.entryText
  cases e.sym with
  | none =>
    cases e.prompt with
    | none => rfl
    | some p =>
      dsimp only
      have hcond := h.conditionTri p
      unfold Kconfig.conditionTri at hcond
      rw [hcond]
  | some s =>
    have hline : symbolLine (t.config.type s) (s.name?.getD []) (ρ s) =
        symbolLine (t.config.type s) (s.name?.getD []) (ρ' s) := by
      cases hty : t.config.type s <;> simp only [symbolLine, h.tri]
      all_goals rw [h.text s (hchoices.not_isChoice (by rw [hty]; rfl))]
    dsimp only
    rw [hline]

end Alike

/-! ## Writing what was read -/

section Normal
variable {t : ParsedTree} {D : UserData} {ρ : Sym → SymbolValue} {st : State} {file : Text}

/-- After a file is read at the start of the program, every symbol is computed. -/
theorem Loaded.evaluated (h : Loaded t.config D ρ .initial st) (hty : t.TypedChoices)
    (hD : D.Sane t.config) : st.Evaluated t := by
  rintro x (hx | hx)
  · have hsane := h.sane (State.initial_sane t.config) hD hty.typedCandidates t.symbols_not_static
    exact (hsane.static x hx).1
  · exact h.settled.valid x hx

/-- It has `SYMBOL_WRITE` exactly where the evaluation of all symbols gives it. -/
theorem Loaded.write (h : Loaded t.config D ρ .initial st) (hflat : t.config.FlatChoices) (u : Sym) :
    st.write u = true ↔ u ∈ given t.config D ρ {s | s ∈ t.config.symbols} := by
  obtain ⟨N, hf⟩ := h.ext
  have hN : N = {s | s ∈ t.config.symbols} := by
    ext s
    refine ⟨hf.table s, fun hs => ?_⟩
    have hin : s ∈ t.config.symbols := hs
    refine ((hf.valid s).mp (h.settled.valid s hin)).resolve_left ?_
    simp [resetState, hin]
  have hw := hf.write hflat u
  rw [hN] at hw
  simpa [resetState, State.withData, State.initial] using hw

variable (ht : t.Regular) (hm : t.config.type modulesSym = .unknown)
include ht

theorem Loaded.tracks (h : Loaded t.config D ρ .initial st) (hD : D.Sane t.config)
    (hρ : Dependency.Solution (currOf t.config D) ρ) : st.Tracks t D ρ :=
  ⟨h.sane (State.initial_sane t.config) hD (ParsedTree.TypedChoices.typedCandidates ht.typed)
    t.symbols_not_static, hD.own, hρ, h.settled.good⟩

include hm

/-- What `conf_write` prints after a file was read. -/
theorem Loaded.confWrite_text (h : Loaded t.config D ρ .initial st) (hD : D.Sane t.config)
    (hρ : Dependency.Solution (currOf t.config D) ρ) :
    (confWrite t.config st).1 = fileHeader ++ (List.zipWith (entryText t.config ρ)
      t.config.menus.preorder (symbolEntries t.config t.config.menus.preorder st)).flatten := by
  have hstart : writeStart t.config st = st := by simp [writeStart, h.changeCount]
  have hlast := writeLines_tracks ht.toTidy ht.typed hm (h.tracks ht hD hρ) _ t.entry_fits
  rw [Kconfig.confWrite_text, hstart, writeLines_text (List.ne_nil_of_mem t.modulesSym_mem) _
    fun a ha => (hlast.good.curr ha (Set.notMem_empty a)).symm]

end Normal

/-- A file that was read and written is in normal form: reading and writing it again, in another run
of the program, gives the same text. -/
theorem confWrite_normal {t : ParsedTree} {st : State} {file : Text} (ht : t.Regular)
    (hm : t.config.type modulesSym = .unknown) (hchoices : t.SimpleChoices)
    (hread : confRead t.config file .initial = .ok st) (hfile : Legible t st st) :
    ∃ st', confRead t.config (confWrite t.config st).1 .initial = .ok st' ∧
      (confWrite t.config st').1 = (confWrite t.config st).1 := by
  have hsane := State.initial_sane t.config
  cases hD : fileData t.config file with
  | error e =>
    rw [confRead_error hsane hD] at hread
    cases hread
  | ok D =>
    have hDsane := fileData_sane hD
    obtain ⟨ρ, hρ⟩ := ht.exists_solution hDsane.own.candidates
    obtain ⟨st₁, hread₁, hl⟩ := ht.toTidy.confRead ht.typed hm hsane hD hρ
    obtain rfl : st₁ = st := Except.ok.inj (hread₁.symm.trans hread)
    have hstart : writeStart t.config st₁ = st₁ := by simp [writeStart, hl.changeCount]
    have htracks := hl.tracks ht hDsane hρ
    have hflags := hl.flags hsane ht.flat
    obtain ⟨D', hread', hback⟩ := fileData_readBack ht hm hchoices (hstart.symm ▸ htracks)
      (hstart.symm ▸ hflags) hfile.title fun s hs => by
        have hr := hfile.value s hs
        rwa [hl.settled.good.curr (hl.settled.valid s hr.mem) (Set.notMem_empty s)] at hr
    have hDsane' := fileData_sane hread'
    have hsolves := hback.solution ht htracks.modulesVal hchoices hρ hDsane.own.candidates
    have hlike := hback.alike ht htracks.modulesVal hchoices hρ
    obtain ⟨st', hconf, hl'⟩ := ht.toTidy.confRead ht.typed hm hsane hread' hsolves
    refine ⟨st', hconf, ?_⟩
    have hwrite : st'.write = st₁.write := by
      ext u
      rw [Bool.eq_iff_iff, hl'.write ht.flat, hl.write ht.flat, hlike.given hback.modulesVal]
    rw [hl'.confWrite_text ht hm hDsane' hsolves, hl.confWrite_text ht hm hDsane hρ,
      symbolEntries_evaluated (hl'.evaluated ht.typed hDsane') (hl.evaluated ht.typed hDsane) hwrite _
        t.entry_fits]
    have htext : entryText t.config (readValues t.config D' ρ) = entryText t.config ρ := by
      funext e b
      exact (hlike.entryText hchoices e b).symm
    rw [htext]

/-! ## A file in another order -/

/-- The lines are not in the order of the menus, and some are missing. -/
def unordered : Text := ['B', '=', 'y', '\n', 'S', '=', '"', 'a', '"', '\n']

/-- What `conf_read` makes of it. -/
def readUnordered : State :=
  match confRead savedTree.config unordered .initial with
  | .ok st => st
  | .error _ => .initial

theorem confRead_unordered : confRead savedTree.config unordered .initial = .ok readUnordered := by
  have hrun : (match confRead savedTree.config unordered .initial with
      | .ok _ => true
      | .error _ => false) = true := by
    decide +kernel
  unfold readUnordered
  cases hread : confRead savedTree.config unordered .initial with
  | error e => simp [hread] at hrun
  | ok st => rfl

theorem readUnordered_legible : Legible savedTree readUnordered readUnordered where
  title := savedState_legible.title
  value := by decide +kernel

/-- The normal form says what the file says, and comes back. -/
theorem confWrite_normal_savedTree :
    (readUnordered.curr (.config nameB)).tri = .yes ∧ ∃ st',
      confRead savedTree.config (confWrite savedTree.config readUnordered).1 .initial = .ok st' ∧
      (confWrite savedTree.config st').1 = (confWrite savedTree.config readUnordered).1 :=
  ⟨by decide +kernel, confWrite_normal savedTree_regular (by decide)
    (ParsedTree.simpleChoices_of_symbols (by decide)) confRead_unordered
    readUnordered_legible⟩

end Grasshopper.Kconfig
