import Grasshopper.Kconfig.Confdata.Saved

/-! # Setting a string in a session

A value that `sym_set_string_value` accepts is the value of the symbol from then on, unless it is the
user value already: then nothing is computed again, and a value that was computed while the symbol
had `SYMBOL_NEW` stays.
-/

namespace Grasshopper.Kconfig

/-- The user value is the new one already, and what was computed is something else. -/
def Stuck (cfg : Config) (st : State) (s : Sym) (newval : Text) : Prop :=
  storedText (cfg.type s) newval = newval ∧ (st.user s).val = .text newval ∧
    (st.curr s).val ≠ .text newval

/-! ## The line of a symbol -/

theorem mem_entryTexts {cfg : Config} {σ : Sym → SymbolValue} {es : List Entry} {flags : List Bool}
    {s : Sym} (h : s ∈ writtenSymbols es flags) :
    symbolLine (cfg.type s) (s.name?.getD []) (σ s) ∈ List.zipWith (entryText cfg σ) es flags := by
  obtain ⟨⟨e, b⟩, hmem, hs⟩ := List.mem_filterMap.mp h
  rw [Option.ite_none_right_eq_some] at hs
  obtain ⟨hb, hs⟩ := hs
  rw [← List.map_uncurry_zip_eq_zipWith]
  refine List.mem_map.mpr ⟨(e, b), hmem, ?_⟩
  dsimp only at hb hs
  simp [entryText, hs, hb]

/-- A visible symbol has a line with its value. -/
theorem exists_line {t : ParsedTree} {st : State} {s : Sym} (ht : t.Regular)
    (hm : t.config.type modulesSym = .unknown) (h : Session t True st) (hc : s.isChoice = false)
    (hty : t.config.type s ≠ .unknown)
    (hv : (symCalcValue t.config s (writeStart t.config st)).visible s ≠ .no) :
    ∃ before after, (confWrite t.config st).1 = before ++ symbolLine (t.config.type s)
      (s.name?.getD []) ((symCalcValue t.config s (writeStart t.config st)).curr s) ++ after := by
  obtain ⟨D, ρ, hstart, hflags⟩ :=
    writeStart_tracks ht.toTidy ht.typed hm (h.traced ht.toTidy ht.typed hm)
  have hs : s ∈ t.config.symbols := ParsedTree.mem_symbols_of_typed (t.linked.typed s hty) hty
  rw [hstart.visible_evaluate ht.toTidy hm hs hty] at hv
  rw [hstart.curr_evaluate ht.toTidy hm hs]
  have hwritten := mem_writtenSymbols_of_shown ht hm (hflags ht.flat) hstart _ t.entry_fits
    (t.exists_entry_of_visible hv) hc hty hv (Set.notMem_empty s)
  have hlast := writeLines_tracks ht.toTidy ht.typed hm hstart _ t.entry_fits
  have htext := writeLines_text (List.ne_nil_of_mem t.modulesSym_mem) (σ := ρ)
    t.config.menus.preorder fun a ha => (hlast.good.curr ha (Set.notMem_empty a)).symm
  have hline : symbolLine (t.config.type s) (s.name?.getD []) (ρ s) ∈
      (writeLines t.config t.config.menus.preorder (writeStart t.config st)).1 :=
    htext ▸ mem_entryTexts hwritten
  obtain ⟨before, after, hsplit⟩ := List.append_of_mem hline
  refine ⟨fileHeader ++ before.flatten, after.flatten, ?_⟩
  rw [confWrite_text, hsplit]
  simp

/-! ## The setter -/

section Strings
variable {t : ParsedTree} {st : State} {s : Sym} (ht : t.Tidy) (hty : t.TypedChoices)
  (hm : t.config.type modulesSym = .unknown) (hs : s ∈ t.config.symbols)
  (htext : (t.config.type s).isText = true)
include ht hty hm hs htext

/-- The value of a visible symbol that has been set, when everything is computed again. -/
theorem val_of_user (hst : st.Sane t.config) (hnew : st.isNew s = false)
    (hv : (symCalcValue t.config s (symClearAllValid t.config st)).visible s ≠ .no) :
    ((symCalcValue t.config s (symClearAllValid t.config st)).curr s).val = (st.user s).val := by
  have hl := SymType.not_isLogic_of_isText htext
  have htyped : t.config.type s ≠ .unknown := fun hu => by simp [hu, SymType.isText] at htext
  obtain ⟨ρ, hρ⟩ := ht.exists_solution hst.data.own.candidates
  have hclear := State.Tracks.clear ht hty hm hst hρ
  rw [hclear.visible_evaluate ht hm hs htyped] at hv
  rw [hclear.curr_evaluate ht hm hs, hρ s, currOf_dynamic (t.symbols_not_static s hs) htyped,
    if_neg (by simp [hl])]
  exact if_pos ⟨hv, by simp [State.data, hnew]⟩

/-- What a call does: it refuses the value, or finds it there, or stores it and clears all marks. -/
theorem symSetStringValue_cases (h : Session t True st) (newval : Text) :
    ∃ st₁, st₁.Sane t.config ∧ st₁.user = st.user ∧ st₁.isNew = st.isNew ∧
      (∀ x, st.valid x = true → st₁.valid x = true ∧ st₁.curr x = st.curr x) ∧
      (symSetStringValue t.config s newval st = (false, st₁) ∨
        storedText (t.config.type s) newval = newval ∧ (st.user s).val = .text newval ∧
          symSetStringValue t.config s newval st = (true, st₁.setNew s false) ∨
        ¬(storedText (t.config.type s) newval = newval ∧ (st.user s).val = .text newval) ∧
          ∃ st₂ : State, st₂.Sane t.config ∧ st₂.isNew s = false ∧
            (st₂.user s).val = .text (storedText (t.config.type s) newval) ∧
            symSetStringValue t.config s newval st = (true, symClearAllValid t.config st₂)) := by
  obtain ⟨D, ρ, htracks, -⟩ := h.traced ht hty hm
  have hl := SymType.not_isLogic_of_isText htext
  have hreads := (symStringWithinRange_reads (htracks.semantics ht hm) htext
    (t.ranges_inTable s) newval htracks.good).1
  have hrange := htracks.reads hty hreads
  have hext := hreads.ext
  unfold symSetStringValue
  rw [if_neg (by simp [hl])]
  generalize symStringWithinRange t.config (symCalcValue t.config) s newval st = r at hrange hext
  obtain ⟨ok, st₁⟩ := r
  have huser : st₁.user = st.user := hext.choose_spec.user
  refine ⟨st₁, hrange.sane, huser, hext.choose_spec.isNew,
    fun x hx => ⟨hext.valid hx, hext.curr hx⟩, ?_⟩
  cases ok with
  | false => exact .inl rfl
  | true =>
    right
    dsimp only
    rw [← huser]
    split_ifs with hsame
    · exact .inl ⟨hsame.1, hsame.2, rfl⟩
    · have hX := (hrange.sane.data.setNew hs false).setVal hs
        (v := .text (storedText (t.config.type s) newval)) fun k m _ hm => by cases hm
      refine .inr ⟨hsame, _, (State.Tracks.withData_sane hrange.sane hX).1, ?_, ?_, rfl⟩
      · simp [State.withData, UserData.setVal, UserData.setNew]
      · simp [State.withData, UserData.setVal]

section Calls
variable (h : Session t True st) {newval : Text} {st' : State}
  (hset : symSetStringValue t.config s newval st = (true, st'))
include h hset

theorem val_of_set (hv : st.valid s = true) (hshown : (symCalcValue t.config s st').visible s ≠ .no) :
    ((symCalcValue t.config s st').curr s).val = .text (storedText (t.config.type s) newval) ↔
      ¬Stuck t.config st s newval := by
  obtain ⟨st₁, -, -, -, hkeep, hcall | ⟨hstored, huser, hcall⟩ | ⟨hother, st₂, hsane, hnew, huser, hcall⟩⟩ :=
    symSetStringValue_cases ht hty hm hs htext h newval
  · simp [hcall] at hset
  · obtain rfl : st' = st₁.setNew s false := congrArg Prod.snd (hset.symm.trans hcall)
    have hvalid : (st₁.setNew s false).valid s = true := (hkeep s hv).1
    have hcurr : (st₁.setNew s false).curr s = st.curr s := (hkeep s hv).2
    rw [symCalcValue_of_valid hvalid, hcurr, hstored]
    simp [Stuck, hstored, huser]
  · obtain rfl : st' = symClearAllValid t.config st₂ := congrArg Prod.snd (hset.symm.trans hcall)
    rw [val_of_user ht hty hm hs htext hsane hnew hshown, huser]
    exact iff_of_true rfl fun hstuck => hother ⟨hstuck.1, hstuck.2.1⟩

/-- The next walk over the menus finds the value, too. -/
theorem val_of_set_written (hv : st.valid s = true) (hstuck : ¬Stuck t.config st s newval)
    (hshown : (symCalcValue t.config s (writeStart t.config st')).visible s ≠ .no) :
    ((symCalcValue t.config s (writeStart t.config st')).curr s).val =
      .text (storedText (t.config.type s) newval) := by
  have hsane' : st'.Sane t.config := by
    have := (h.setString hs newval).sane ht hty hm
    rwa [hset] at this
  by_cases hcount : st'.changeCount = 0
  · have hstart : writeStart t.config st' = symClearAllValid t.config st' := if_pos hcount
    rw [hstart] at hshown ⊢
    obtain ⟨st₁, -, hold, -, -, hcall | ⟨hstored, huser, hcall⟩ | ⟨-, st₂, -, -, -, hcall⟩⟩ :=
      symSetStringValue_cases ht hty hm hs htext h newval
    · simp [hcall] at hset
    · obtain rfl : st' = st₁.setNew s false := congrArg Prod.snd (hset.symm.trans hcall)
      have hnew : (st₁.setNew s false).isNew s = false := Function.update_self ..
      rw [val_of_user ht hty hm hs htext hsane' hnew hshown, hstored, ← huser, ← hold]
      rfl
    · obtain rfl : st' = symClearAllValid t.config st₂ := congrArg Prod.snd (hset.symm.trans hcall)
      have hclear : (symClearAllValid t.config st₂).changeCount = st₂.changeCount + 1 :=
        (symCalcValue_keeps modulesSym _).changeCount
      omega
  · have hstart : writeStart t.config st' = st' := if_neg hcount
    rw [hstart] at hshown ⊢
    exact (val_of_set ht hty hm hs htext h hset hv hshown).mpr hstuck

end Calls

end Strings

theorem symbolLine_of_val {type : SymType} (h : type.isText = true) {name : Text}
    {v v' : SymbolValue} (hv : v.val = v'.val) : symbolLine type name v = symbolLine type name v' := by
  cases type <;> simp_all [symbolLine, SymType.isText]

/-- A string option that depends on a bool option. -/
def dependentTree : ParsedTree where
  block := boolOption ['A'] []
    (.config nameS false [.type .string (some (['s'], none)), .depends (.symbol (.config nameA))] .nil)
    nameA.free
  choices_nodup := by decide
  named := by decide

theorem dependentTree_regular : dependentTree.Regular :=
  ParsedTree.regular_of_symbols
    (fun s => if s.isStatic then 0 else if s = .config nameS then 2 else 1)
    (by decide) (by decide) (by decide) (by decide)

/-- The string, which is hidden, has been read from a file. -/
def readState : State :=
  match confRead dependentTree.config "S=\"a\"\n".toList .initial with
  | .ok st => st
  | .error _ => .initial

theorem readState_session : Session dependentTree True readState := by
  unfold readState
  cases hread : confRead dependentTree.config "S=\"a\"\n".toList .initial with
  | error e => exact .parsed
  | ok st => exact Session.parsed.read hread

/-- Then the bool option is set, and everything is evaluated. -/
def shownState : State :=
  let cfg := dependentTree.config
  calcAll cfg cfg.symbols (symSetTristateValue cfg (.config nameA) .yes readState).2

theorem shownState_session : Session dependentTree True shownState :=
  (readState_session.setTristate (by decide) .yes).calcAll _ fun _ => id

end Grasshopper.Kconfig
