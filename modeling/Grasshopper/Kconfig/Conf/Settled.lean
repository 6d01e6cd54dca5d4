import Grasshopper.Kconfig.Conf.Complete
import Grasshopper.Kconfig.Conf.Unchanged

/-! # A configuration without new options

After a file is read that answers every visible option, `conf` has nothing to ask for, and the file it
writes is the one that could have been written at once.
-/

namespace Grasshopper.Kconfig

/-! ## The texts of a file -/

/-- The value on a line is dropped, or it is that of its symbol. -/
theorem lineValue_cases {cfg : Config} {s : Sym} {value : Text} {D D' : UserData}
    (h : lineValue cfg s value D = .ok D') :
    D' = D ∨ ((cfg.type s).isText = false ∧ ∃ val, D' = (D.setTri s val).setNew s false) ∨
      ∃ v, D' = (D.setVal s (.text v)).setNew s false := by
  unfold lineValue at h
  cases hty : cfg.type s with
  | boolean | tristate =>
    simp only [hty] at h
    split at h
    · exact .inr (.inl ⟨rfl, _, (Except.ok.inj h).symm⟩)
    · exact .inl (Except.ok.inj h).symm
  | string =>
    simp only [hty] at h
    split at h
    · split at h
      · exact .inr (.inr ⟨_, (Except.ok.inj h).symm⟩)
      · simp at h
    · exact .inl (Except.ok.inj h).symm
  | int | hex =>
    simp only [hty] at h
    split_ifs at h
    exact .inr (.inr ⟨_, (Except.ok.inj h).symm⟩)
  | unknown =>
    simp only [hty] at h
    exact .inl (Except.ok.inj h).symm

/-- A string, int or hex symbol that is not new has a text. -/
def UserData.Worded (cfg : Config) (D : UserData) : Prop :=
  ∀ s, (cfg.type s).isText = true → D.isNew s = false → ∃ v, (D.user s).val = .text v

section Texts
variable {t : ParsedTree} {D D' : UserData} {s : Sym} (hchoices : t.SimpleChoices)

/-- The tristate of a symbol that has no text. -/
theorem UserData.Worded.setTri (h : D.Worded t.config) (hs : (t.config.type s).isText = false)
    (val : Tristate) (b : Bool) : ((D.setTri s val).setNew s b).Worded t.config := by
  intro u hu hnew
  have hne : u ≠ s := by
    rintro rfl
    rw [hs] at hu
    cases hu
  have hold : D.isNew u = false := by simpa [UserData.setTri, UserData.setNew, hne] using hnew
  obtain ⟨v, hv⟩ := h u hu hold
  exact ⟨v, by simpa [UserData.setTri, UserData.setNew, hne] using hv⟩

/-- The text of a symbol. -/
theorem UserData.Worded.setText (h : D.Worded t.config) (v : Text) (b : Bool) :
    ((D.setVal s (.text v)).setNew s b).Worded t.config := by
  intro u hu hnew
  by_cases hus : u = s
  · exact ⟨v, by simp [UserData.setVal, UserData.setNew, hus]⟩
  have hold : D.isNew u = false := by simpa [UserData.setVal, UserData.setNew, hus] using hnew
  obtain ⟨w, hw⟩ := h u hu hold
  exact ⟨w, by simpa [UserData.setVal, UserData.setNew, hus] using hw⟩

include hchoices

theorem readChoice_worded (h : D.Worded t.config) : (readChoice t.config s D).Worded t.config := by
  unfold readChoice
  by_cases hmember : t.config.isChoiceValue s = true
  · rw [if_pos hmember]
    cases hl : t.config.choiceOf s with
    | none => exact h
    | some c =>
      have hc : (t.config.type c).isText = false := by
        by_contra hne
        rw [Bool.not_eq_false] at hne
        have := (isChoice_of_choiceOf hl).1
        simp [hchoices.not_isChoice hne] at this
      dsimp only
      refine UserData.Worded.setTri ?_ hc _ _
      split_ifs
      · intro u hu hnew
        have hne : u ≠ c := by
          rintro rfl
          rw [hc] at hu
          cases hu
        obtain ⟨v, hv⟩ := h u hu hnew
        exact ⟨v, by simpa [UserData.setVal, hne] using hv⟩
      · exact h
  · rwa [if_neg hmember]

theorem readLine_worded (h : D.Worded t.config) {line : Text}
    (hD : readLine t.config D line = .ok D') : D'.Worded t.config := by
  unfold readLine at hD
  cases hp : parseLine (cString line) with
  | none =>
    simp only [hp] at hD
    exact Except.ok.inj hD ▸ h
  | some a =>
    cases a with
    | unset name =>
      simp only [hp] at hD
      cases hf : symFind t.config name with
      | none =>
        simp only [hf] at hD
        exact Except.ok.inj hD ▸ h
      | some s =>
        simp only [hf] at hD
        obtain rfl := Except.ok.inj hD
        refine readChoice_worded hchoices ?_
        split_ifs with hl
        · refine h.setTri ?_ _ _
          by_contra hne
          rw [Bool.not_eq_false] at hne
          simp [SymType.not_isLogic_of_isText hne] at hl
        · exact h
    | set name value =>
      simp only [hp] at hD
      cases hf : symFind t.config name with
      | none =>
        simp only [hf] at hD
        exact Except.ok.inj hD ▸ h
      | some s =>
        simp only [hf] at hD
        cases hv : lineValue t.config s value D with
        | error e => simp [hv, Except.map] at hD
        | ok D₁ =>
          simp only [hv, Except.map] at hD
          obtain rfl := Except.ok.inj hD
          refine readChoice_worded hchoices ?_
          rcases lineValue_cases hv with rfl | ⟨hs, val, rfl⟩ | ⟨v, rfl⟩
          · exact h
          · exact h.setTri hs _ _
          · exact h.setText _ _

theorem fileData_worded {file : Text} (hD : fileData t.config file = .ok D) : D.Worded t.config := by
  refine foldlM_keeps (fun _ _ _ h hl => readLine_worded hchoices h hl) (fun s hs hnew => ?_) hD
  have hty : t.config.type s ≠ .unknown := fun hu => by simp [hu, SymType.isText] at hs
  have hmem := ParsedTree.mem_symbols_of_typed (t.linked.typed s hty) hty
  simp [resetData, hmem] at hnew

end Texts

namespace Conf

open Program

/-! ## Answers in a file -/

/-- What is visible has a user value, and so has a choice that is not `n`. -/
structure Answered (cfg : Config) (st : State) : Prop where
  isNew : ∀ s ∈ cfg.symbols, st.visible s ≠ .no ∨ (s.isChoice = true ∧ (st.curr s).tri ≠ .no) →
    st.isNew s = false
  /-- The texts are as `sym_set_string_value` stores them. -/
  stored : ∀ s ∈ cfg.symbols, st.visible s ≠ .no → ∀ v, (st.user s).val = .text v →
    storedText (cfg.type s) v = v

theorem visibleTri_ne_no {cfg : Config} {D : UserData} {ρ : Sym → SymbolValue} {s : Sym} {p : Property}
    (hp : p ∈ cfg.prompts s) (h : conditionTri cfg ρ p ≠ .no) : visibleTri cfg D ρ s ≠ .no := by
  have hle := le_maxValue (List.mem_map.mpr ⟨p, hp, rfl⟩ :
    conditionTri cfg ρ p ∈ (cfg.prompts s).map (conditionTri cfg ρ))
  unfold visibleTri
  dsimp only
  split_ifs
  · simp
  · exact fun hno => h ((Tristate.le_no_iff _).mp (hno ▸ hle))

section Read
variable {t : ParsedTree} {D : UserData} {ρ : Sym → SymbolValue} {st : State} (ht : t.Regular)
  (hm : t.config.type modulesSym = .unknown) (hchoices : t.SimpleChoices)
  (h : Loaded t.config D ρ .initial st) (hD : D.Sane t.config)
  (hρ : Dependency.Solution (currOf t.config D) ρ)
include ht hm hchoices h hD hρ

theorem Explicit.of_loaded (hworded : D.Worded t.config) (hanswered : Answered t.config st) :
    Explicit t st := by
  have htracks := h.tracks ht hD hρ
  have hvisible (s : Sym) := h.visible (State.initial_sane t.config) ht.typed hD s
  have hmem {s : Sym} (hty : t.config.type s ≠ .unknown) : s ∈ t.config.symbols :=
    ParsedTree.mem_symbols_of_typed (t.linked.typed s hty) hty
  have hcurr {s : Sym} (hs : s ∈ t.config.symbols) : st.curr s = ρ s :=
    h.settled.good.curr (h.settled.valid s hs) (Set.notMem_empty s)
  have hknown {s : Sym} (hty : t.config.type s ≠ .unknown) :=
    (h.settled.good.done s (h.settled.valid s (hmem hty)) (Set.notMem_empty s)).known hty
  refine ⟨h.evaluated ht.typed hD, fun s hs => ?_, fun s hty hseen => ?_, fun c hin hc hyes => ?_⟩
  · rw [symIsChangable, decide_eq_true_eq] at hs
    have hv : st.visible s ≠ .no := fun hno => absurd (hno ▸ hs) (Tristate.no_le _).not_gt
    refine hanswered.isNew s (hmem fun hty => hv ?_) (.inl hv)
    rw [hvisible, if_pos hty]
  · have htyped : t.config.type s ≠ .unknown := fun hu => by simp [hu, SymType.isText] at hty
    have hl := SymType.not_isLogic_of_isText hty
    have hin := hmem htyped
    have hval : ρ s = ⟨textVal t.config D ρ s, .no⟩ := by
      rw [hρ s, currOf_dynamic (t.symbols_not_static s hin) htyped, if_neg (by simp [hl])]
    have hv : visibleTri t.config D ρ s ≠ .no := by
      rcases hseen with ⟨p, hp, hprompt⟩ | hon
      · exact visibleTri_ne_no hp ((hknown htyped).prompts p hp ▸ hprompt)
      · rw [hcurr hin, hval] at hon
        exact absurd rfl hon
    have hv' : st.visible s ≠ .no := by rwa [hvisible, if_neg htyped]
    have hmember : t.config.isChoiceValue s = false := by
      by_contra hne
      rw [Bool.not_eq_false] at hne
      rw [(hchoices.member s hne).1] at hl
      cases hl
    have hkept : keptNew t.config D ρ s = false := by
      have hnew := h.isNew.symbol s hin
      rw [hanswered.isNew s hin (.inl hv'), eq_comm, Bool.or_eq_false_iff] at hnew
      exact hnew.1
    simp only [keptNew, hmember, hty, shown, Bool.or_eq_false_iff] at hkept
    obtain ⟨v, hword⟩ := hworded s hty hkept.1
    have huser : (st.user s).val = .text v := by rw [h.user, hword]
    have hrange := (symStringWithinRange_reads (htracks.semantics ht.toTidy hm) hty
      (t.ranges_inTable s) v htracks.good).2
    refine ⟨v, huser, ?_, hanswered.stored s hin hv' v huser, ?_⟩
    · rw [hcurr hin, hval, ← hword]
      exact if_pos (by simp [hv, hkept.1])
    · rw [hrange]
      have hin' : inRange t.config ρ s (D.user s).val.toText = true := by simp_all
      rwa [hword] at hin'
  · have hon : (ρ c).tri ≠ .no := by
      rw [← hcurr hin, hyes]
      simp
    obtain ⟨m, -, hsel, hof, hv⟩ := hchoices.exists_selected hρ ht htracks.modulesVal
      htracks.own.candidates hc hon
    obtain ⟨hmyes, -⟩ := hchoices.member_of_selected hρ htracks.modulesVal hof hsel hv
    have hmin : m ∈ t.config.symbols :=
      t.mem_symbols_of_member (t.linked.link m c (isChoice_of_choiceOf hof).2.2).2.1
    have hl := (hchoices.member m (by simp [Config.isChoiceValue, (isChoice_of_choiceOf hof).2.2])).1
    have htyped : t.config.type m ≠ .unknown := fun hu => by simp [hu, SymType.isLogic] at hl
    obtain ⟨p, hp, hcond⟩ := exists_prompt_of_visible hv
    refine ⟨hanswered.isNew c hin (.inr ⟨hc, by simp [hyes]⟩), m, ?_, hof, ?_, p, hp, ?_⟩
    · rw [hcurr hin, hsel]
    · rw [hcurr hmin, hmyes]
    · rwa [(hknown htyped).prompts p hp]

end Read

/-! ## The file that is written -/

section Write
variable {t : ParsedTree} {st st' : State}

/-- The walk over computed symbols changes no value. -/
theorem writeLines_curr (h : st.Evaluated t) (es : List Entry) (hes : ∀ e ∈ es, e.Fits t.config) :
    (writeLines t.config es st).2.curr = st.curr := by
  induction es generalizing st with
  | nil => rfl
  | cons e es ih =>
    rw [List.forall_mem_cons] at hes
    change (writeLines t.config es (writeEntry t.config e st).2).2.curr = st.curr
    rw [writeEntry_evaluated h hes.1]
    cases e.sym with
    | none => exact ih h hes.2
    | some s =>
      dsimp only
      split_ifs
      · exact ih h hes.2
      · have hwrite : (st.setWrite s false).Evaluated t := h
        exact ih hwrite hes.2

/-- User values are not written. -/
theorem confWrite_held (h : st.Evaluated t) (hcount : st.changeCount ≠ 0) (hheld : Held t st st') :
    (confWrite t.config st').1 = (confWrite t.config st).1 := by
  have htext {st' : State} (h : st'.Evaluated t) (hcount : st'.changeCount ≠ 0) :
      (confWrite t.config st').1 = fileHeader ++ (List.zipWith (entryText t.config st'.curr)
        t.config.menus.preorder (symbolEntries t.config t.config.menus.preorder st')).flatten := by
    have hstart : writeStart t.config st' = st' := if_neg hcount
    rw [confWrite_text, hstart, writeLines_text (List.ne_nil_of_mem t.modulesSym_mem) _ fun a _ => ?_]
    rw [writeLines_curr h _ t.entry_fits]
  obtain ⟨X, rfl⟩ := hheld.same
  have h' : (st.withData X).Evaluated t := h
  rw [htext h hcount, htext h' hcount,
    symbolEntries_evaluated h' h rfl t.config.menus.preorder t.entry_fits]
  rfl

end Write

/-- On a file that answers every visible option, `conf -o`, `conf -s`, `conf -d` and `conf -D` come to
an end without reading an answer, and what is written then is what could have been written at once. -/
theorem configure_settled {t : ParsedTree} (ht : t.Regular)
    (hm : t.config.type modulesSym = .unknown) (hchoices : t.SimpleChoices)
    (hhold : ChoicesHold t.config t.config.menus) {file : Text} {w : World}
    (hread : confRead t.config file .initial = .ok w.st) (hanswered : Answered t.config w.st)
    (hmode : w.inputMode = .askNew ∨ w.inputMode = .askSilent ∨ w.inputMode = .setDefault) :
    ∃ w', Returns (configure t.config) w () w' ∧ w'.stdin = w.stdin ∧
      (confWrite t.config w'.st).1 = (confWrite t.config w.st).1 := by
  cases hD : fileData t.config file with
  | error e =>
    rw [confRead_error (State.initial_sane t.config) hD] at hread
    cases hread
  | ok D =>
    have hDsane := fileData_sane hD
    obtain ⟨ρ, hρ⟩ := ht.exists_solution hDsane.own.candidates
    obtain ⟨st, hread', hl⟩ := ht.toTidy.confRead ht.typed hm (State.initial_sane t.config) hD hρ
    obtain rfl : st = w.st := Except.ok.inj (hread'.symm.trans hread)
    have hexplicit := Explicit.of_loaded ht hm hchoices hl hDsane hρ (fileData_worded hchoices hD) hanswered
    have hroot : ChoicesHold t.config (rootMenu t.config) := ⟨fun _ hs => (nomatch hs), hhold, trivial⟩
    obtain ⟨⟨⟩, w', hrun, hheld, hstdin⟩ := configure_halts hexplicit hchoices hroot rfl hmode
    have hcount : w.st.changeCount ≠ 0 := by simp [hl.changeCount]
    exact ⟨w', hrun, hstdin, confWrite_held hexplicit.evaluated hcount hheld⟩

/-! ## A complete file -/

/-- A file that answers everything, with a comment that is not written. -/
def completeFile : Text := "S=\"a\"\n# A is not set\nB=y\n# end\n".toList

/-- What `conf_read` makes of it. -/
def readComplete : State :=
  match confRead savedTree.config completeFile .initial with
  | .ok st => st
  | .error _ => .initial

theorem confRead_readComplete : confRead savedTree.config completeFile .initial = .ok readComplete := by
  have hrun : (match confRead savedTree.config completeFile .initial with
      | .ok _ => true
      | .error _ => false) = true := by
    decide +kernel
  unfold readComplete
  cases hread : confRead savedTree.config completeFile .initial with
  | error e => simp [hread] at hrun
  | ok st => rfl

theorem readComplete_answered : Answered savedTree.config readComplete where
  isNew := by decide +kernel
  stored := by
    have hplain : ∀ s ∈ savedTree.config.symbols, savedTree.config.type s ≠ .hex := by decide +kernel
    exact fun s hs _ v _ => if_neg (hplain s hs)

/-- The string and the choice are set again. -/
theorem configure_settled_savedTree : (readComplete.curr (.config nameB)).tri = .yes ∧
    ∃ w', Returns (configure savedTree.config) (.start .askNew [] readComplete) () w' ∧
      w'.stdin = [] ∧
      (confWrite savedTree.config w'.st).1 = (confWrite savedTree.config readComplete).1 :=
  ⟨by decide +kernel, configure_settled savedTree_regular (by decide)
    (ParsedTree.simpleChoices_of_symbols (by decide)) (by decide)
    confRead_readComplete readComplete_answered (.inl rfl)⟩

end Conf

end Grasshopper.Kconfig
