import Grasshopper.Kconfig.Confdata.Lines
import Grasshopper.Kconfig.Confdata.Choice

/-! # What a saved file says

Every visible symbol has a line in the file, and reading the file gives each symbol with a line the
value that was computed for it.
-/

namespace Grasshopper.Kconfig

/-! ## The symbols with a line -/

/-- The symbols of the entries that have a line. -/
def writtenSymbols (es : List Entry) (flags : List Bool) : List Sym :=
  (es.zip flags).filterMap fun x => if x.2 then x.1.sym else none

@[simp] theorem writtenSymbols_nil (flags : List Bool) : writtenSymbols [] flags = [] := rfl

theorem writtenSymbols_cons (e : Entry) (es : List Entry) (b : Bool) (flags : List Bool) :
    writtenSymbols (e :: es) (b :: flags) =
      (if b then e.sym else none).toList ++ writtenSymbols es flags := by
  unfold writtenSymbols
  rw [List.zip_cons_cons, List.filterMap_cons]
  cases (if b = true then e.sym else none) <;> rfl

/-- The values of some symbols are read from their lines. -/
def applyLines (cfg : Config) (ρ : Sym → SymbolValue) (ss : List Sym) (D : UserData) : UserData :=
  ss.foldl (fun D s => lineData cfg ρ s D) D

section Read
variable {cfg : Config} {σ : Sym → SymbolValue}

theorem entryText_readsAs {e : Entry} {b : Bool}
    (htitle : e.sym = none → ∀ p ∈ e.prompt, SilentTitle (p.text.getD []))
    (hread : ∀ s ∈ (if b then e.sym else none), Readable cfg s (σ s)) :
    ReadsAs cfg (entryText cfg σ e b) (applyLines cfg σ (if b then e.sym else none).toList) := by
  unfold entryText
  cases hs : e.sym with
  | none =>
    have hnil : (if b = true then (none : Option Sym) else none) = none := by cases b <;> rfl
    rw [hnil]
    cases hp : e.prompt with
    | none => exact .nil
    | some p =>
      dsimp only
      split_ifs
      · exact (htitle hs p hp).readsAs
      · exact .nil
  | some s =>
    rw [hs] at hread
    cases b with
    | false => exact .nil
    | true => exact (hread s rfl).readsAs

/-- All lines of a walk over the menus are read. -/
theorem entryTexts_readsAs (es : List Entry) (flags : List Bool) (hlen : es.length = flags.length)
    (htitle : ∀ e ∈ es, e.sym = none → ∀ p ∈ e.prompt, SilentTitle (p.text.getD []))
    (hread : ∀ s ∈ writtenSymbols es flags, Readable cfg s (σ s)) :
    ReadsAs cfg (List.zipWith (entryText cfg σ) es flags).flatten
      (applyLines cfg σ (writtenSymbols es flags)) := by
  induction es generalizing flags with
  | nil => exact .nil
  | cons e es ih =>
    cases flags with
    | nil => simp at hlen
    | cons b flags =>
      rw [List.forall_mem_cons] at htitle
      rw [writtenSymbols_cons, List.forall_mem_append] at hread
      rw [writtenSymbols_cons, List.zipWith_cons_cons, List.flatten_cons]
      have hfirst : ReadsAs cfg (entryText cfg σ e b)
          (applyLines cfg σ (if b then e.sym else none).toList) :=
        entryText_readsAs htitle.1 fun s hs => hread.1 s (Option.mem_toList.mpr hs)
      have hrest := ih flags (Nat.succ.inj hlen) htitle.2 hread.2
      have happly : applyLines cfg σ ((if b then e.sym else none).toList ++ writtenSymbols es flags) =
          applyLines cfg σ (writtenSymbols es flags) ∘
            applyLines cfg σ (if b then e.sym else none).toList := by
        ext1 D
        exact List.foldl_append
      rw [happly]
      exact hfirst.append hrest

end Read

/-! ## The walk over the menus -/

/-- A visible symbol has an entry. -/
theorem ParsedTree.exists_entry_of_visible (t : ParsedTree) {D : UserData} {ρ : Sym → SymbolValue}
    {s : Sym} (hv : visibleTri t.config D ρ s ≠ .no) :
    ∃ e ∈ t.config.menus.preorder, e.sym = some s := by
  obtain ⟨p, hp, -⟩ := exists_prompt_of_visible hv
  obtain ⟨hp, htext⟩ := List.mem_filter.mp hp
  change p ∈ t.props s at hp
  have hinit {sym : Sym} {value : Option Text} (h : p ∈ initDefault sym value) : False := by
    simp [(initDefault_facts h).2.1] at htext
  simp only [props, List.mem_append, List.mem_flatMap, List.mem_filter, decide_eq_true_eq] at hp
  rcases hp with (hp | hp) | ⟨e, ⟨he, hs⟩, -⟩
  · split_ifs at hp
    · exact (hinit hp).elim
    · simp at hp
  · split_ifs at hp
    · exact (hinit hp).elim
    · simp at hp
  · exact ⟨e, he, hs⟩

section Walk
variable {t : ParsedTree} {D : UserData} {ρ : Sym → SymbolValue} {W : Set Sym} {st : State} {s : Sym}
  (ht : t.Regular) (hm : t.config.type modulesSym = .unknown)

theorem ParsedTree.Regular.flat {t : ParsedTree} (ht : t.Regular) : t.config.FlatChoices := by
  intro s hs
  cases s with
  | choice k => simp [Config.isChoiceValue, ht.single k]
  | _ => simp [Sym.isChoice] at hs

/-- A choice that is not `n` is present. -/
theorem Present.of_choice (hmod : D.modulesVal = .no)
    (hρ : Dependency.Solution (currOf t.config D) ρ) {c : Sym} (hc : c.isChoice = true)
    (hon : (ρ c).tri ≠ .no) : Present t.config D ρ c := by
  obtain ⟨hl, hnew, -⟩ := newTri_of_choice hmod hρ hc hon
  by_contra hno
  unfold Present at hno
  push Not at hno
  have hlogic : logicTri t.config D ρ c = .no := by
    rw [logicTri_hidden (by rw [hno.1, hno.2 hl]; rfl), if_pos hc]
  rw [newTri, hlogic] at hnew
  simp at hnew

include ht

/-- A visible symbol that is computed has `SYMBOL_WRITE` until it is taken. -/
theorem State.Flags.write_of_shown (hf : st.Flags t.config D ρ W) (h : st.Tracks t D ρ)
    (hs : st.valid s = true) (hc : s.isChoice = false) (hty : t.config.type s ≠ .unknown)
    (hv : visibleTri t.config D ρ s ≠ .no) (hW : s ∉ W) : st.write s = true := by
  by_cases hmember : (t.config.type s).isLogic = true → t.config.isChoiceValue s = false
  · exact hf s hty hmember hs (.inl hv) s hW (.inl rfl)
  -- a member has it from its choice, which was computed before it
  rw [Classical.not_imp, Bool.not_eq_false] at hmember
  obtain ⟨c, hlink⟩ := Option.isSome_iff_exists.mp hmember.2
  have hchoice : t.config.choiceOf s = some c := by simp [Config.choiceOf, hc, hlink]
  obtain ⟨hcc, hcs, -⟩ := t.linked.link s c hlink
  have hon := ht.toTidy.choice_on h.solution hlink hv
  have hreads := ht.toTidy.reads h.solution hchoice (visibleTri_yes h.modulesVal hv)
  have hknown := (h.good.done s hs (Set.notMem_empty s)).known hty
  obtain ⟨hl, -, -⟩ := newTri_of_choice h.modulesVal h.solution hcc hon
  exact hf c (fun hu => by simp [hu, SymType.isLogic] at hl) (fun _ => ht.flat c hcc)
    (hknown.closed c hreads).1 (.of_choice h.modulesVal h.solution hcc hon) s hW (.inr ⟨hcc, hcs⟩)

include hm

/-- A round of the walk takes `SYMBOL_WRITE` from the symbol of its entry alone. -/
theorem State.Flags.writeEntry (hf : st.Flags t.config D ρ W) (h : st.Tracks t D ρ) {e : Entry}
    (he : e.Fits t.config) :
    (writeEntry t.config e st).2.Flags t.config D ρ (W ∪ {s | e.sym = some s}) := by
  have hext {W' : Set Sym} {st₁ st₂ : State} {xs : List Sym} (hf : st₁.Flags t.config D ρ W')
      (hr : Reads t.config D ρ ∅ st₁ xs st₂) : st₂.Flags t.config D ρ W' :=
    hf.of_ext ht.flat t.isChoiceValue_of_member hr.ext
  obtain ⟨xs, st', hreads, hlast | ⟨s, ys, hs, -, hagain⟩⟩ :=
    writeEntry_reads ht.toTidy ht.typed hm h he
  · rw [hlast]
    exact (hext hf hreads).mono Set.subset_union_left
  · refine (hext ((hext hf hreads).setWrite s) hagain).mono ?_
    rintro u (rfl | hu)
    · exact .inr hs
    · exact .inl hu

/-- Every visible symbol with an entry has a line. -/
theorem mem_writtenSymbols_of_shown (hf : st.Flags t.config D ρ W) (h : st.Tracks t D ρ)
    (es : List Entry) (hes : ∀ e ∈ es, e.Fits t.config) (hs : ∃ e ∈ es, e.sym = some s)
    (hc : s.isChoice = false) (hty : t.config.type s ≠ .unknown)
    (hv : visibleTri t.config D ρ s ≠ .no) (hW : s ∉ W) :
    s ∈ writtenSymbols es (symbolEntries t.config es st) := by
  induction es generalizing st W with
  | nil => simp at hs
  | cons e es ih =>
    rw [List.forall_mem_cons] at hes
    rw [symbolEntries, writtenSymbols_cons, List.mem_append, Option.mem_toList]
    by_cases hes' : e.sym = some s
    · left
      have hreads := h.evaluate_reads ht.toTidy hm (hes.1.sym s hes')
      have hwrite := (hf.of_ext ht.flat t.isChoiceValue_of_member hreads.ext).write_of_shown ht
        (h.reads ht.typed hreads) (hreads.computed s (List.mem_singleton_self s)) hc hty hv hW
      simp [writesSymbol, hes', hc, hty, hwrite]
    · right
      refine ih (hf.writeEntry ht hm h hes.1) (writeEntry_tracks ht.toTidy ht.typed hm h hes.1) hes.2
        ?_ ?_
      · rwa [List.exists_mem_cons_iff, or_iff_right hes'] at hs
      · simp [hW, hes']

omit ht hm in
/-- No choice has a line. -/
theorem not_isChoice_of_written {cfg : Config} (es : List Entry) :
    ∀ u ∈ writtenSymbols es (symbolEntries cfg es st), u.isChoice = false := by
  induction es generalizing st with
  | nil => simp
  | cons e es ih =>
    rw [symbolEntries, writtenSymbols_cons, List.forall_mem_append]
    refine ⟨fun u hu => ?_, ih⟩
    rw [Option.mem_toList, Option.ite_none_right_eq_some] at hu
    have hw := hu.1
    simp only [writesSymbol, hu.2, Bool.and_eq_true, Bool.not_eq_true'] at hw
    exact hw.1.1

end Walk

/-! ## The user values after the lines -/

section Applied
variable {t : ParsedTree} {ρ : Sym → SymbolValue} {s u c : Sym} {D : UserData}

theorem applyLines_append (cfg : Config) (ss : List Sym) (s : Sym) :
    applyLines cfg ρ (ss ++ [s]) D = lineData cfg ρ s (applyLines cfg ρ ss D) := by
  simp [applyLines]

theorem ownLine_of_ne {cfg : Config} (hne : u ≠ s) :
    (ownLine cfg ρ s D).user u = D.user u ∧ (ownLine cfg ρ s D).isNew u = D.isNew u := by
  unfold ownLine
  split_ifs <;> simp [UserData.setTri, UserData.setVal, UserData.setNew, hne]

theorem ownLine_self {cfg : Config} :
    (ownLine cfg ρ s D).user s =
        (if (cfg.type s).isLogic then ⟨(D.user s).val, (ρ s).tri⟩
        else ⟨.text (ρ s).val.toText, (D.user s).tri⟩) ∧
      (ownLine cfg ρ s D).isNew s = false := by
  unfold ownLine
  split_ifs <;> simp [UserData.setTri, UserData.setVal, UserData.setNew]

theorem readChoice_of_ne {cfg : Config} (hne : cfg.choiceOf s ≠ some u) :
    (readChoice cfg s D).user u = D.user u ∧ (readChoice cfg s D).isNew u = D.isNew u := by
  unfold readChoice
  by_cases hm : cfg.isChoiceValue s = true
  · rw [if_pos hm]
    cases hc : cfg.choiceOf s with
    | none => exact ⟨rfl, rfl⟩
    | some c =>
      have huc : u ≠ c := by
        rintro rfl
        exact hne hc
      dsimp only
      split_ifs <;> simp [UserData.setTri, UserData.setVal, UserData.setNew, huc]
  · rw [if_neg hm]
    exact ⟨rfl, rfl⟩

theorem readChoice_self {cfg : Config} (hm : cfg.isChoiceValue s = true)
    (hc : cfg.choiceOf s = some c) (hsc : s ≠ c) :
    (readChoice cfg s D).user c =
        ⟨if (D.user s).tri = .yes then .sym s else (D.user c).val,
          max (D.user c).tri (D.user s).tri⟩ ∧
      (readChoice cfg s D).isNew c = false := by
  unfold readChoice
  rw [if_pos hm, hc]
  dsimp only
  split_ifs <;> simp [UserData.setTri, UserData.setVal, UserData.setNew, hsc]

/-- The line of a symbol that is no choice gives it its value. -/
theorem lineData_self (hs : s.isChoice = false) :
    (lineData t.config ρ s D).user s =
        (if (t.config.type s).isLogic then ⟨(D.user s).val, (ρ s).tri⟩
        else ⟨.text (ρ s).val.toText, (D.user s).tri⟩) ∧
      (lineData t.config ρ s D).isNew s = false := by
  have hne : t.config.choiceOf s ≠ some s := fun h => by
    simp [(isChoice_of_choiceOf h).1] at hs
  rw [lineData, (readChoice_of_ne hne).1, (readChoice_of_ne hne).2]
  exact ownLine_self

/-- It changes nothing else but the choice of a member. -/
theorem lineData_of_ne (hne : u ≠ s) (hc : t.config.choiceOf s ≠ some u) :
    (lineData t.config ρ s D).user u = D.user u ∧ (lineData t.config ρ s D).isNew u = D.isNew u := by
  rw [lineData, (readChoice_of_ne hc).1, (readChoice_of_ne hc).2]
  exact ownLine_of_ne hne

/-- The line of a bool or tristate member is also about its choice. -/
theorem lineData_choice (hc : t.config.choiceOf s = some c)
    (hl : (t.config.type s).isLogic = true) :
    (lineData t.config ρ s D).user c =
        ⟨if (ρ s).tri = .yes then .sym s else (D.user c).val, max (D.user c).tri (ρ s).tri⟩ ∧
      (lineData t.config ρ s D).isNew c = false := by
  obtain ⟨hchoice, hs, hlink⟩ := isChoice_of_choiceOf hc
  have hne : c ≠ s := by
    rintro rfl
    simp [hs] at hchoice
  have hread := readChoice_self (D := ownLine t.config ρ s D)
    (show t.config.isChoiceValue s = true by simp [Config.isChoiceValue, hlink]) hc hne.symm
  rw [ownLine_self.1, if_pos hl, (ownLine_of_ne hne).1] at hread
  exact hread

section Lines
variable {ss : List Sym} (hss : ∀ s ∈ ss, s.isChoice = false)

/-- A symbol with a line has its value from it. -/
theorem applyLines_self (hs : s ∈ ss) (hc : s.isChoice = false) :
    (applyLines t.config ρ ss D).isNew s = false ∧
      ((t.config.type s).isLogic = true →
        ((applyLines t.config ρ ss D).user s).tri = (ρ s).tri) ∧
      ((t.config.type s).isLogic = false →
        ((applyLines t.config ρ ss D).user s).val = .text (ρ s).val.toText) := by
  induction ss using List.reverseRecOn with
  | nil => simp at hs
  | append_singleton ss x ih =>
    rw [applyLines_append]
    by_cases hsx : s = x
    · subst hsx
      obtain ⟨huser, hnew⟩ := lineData_self (t := t) (ρ := ρ) (D := applyLines t.config ρ ss D) hc
      rw [huser, hnew]
      exact ⟨rfl, fun hl => by simp [hl], fun hl => by simp [hl]⟩
    · have hin : s ∈ ss := by simpa [hsx] using hs
      have hne : t.config.choiceOf x ≠ some s := fun h => by
        simp [(isChoice_of_choiceOf h).1] at hc
      obtain ⟨huser, hnew⟩ := lineData_of_ne (ρ := ρ) (D := applyLines t.config ρ ss D) hsx hne
      rw [huser, hnew]
      exact ih hin

variable (hlogic : ∀ m, t.config.isChoiceValue m = true → (t.config.type m).isLogic = true)

include hss hlogic

/-- A choice whose members have no line with `y` is `n`. -/
theorem applyLines_choice_no (hc : c.isChoice = true)
    (hno : ∀ m ∈ ss, t.config.choiceOf m = some c → (ρ m).tri = .no) (hD : D.user c = ⟨.null, .no⟩) :
    (applyLines t.config ρ ss D).user c = ⟨.null, .no⟩ := by
  induction ss using List.reverseRecOn with
  | nil => exact hD
  | append_singleton ss x ih =>
    rw [List.forall_mem_append, List.forall_mem_singleton] at hss hno
    rw [applyLines_append]
    have hbefore := ih hss.1 hno.1
    by_cases hx : t.config.choiceOf x = some c
    · have hl := hlogic x (by simp [Config.isChoiceValue, (isChoice_of_choiceOf hx).2.2])
      rw [(lineData_choice hx hl).1, hbefore, hno.2 hx]
      rfl
    · have hcx : c ≠ x := by
        rintro rfl
        simp [hss.2] at hc
      rw [(lineData_of_ne hcx hx).1, hbefore]

/-- A choice is `y` and remembers the member whose line is the only one with `y`. -/
theorem applyLines_choice_yes (hc : c.isChoice = true) {m : Sym} (hm : m ∈ ss)
    (hmc : t.config.choiceOf m = some c) (hyes : (ρ m).tri = .yes)
    (hno : ∀ x ∈ ss, t.config.choiceOf x = some c → x ≠ m → (ρ x).tri = .no) :
    (applyLines t.config ρ ss D).user c = ⟨.sym m, .yes⟩ ∧
      (applyLines t.config ρ ss D).isNew c = false := by
  induction ss using List.reverseRecOn with
  | nil => simp at hm
  | append_singleton ss x ih =>
    rw [List.forall_mem_append, List.forall_mem_singleton] at hss hno
    rw [applyLines_append]
    by_cases hx : t.config.choiceOf x = some c
    · have hl := hlogic x (by simp [Config.isChoiceValue, (isChoice_of_choiceOf hx).2.2])
      obtain ⟨huser, hnew⟩ := lineData_choice (ρ := ρ) (D := applyLines t.config ρ ss D) hx hl
      refine ⟨?_, hnew⟩
      rw [huser]
      by_cases hxm : x = m
      · simp [hxm, hyes]
      · have hin : m ∈ ss := by simpa [Ne.symm hxm] using hm
        rw [(ih hss.1 hin hno.1).1, hno.2 hx hxm]
        rfl
    · have hxm : m ≠ x := by
        rintro rfl
        exact hx hmc
      have hcx : c ≠ x := by
        rintro rfl
        simp [hss.2] at hc
      have hin : m ∈ ss := by simpa [hxm] using hm
      rw [(lineData_of_ne hcx hx).1, (lineData_of_ne hcx hx).2]
      exact ih hss.1 hin hno.1

end Lines

end Applied

/-! ## The whole file -/

theorem length_symbolEntries (cfg : Config) (es : List Entry) (st : State) :
    (symbolEntries cfg es st).length = es.length := by
  induction es generalizing st with
  | nil => rfl
  | cons e es ih => simp [symbolEntries, ih]

theorem confWrite_text (cfg : Config) (st : State) : (confWrite cfg st).1 =
    fileHeader ++ (writeLines cfg cfg.menus.preorder (writeStart cfg st)).1.flatten := by
  simp only [confWrite, writeEntries_eq_flatten]
  rfl

/-- What `conf_write` prints is read back as the values of the symbols that have a line. -/
theorem fileData_written {t : ParsedTree} {D : UserData} {ρ : Sym → SymbolValue} {st : State}
    (ht : t.Regular) (hm : t.config.type modulesSym = .unknown) (h : st.Tracks t D ρ)
    (es : List Entry) (hes : ∀ e ∈ es, e.Fits t.config)
    (htitle : ∀ e ∈ es, e.sym = none → ∀ p ∈ e.prompt, SilentTitle (p.text.getD []))
    (hread : ∀ s ∈ writtenSymbols es (symbolEntries t.config es st), Readable t.config s (ρ s)) :
    fileData t.config (fileHeader ++ (writeLines t.config es st).1.flatten) =
      .ok (applyLines t.config ρ (writtenSymbols es (symbolEntries t.config es st))
        (resetData t.config State.initial.data)) := by
  have hlast := writeLines_tracks ht.toTidy ht.typed hm h es hes
  have htext := writeLines_text (List.ne_nil_of_mem t.modulesSym_mem) (σ := ρ) es
    fun a ha => (hlast.good.curr ha (Set.notMem_empty a)).symm
  have hfile := fileHeader_readsAs.append
    (entryTexts_readsAs (σ := ρ) es (symbolEntries t.config es st)
      (length_symbolEntries t.config es st).symm htitle hread)
  rw [htext]
  exact (congrArg (fun text => readText t.config text (resetData t.config State.initial.data))
    (List.append_nil _).symm).trans (hfile [] _)

end Grasshopper.Kconfig
