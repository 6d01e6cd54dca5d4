import Grasshopper.Kconfig.Confdata.Saved

/-! # Saving and loading

The file that `conf_write` prints for a computed state brings `conf_read` to the same values, in a
program that has just parsed the tree or in any other session.
-/

namespace Grasshopper.Kconfig

/-! ## Values that no expression tells apart -/

/-- Two assignments have the same tristates, the same strings, and the same members selected. -/
structure Alike (cfg : Config) (ρ ρ' : Sym → SymbolValue) : Prop where
  tri : ∀ x, (ρ x).tri = (ρ' x).tri
  string : ∀ x, symGetStringValue cfg.type ρ x = symGetStringValue cfg.type ρ' x
  text : ∀ x, x.isChoice = false → (ρ x).val.toText = (ρ' x).val.toText
  member : ∀ c m, c.isChoice = true → ((ρ c).val = .sym m ↔ (ρ' c).val = .sym m)

namespace Alike
variable {cfg : Config} {D : UserData} {ρ ρ' : Sym → SymbolValue} (h : Alike cfg ρ ρ')
include h

theorem value (e : Expr) : e.value cfg.type ρ = e.value cfg.type ρ' :=
  e.value_congr_strings (fun x _ => h.tri x) fun x _ => h.string x

theorem conditionTri (p : Property) : conditionTri cfg ρ p = Kconfig.conditionTri cfg ρ' p := by
  unfold Kconfig.conditionTri
  cases p.visible with
  | none => rfl
  | some e => exact h.value e

theorem visibleTri (s : Sym) : visibleTri cfg D ρ s = Kconfig.visibleTri cfg D ρ' s := by
  simp only [Kconfig.visibleTri, funext h.conditionTri]

theorem knownType (s : Sym) : knownType cfg D ρ s = Kconfig.knownType cfg D ρ' s := by
  rw [Kconfig.knownType, Kconfig.knownType, h.visibleTri]

theorem reverseTri (s : Sym) : reverseTri cfg D ρ s = Kconfig.reverseTri cfg D ρ' s := by
  have hrev : revValue cfg.type ρ (cfg.revDep s) = revValue cfg.type ρ' (cfg.revDep s) := by
    cases cfg.revDep s with
    | none => rfl
    | some e => exact h.value e
  simp only [Kconfig.reverseTri, hrev, h.knownType]

theorem activeDefault (s : Sym) : activeDefault cfg ρ s = Kconfig.activeDefault cfg ρ' s := by
  simp only [Kconfig.activeDefault, h.conditionTri]

theorem defaultValue (p : Option Property) : defaultValue cfg ρ p = Kconfig.defaultValue cfg ρ' p := by
  cases p with
  | none => rfl
  | some p =>
    unfold Kconfig.defaultValue
    dsimp only
    split
    · exact h.value _
    · rfl

theorem selecting (s : Sym) : Alike cfg (selecting ρ s) (Kconfig.selecting ρ' s) := by
  have hself : Kconfig.selecting ρ s s = Kconfig.selecting ρ' s s := by simp [Kconfig.selecting]
  have hother {x : Sym} (hx : x ≠ s) :
      Kconfig.selecting ρ s x = ρ x ∧ Kconfig.selecting ρ' s x = ρ' x := by
    simp [Kconfig.selecting, hx]
  constructor
  · intro x
    by_cases hx : x = s
    · rw [hx, hself]
    · rw [(hother hx).1, (hother hx).2, h.tri]
  · intro x
    by_cases hx : x = s
    · rw [hx, symGetStringValue, symGetStringValue, hself]
    · have hstring := h.string x
      rw [symGetStringValue, symGetStringValue] at hstring ⊢
      rw [(hother hx).1, (hother hx).2, hstring]
  · intro x hc
    by_cases hx : x = s
    · rw [hx, hself]
    · rw [(hother hx).1, (hother hx).2, h.text x hc]
  · intro c m hc
    by_cases hx : c = s
    · rw [hx, hself]
    · rw [(hother hx).1, (hother hx).2, h.member c m hc]

theorem selected (s : Sym) : selected cfg D ρ s = Kconfig.selected cfg D ρ' s := by
  have hsel := h.selecting s
  simp only [Kconfig.selected, preferred, hsel.conditionTri, hsel.visibleTri]

theorem newTri {s : Sym} (hlink : ∀ c, cfg.choiceOf s = some c → c.isChoice = true) :
    newTri cfg D ρ s = Kconfig.newTri cfg D ρ' s := by
  have hmember : ((cfg.choiceOf s).any fun c => decide ((ρ c).val = .sym s)) =
      (cfg.choiceOf s).any fun c => decide ((ρ' c).val = .sym s) := by
    cases hc : cfg.choiceOf s with
    | none => rfl
    | some c => simp [h.member c s (hlink c hc)]
  have hlogic : logicTri cfg D ρ s = logicTri cfg D ρ' s := by
    unfold logicTri ownTri
    rw [h.visibleTri, h.reverseTri, h.activeDefault, h.defaultValue, hmember]
  simp only [Kconfig.newTri, hlogic, h.knownType]

theorem logicCurr {s : Sym} (hlink : ∀ c, cfg.choiceOf s = some c → c.isChoice = true) :
    logicCurr cfg D ρ s = Kconfig.logicCurr cfg D ρ' s := by
  rw [Kconfig.logicCurr, Kconfig.logicCurr, h.newTri hlink, h.selected]

end Alike

/-! ## Default texts -/

theorem Sym.isChoice_lookup (name : Text) (isconst : Bool) :
    (Sym.lookup name isconst).isChoice = false := by
  unfold Sym.lookup
  split_ifs <;> rfl

/-- No property names a choice. -/
theorem ParsedTree.not_isChoice_of_expr (t : ParsedTree) {s : Sym} {p : Property}
    (hp : p ∈ t.config.props s) : ∀ x ∈ p.expr.syms, x.isChoice = false := by
  rcases t.mem_props hp with hp | ⟨γ, e, hx, -, q, hq, hpq, -⟩
  · have main {sym : Sym} {value : Option Text} (hp : p ∈ initDefault sym value) :
        ∀ x ∈ p.expr.syms, x.isChoice = false := by
      obtain ⟨-, -, v, -, he⟩ := initDefault_facts hp
      rw [he]
      intro x hx
      obtain rfl := List.mem_singleton.mp hx
      exact Sym.isChoice_lookup v true
    exact (List.mem_append.mp hp).elim main main
  · have hover := t.block.entry_over (Q := fun x => x.isChoice = false) rfl
      (fun x hx => t.named x hx) e (Menus.mem_preorder_of_contexts hx)
    intro x hx
    rw [hpq] at hx
    exact hover.expr q hq x hx

theorem currOf_unknown {cfg : Config} {D D' : UserData} {ρ ρ' : Sym → SymbolValue} {s : Sym}
    (hty : cfg.type s = .unknown) : currOf cfg D ρ s = currOf cfg D' ρ' s := by
  rw [currOf, currOf, if_pos hty, if_pos hty]

/-! ## What is read back -/

/-- The user values `D'` say what the values `ρ` are, as far as anything is visible. -/
structure ReadBack (t : ParsedTree) (D D' : UserData) (ρ : Sym → SymbolValue) : Prop where
  modulesVal : D'.modulesVal = D.modulesVal
  shown : ∀ s, s.isChoice = false → t.config.type s ≠ .unknown →
    visibleTri t.config D ρ s ≠ .no → D'.isNew s = false ∧
      ((t.config.type s).isLogic = true → (D'.user s).tri = (ρ s).tri) ∧
      ((t.config.type s).isLogic = false → (D'.user s).val = .text (ρ s).val.toText)
  choice_no : ∀ c, c.isChoice = true → (∀ m, t.config.choiceOf m = some c → (ρ m).tri = .no) →
    D'.user c = ⟨.null, .no⟩
  choice_yes : ∀ c m, t.config.choiceOf m = some c → visibleTri t.config D ρ m ≠ .no →
    (ρ m).tri = .yes → (∀ x, t.config.choiceOf x = some c → x ≠ m → (ρ x).tri = .no) →
      D'.user c = ⟨.sym m, .yes⟩ ∧ D'.isNew c = false

namespace ReadBack
variable {t : ParsedTree} {D D' : UserData} {ρ : Sym → SymbolValue} {s c m : Sym}
  (ht : t.Regular) (hmod : D.modulesVal = .no) (hchoices : t.SimpleChoices)
  (hρ : Dependency.Solution (currOf t.config D) ρ)

include ht hmod hchoices hρ

/-- A choice that is not `n` selects the same member again. -/
theorem choice_again (h : ReadBack t D D' ρ) (hD : D.Candidates t.config) (hc : c.isChoice = true)
    (hon : (ρ c).tri ≠ .no) : currOf t.config D' ρ c = ρ c := by
  obtain ⟨m, -, hcurr, hm, hv⟩ := hchoices.exists_selected hρ ht hmod hD hc hon
  obtain ⟨hyes, hno⟩ := hchoices.member_of_selected hρ hmod hm hcurr hv
  obtain ⟨huser, hisNew⟩ := h.choice_yes c m hm hv hyes hno
  obtain ⟨hl, hnew, htri⟩ := newTri_of_choice hmod hρ hc hon
  have hst : c.isStatic = false := by cases c <;> simp_all [Sym.isChoice, Sym.isStatic]
  have hty : t.config.type c ≠ .unknown := fun hu => by simp [hu, SymType.isLogic] at hl
  have hnone : t.config.choiceOf c = none := by simp [Config.choiceOf, hc]
  have hnew' : newTri t.config D' ρ c = .yes := by
    refine newTri_yes_of_le hc hnone (visibleTri_of_modulesVal h.modulesVal ρ c)
      (reverseTri_of_modulesVal h.modulesVal ρ c)
      (knownType_boolean (h.modulesVal.trans hmod) hl) ?_ hnew
    rw [ownTri, ownTri, hisNew, Bool.not_false, if_pos rfl, huser]
    exact Tristate.le_yes _
  have hsel : selected t.config D' ρ c = some m := by
    have hvis : visibleTri t.config D' (selecting ρ c) m ≠ .no := by
      rwa [visibleTri_selecting hl htri, visibleTri_of_modulesVal h.modulesVal]
    unfold selected preferred
    rw [huser]
    exact List.find?_cons_of_pos (by simp [hvis])
  rw [currOf_dynamic hst hty, if_pos hl, logicCurr, if_pos ⟨hc, hnew'⟩, hsel, hcurr]

/-- A choice that is `n` stays `n`. -/
theorem choice_off (h : ReadBack t D D' ρ) (hc : c.isChoice = true) (hoff : (ρ c).tri = .no) :
    (currOf t.config D' ρ c).tri = .no ∧ ∀ m, (currOf t.config D' ρ c).val ≠ .sym m := by
  have hst : c.isStatic = false := by cases c <;> simp_all [Sym.isChoice, Sym.isStatic]
  by_cases hty : t.config.type c = .unknown
  · cases c with
    | choice k => simp [currOf, hst, hty, Sym.name?]
    | _ => simp [Sym.isChoice] at hc
  have hl : (t.config.type c).isLogic = true := by
    cases c with
    | choice k => exact hchoices.choice k hty
    | _ => simp [Sym.isChoice] at hc
  have hmembers : ∀ m, t.config.choiceOf m = some c → (ρ m).tri = .no := by
    intro m hm
    refine hchoices.member_hidden hρ hm ?_
    by_contra hv
    exact ht.toTidy.choice_on hρ (isChoice_of_choiceOf hm).2.2 hv hoff
  have huser := h.choice_no c hc hmembers
  rw [currOf_dynamic hst hty, if_pos hl, logicCurr]
  by_cases hyes : c.isChoice = true ∧ newTri t.config D' ρ c = .yes
  · rw [if_pos hyes]
    have hbefore : newTri t.config D ρ c = .yes := by
      refine newTri_yes_of_le hc (by simp [Config.choiceOf, hc])
        (visibleTri_of_modulesVal h.modulesVal ρ c).symm
        (reverseTri_of_modulesVal h.modulesVal ρ c).symm (knownType_boolean hmod hl) ?_ hyes.2
      have hown : ownTri t.config D' ρ c = .no := by
        rw [ownTri, huser]
        split_ifs <;> rfl
      rw [hown]
      exact Tristate.no_le _
    -- the candidates were searched in vain before
    have hnone : selected t.config D ρ c = none := by
      have hcurr := hρ c
      rw [currOf_dynamic hst hty, if_pos hl, logicCurr, if_pos ⟨hc, hbefore⟩] at hcurr
      cases hsel : selected t.config D ρ c with
      | none => rfl
      | some m => simp [hcurr, hsel] at hoff
    have hnone' : selected t.config D' ρ c = none := by
      unfold selected at hnone ⊢
      rw [List.find?_eq_none] at hnone ⊢
      intro m hm
      rw [visibleTri_of_modulesVal h.modulesVal]
      refine hnone m ?_
      unfold preferred at hm ⊢
      rw [huser] at hm
      simp only [userChoice, List.nil_append] at hm
      rw [List.append_assoc]
      exact List.mem_append_right _ hm
    rw [hnone']
    exact ⟨rfl, by simp⟩
  · rw [if_neg hyes]
    refine ⟨?_, by simp⟩
    cases hv : newTri t.config D' ρ c with
    | no => rfl
    | mod => exact absurd hv (newTri_ne_mod (h.modulesVal.trans hmod) hl)
    | yes => exact absurd ⟨hc, hv⟩ hyes

omit ht hchoices in
/-- A bool or tristate symbol that is no choice has its tristate again. -/
theorem newTri_again (h : ReadBack t D D' ρ) (hc : s.isChoice = false)
    (hl : (t.config.type s).isLogic = true) : newTri t.config D' ρ s = newTri t.config D ρ s := by
  have hty : t.config.type s ≠ .unknown := fun hu => by simp [hu, SymType.isLogic] at hl
  by_cases hv : visibleTri t.config D ρ s = .no
  · exact newTri_of_hidden h.modulesVal hv
  have hv' : visibleTri t.config D' ρ s ≠ .no := by rwa [visibleTri_of_modulesVal h.modulesVal]
  have hmod' : D'.modulesVal = .no := h.modulesVal.trans hmod
  cases hmember : t.config.isChoiceValue s with
  | true =>
    have hlogic {E : UserData} (hE : E.modulesVal = D.modulesVal) : logicTri t.config E ρ s =
        if (t.config.choiceOf s).any fun c => (ρ c).val = .sym s then .yes else .no := by
      refine logicTri_member ⟨hmember, ?_⟩
      rw [visibleTri_of_modulesVal hE]
      exact visibleTri_yes hmod hv
    rw [newTri, newTri, hlogic h.modulesVal, hlogic rfl, knownType_boolean hmod' hl,
      knownType_boolean hmod hl]
  | false =>
    obtain ⟨hnew, htri, -⟩ := h.shown s hc hty hv
    have hown : ownTri t.config D' ρ s = newTri t.config D ρ s := by
      rw [ownTri, hnew, Bool.not_false, if_pos rfl, htri hl, tri_of_solution hρ hc hl]
    have hbefore := newTri_of_shown hmod hl hmember hv
    rw [newTri_of_shown hmod' hl hmember hv', hown, reverseTri_of_modulesVal h.modulesVal, hbefore]
    by_cases hno : max (ownTri t.config D ρ s) (reverseTri t.config D ρ s) = .no
    · have hrev : reverseTri t.config D ρ s = .no := by
        rw [← Tristate.le_no_iff, ← hno]
        exact le_max_right _ _
      simp [hrev]
    · simp [hno]

end ReadBack

/-- The values that are computed from what was read back: no text is `NULL`, and a choice that is
`n` is computed again. -/
def readValues (cfg : Config) (D' : UserData) (ρ : Sym → SymbolValue) (s : Sym) : SymbolValue :=
  if s.isChoice then if (ρ s).tri = .no then currOf cfg D' ρ s else ρ s
  else ⟨.text (ρ s).val.toText, (ρ s).tri⟩

namespace ReadBack
variable {t : ParsedTree} {D D' : UserData} {ρ : Sym → SymbolValue} {s c m : Sym}
  (ht : t.Regular) (hmod : D.modulesVal = .no) (hchoices : t.SimpleChoices)
  (hρ : Dependency.Solution (currOf t.config D) ρ) (h : ReadBack t D D' ρ)
include ht hmod hchoices hρ h

theorem alike : Alike t.config ρ (readValues t.config D' ρ) := by
  have htri (x : Sym) : (ρ x).tri = (readValues t.config D' ρ x).tri := by
    unfold readValues
    split_ifs with hc hoff
    · rw [hoff, (choice_off ht hmod hchoices hρ h hc hoff).1]
    · rfl
    · rfl
  refine ⟨htri, fun x => ?_, fun x hx => ?_, fun c m hc => ?_⟩
  · rw [symGetStringValue, symGetStringValue]
    split_ifs with hl
    · rw [htri]
    · unfold readValues
      split_ifs with hc hoff
      · have hty : t.config.type x = .unknown := by
          cases x with
          | choice k => exact not_not.mp fun hty => hl (hchoices.choice k hty)
          | _ => simp [Sym.isChoice] at hc
        rw [(hρ x).trans (currOf_unknown hty)]
      · rfl
      · rfl
  · simp [readValues, hx, Val.toText]
  · unfold readValues
    rw [if_pos hc]
    split_ifs with hoff
    · exact iff_of_false (hchoices.val_of_off hρ hc hoff)
        ((choice_off ht hmod hchoices hρ h hc hoff).2 m)
    · rfl

omit h in
/-- A text is read back as it was, and a `NULL` one as the empty string. -/
theorem textVal_text (hst : s.isStatic = false) (hc : s.isChoice = false)
    (hty : t.config.type s ≠ .unknown) (hl : (t.config.type s).isLogic = false)
    (h : ReadBack t D D' ρ) : textVal t.config D' (readValues t.config D' ρ) s =
      .text (ρ s).val.toText := by
  have hlike := alike ht hmod hchoices hρ h
  have hcurr := hρ s
  rw [currOf_dynamic hst hty, if_neg (by simp [hl])] at hcurr
  unfold textVal
  rw [← hlike.visibleTri, visibleTri_of_modulesVal h.modulesVal]
  by_cases hv : visibleTri t.config D ρ s = .no
  · have hval : (ρ s).val = defaultText ρ (activeDefault t.config ρ s) :=
      (congrArg SymbolValue.val hcurr).trans (if_neg (by simp [hv]))
    rw [if_neg (by simp [hv]), hval, ← hlike.activeDefault]
    cases hp : activeDefault t.config ρ s with
    | none => rfl
    | some p =>
      have hp' := (List.mem_filter.mp (mem_defaults_of_activeDefault hp)).1
      unfold defaultText
      dsimp only
      cases hds : p.getSymbol with
      | none => rfl
      | some ds =>
        have hmem : ds ∈ p.expr.syms := by
          rw [Property.getSymbol_eq_some.mp hds]
          exact List.mem_singleton_self ds
        have hplain : ds.isChoice = false := t.not_isChoice_of_expr hp' ds hmem
        simp [readValues, hplain]
  · obtain ⟨hnew, -, htext⟩ := h.shown s hc hty hv
    rw [if_pos (by simp [hv, hnew]), htext hl]

theorem solution (hD : D.Candidates t.config) : Dependency.Solution (currOf t.config D') (readValues t.config D' ρ) := by
  intro s
  have hlike := alike ht hmod hchoices hρ h
  have hlink : ∀ c, t.config.choiceOf s = some c → c.isChoice = true := fun c hc =>
    (isChoice_of_choiceOf hc).1
  by_cases hst : s.isStatic = true
  · have hc : s.isChoice = false := by cases s <;> simp_all [Sym.isChoice, Sym.isStatic]
    have hcurr (E : UserData) (σ : Sym → SymbolValue) :
        currOf t.config E σ s = State.initial.curr s := if_pos hst
    rw [hcurr, readValues, if_neg (by simp [hc]), hρ s, hcurr]
    cases s <;> simp_all [Sym.isStatic, State.initial, Val.toText, SymbolValue.no]
  rw [Bool.not_eq_true] at hst
  by_cases hc : s.isChoice = true
  · have hcurr : currOf t.config D' (readValues t.config D' ρ) s = currOf t.config D' ρ s := by
      by_cases hty : t.config.type s = .unknown
      · exact currOf_unknown hty
      · have hl : (t.config.type s).isLogic = true := by
          cases s with
          | choice k => exact hchoices.choice k hty
          | _ => simp [Sym.isChoice] at hc
        rw [currOf_dynamic hst hty, currOf_dynamic hst hty, if_pos hl, if_pos hl,
          hlike.logicCurr hlink]
    rw [hcurr, readValues, if_pos hc]
    split_ifs with hoff
    · rfl
    · exact (choice_again ht hmod hchoices hρ h hD hc hoff).symm
  rw [Bool.not_eq_true] at hc
  rw [readValues, if_neg (by simp [hc])]
  by_cases hty : t.config.type s = .unknown
  · have hcurr : ρ s = currOf t.config D' (readValues t.config D' ρ) s :=
      (hρ s).trans (currOf_unknown hty)
    rw [← hcurr]
    have hval : ∃ n, ρ s = ⟨.text n, .no⟩ := by
      rw [hρ s, currOf, if_neg (by simp [hst]), if_pos hty]
      cases s <;> simp_all [Sym.isChoice, Sym.isStatic, Sym.name?]
    obtain ⟨n, hn⟩ := hval
    rw [hn]
    rfl
  by_cases hl : (t.config.type s).isLogic = true
  · rw [currOf_dynamic hst hty, if_pos hl, ← hlike.logicCurr hlink, logicCurr, if_neg (by simp [hc]),
      newTri_again hmod hρ h hc hl, hρ s, currOf_dynamic hst hty, if_pos hl, logicCurr,
      if_neg (by simp [hc])]
    rfl
  · rw [Bool.not_eq_true] at hl
    have htri : (ρ s).tri = .no := by rw [hρ s, currOf_dynamic hst hty, if_neg (by simp [hl])]
    rw [currOf_dynamic hst hty, if_neg (by simp [hl]), htri,
      textVal_text ht hmod hchoices hρ hst hc hty hl h]

end ReadBack

/-! ## A saved file -/

/-- The file that is saved in the state `st`, with the values of `st'`, has no title that is read as
an assignment, and no value that is not read back. -/
structure Legible (t : ParsedTree) (st st' : State) : Prop where
  title : ∀ e ∈ t.config.menus.preorder, e.sym = none → ∀ p ∈ e.prompt, SilentTitle (p.text.getD [])
  value : ∀ s ∈ writtenSymbols t.config.menus.preorder
      (symbolEntries t.config t.config.menus.preorder (writeStart t.config st)),
    Readable t.config s (st'.curr s)

/-- Every symbol has the same tristate and string, and every choice the same member. -/
structure SameValues (t : ParsedTree) (st st' : State) : Prop where
  tri : ∀ s, t.InTable s → (st'.curr s).tri = (st.curr s).tri
  string : ∀ s, t.InTable s →
    symGetStringValue t.config.type st'.curr s = symGetStringValue t.config.type st.curr s
  member : ∀ c m, t.InTable c → c.isChoice = true →
    ((st'.curr c).val = .sym m ↔ (st.curr c).val = .sym m)

section Trip
variable {t : ParsedTree} {D D' : UserData} {ρ : Sym → SymbolValue} {st st₀ : State}
  (ht : t.Regular) (hm : t.config.type modulesSym = .unknown) (hchoices : t.SimpleChoices)
include ht hm hchoices

/-- What the lines of a walk say is what the values are. -/
theorem ReadBack.of_walk (h : st.Tracks t D ρ) (hf : st.Flags t.config D ρ ∅)
    (hD' : D'.modulesVal = .no)
    (hlines : D' = applyLines t.config ρ (writtenSymbols t.config.menus.preorder
      (symbolEntries t.config t.config.menus.preorder st)) (resetData t.config State.initial.data)) :
    ReadBack t D D' ρ := by
  have hplain : ∀ s ∈ writtenSymbols t.config.menus.preorder
      (symbolEntries t.config t.config.menus.preorder st), s.isChoice = false :=
    not_isChoice_of_written _
  have hlogic : ∀ m, t.config.isChoiceValue m = true → (t.config.type m).isLogic = true :=
    fun m hm => (hchoices.member m hm).1
  have hwritten {s : Sym} (hc : s.isChoice = false) (hty : t.config.type s ≠ .unknown)
      (hv : visibleTri t.config D ρ s ≠ .no) : s ∈ writtenSymbols t.config.menus.preorder
        (symbolEntries t.config t.config.menus.preorder st) :=
    mem_writtenSymbols_of_shown ht hm hf h _ t.entry_fits (t.exists_entry_of_visible hv) hc hty hv
      (Set.notMem_empty s)
  rw [hlines] at hD' ⊢
  refine ⟨hD'.trans h.modulesVal.symm, fun s hc hty hv => ?_, fun c hc hno => ?_,
    fun c m hm hv hyes hno => ?_⟩
  · exact applyLines_self (hwritten hc hty hv) hc
  · exact applyLines_choice_no hplain hlogic hc (fun m _ hm => hno m hm) (ite_self _)
  · obtain ⟨hc, hmc, hlink⟩ := isChoice_of_choiceOf hm
    have hl := hlogic m (by simp [Config.isChoiceValue, hlink])
    exact applyLines_choice_yes hplain hlogic hc
      (hwritten hmc (fun hu => by simp [hu, SymType.isLogic] at hl) hv) hm hyes
      fun x _ hx hne => hno x hx hne

/-- What a saved file says is what the values are. -/
theorem fileData_readBack (hstart : (writeStart t.config st).Tracks t D ρ)
    (hflags : (writeStart t.config st).Flags t.config D ρ ∅)
    (htitle : ∀ e ∈ t.config.menus.preorder, e.sym = none → ∀ p ∈ e.prompt,
      SilentTitle (p.text.getD []))
    (hread : ∀ s ∈ writtenSymbols t.config.menus.preorder
      (symbolEntries t.config t.config.menus.preorder (writeStart t.config st)),
      Readable t.config s (ρ s)) :
    ∃ D', fileData t.config (confWrite t.config st).1 = .ok D' ∧ ReadBack t D D' ρ := by
  have hfile := fileData_written ht hm hstart t.config.menus.preorder t.entry_fits htitle hread
  rw [← confWrite_text] at hfile
  exact ⟨_, hfile, .of_walk ht hm hchoices hstart hflags (fileData_sane hfile).modulesVal rfl⟩

end Trip

/-! ## A string and a choice -/

/-- A string option, and a choice with two members. -/
def savedTree : ParsedTree where
  block := .config nameS false [.type .string (some (['s'], none))]
    (.choice 0 [.prompt ['c'] none]
      (boolOption ['A'] [] (boolOption ['B'] [] .nil nameB.free) nameA.free) .nil)
  choices_nodup := by decide
  named := by decide

theorem savedTree_regular : savedTree.Regular :=
  ParsedTree.regular_of_symbols
    (fun s => if s.isStatic then 0 else if s.isChoice then 1 else 2)
    (by decide) (by decide) (by decide) (by decide)

/-- The string is set, and the second member is selected. -/
def savedState : State :=
  let cfg := savedTree.config
  let st := calcAll cfg cfg.symbols .initial
  let st := (symSetStringValue cfg (.config nameS) ['a', '"', 'b'] st).2
  let st := calcAll cfg cfg.symbols st
  (symSetTristateValue cfg (.config nameB) .yes st).2

theorem savedState_session : Session savedTree True savedState :=
  ((((Session.parsed.calcAll _ fun _ => id).setString (by decide) _).calcAll _
    fun _ => id).setTristate (by decide) _)

theorem savedState_legible : Legible savedTree savedState
    (calcAll savedTree.config savedTree.config.symbols (confWrite savedTree.config savedState).2) where
  title := by
    have hall : ∀ e ∈ savedTree.config.menus.preorder, e.sym = none → e.prompt = none := by
      decide +kernel
    intro e he hs p hp
    simp [hall e he hs] at hp
  value := by decide +kernel

end Grasshopper.Kconfig
