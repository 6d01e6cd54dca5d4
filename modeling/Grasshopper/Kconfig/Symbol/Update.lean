import Grasshopper.Kconfig.Confdata.Rest
import Grasshopper.Kconfig.Symbol.Order

/-! # A value that is set is the value that is computed

Setting a bool or tristate symbol changes its user value and, for a choice member that becomes `y`,
what the choice remembers. Nothing that the symbol's own visibility and lower limit are computed
from uses either of them.
-/

namespace Grasshopper.Kconfig

/-! ## What depends on which user values -/

/-- The equation of a symbol reads only the symbol's own user value. -/
theorem currOf_of_data {cfg : Config} {D D' : UserData} {ρ : Sym → SymbolValue} {x : Sym}
    (huser : D.user x = D'.user x) (hnew : D.isNew x = D'.isNew x)
    (hmod : D.modulesVal = D'.modulesVal) : currOf cfg D ρ x = currOf cfg D' ρ x := by
  have hv : visibleTri cfg D = visibleTri cfg D' :=
    funext fun ρ => funext fun s => visibleTri_of_modulesVal hmod ρ s
  have hr : reverseTri cfg D = reverseTri cfg D' :=
    funext fun ρ => funext fun s => reverseTri_of_modulesVal hmod ρ s
  have htri : newTri cfg D ρ x = newTri cfg D' ρ x := by
    unfold newTri logicTri ownTri knownType
    rw [hv, hr, huser, hnew, hmod]
  have hsel : selected cfg D ρ x = selected cfg D' ρ x := by
    unfold selected preferred
    rw [hv, huser]
  unfold currOf logicCurr textVal
  rw [htri, hsel, hv, huser, hnew]

/-- The symbols whose user values a call of `sym_set_tristate_value` changes. -/
def touched (cfg : Config) (s : Sym) (val : Tristate) : Set Sym :=
  {x | x = s ∨ val = .yes ∧ cfg.choiceOf s = some x}

section Data
variable {cfg : Config} {D : UserData} {s : Sym} {val : Tristate}

theorem setTristateData_modulesVal :
    (setTristateData cfg s val D).modulesVal = D.modulesVal := by
  unfold setTristateData
  dsimp only
  split_ifs
  · cases cfg.choiceOf s <;> rfl
  · rfl

theorem setTristateData_self :
    ((setTristateData cfg s val D).user s).tri = val := by
  simp [setTristateData, UserData.setTri]

theorem setTristateData_apart {x : Sym} (hx : x ∉ touched cfg s val) :
    (setTristateData cfg s val D).user x = D.user x ∧
      (setTristateData cfg s val D).isNew x = D.isNew x := by
  have hxs : x ≠ s := fun h => hx (.inl h)
  unfold setTristateData
  dsimp only
  split_ifs with hv
  · cases hc : cfg.choiceOf s with
    | none => simp [UserData.setTri, UserData.setNew, hxs]
    | some c =>
      have hxc : x ≠ c := fun h => hx (.inr ⟨hv.2, h ▸ hc⟩)
      simp [UserData.setTri, UserData.setVal, UserData.setNew, hxs, hxc]
  · simp [UserData.setTri, UserData.setNew, hxs]

theorem setTristateData_isNew : (setTristateData cfg s val D).isNew s = false := by
  unfold setTristateData
  dsimp only
  split_ifs
  · cases cfg.choiceOf s with
    | none => simp [UserData.setTri, UserData.setNew]
    | some c => simp [UserData.setTri, UserData.setVal, UserData.setNew, Function.update_apply]
  · simp [UserData.setTri, UserData.setNew]

/-- The choice of a member that is set remembers it. -/
theorem setTristateData_choice {c : Sym} (hc : cfg.choiceOf s = some c) (hcs : c ≠ s) :
    (setTristateData cfg s .yes D).user c = ⟨.sym s, (D.user c).tri⟩ ∧
      (setTristateData cfg s .yes D).isNew c = false := by
  have hlink : cfg.isChoiceValue s = true := by
    unfold Config.choiceOf at hc
    split_ifs at hc
    simp [Config.isChoiceValue, hc]
  simp [setTristateData, hlink, hc, hcs, UserData.setTri, UserData.setVal, UserData.setNew]

end Data

/-! ## What a choice shows of itself to its members -/

/-- An expression looks only at the tristates and the strings of its symbols. -/
theorem Expr.value_congr_strings {type : Sym → SymType} {ρ ρ' : Sym → SymbolValue} (e : Expr)
    (htri : ∀ x ∈ e.syms, (ρ x).tri = (ρ' x).tri)
    (hstr : ∀ x ∈ e.syms, symGetStringValue type ρ x = symGetStringValue type ρ' x) :
    e.value type ρ = e.value type ρ' := by
  induction e with
  | symbol s => exact htri s List.mem_cons_self
  | not e ih => rw [Expr.value, Expr.value, ih htri hstr]
  | and l r ihl ihr | or l r ihl ihr =>
    have hl {x : Sym} (hx : x ∈ l.syms) := List.mem_append_left r.syms hx
    have hr {x : Sym} (hx : x ∈ r.syms) := List.mem_append_right l.syms hx
    rw [Expr.value, Expr.value, ihl (fun x hx => htri x (hl hx)) fun x hx => hstr x (hl hx),
      ihr (fun x hx => htri x (hr hx)) fun x hx => hstr x (hr hx)]
  | equal a b | unequal a b =>
    rw [Expr.value, Expr.value, hstr a List.mem_cons_self,
      hstr b (List.mem_cons_of_mem a List.mem_cons_self)]

/-- Which member a choice has selected makes no difference to a condition. -/
theorem conditionTri_selecting {cfg : Config} {ρ : Sym → SymbolValue} {c : Sym}
    (hl : (cfg.type c).isLogic = true) (hc : (ρ c).tri = .yes) :
    conditionTri cfg (selecting ρ c) = conditionTri cfg ρ := by
  have htri (x : Sym) : (selecting ρ c x).tri = (ρ x).tri := by
    by_cases hx : x = c
    · rw [hx, selecting, Function.update_self, hc]
    · rw [selecting, Function.update_of_ne hx]
  have hstr (x : Sym) : symGetStringValue cfg.type (selecting ρ c) x =
      symGetStringValue cfg.type ρ x := by
    by_cases hx : x = c
    · rw [hx, symGetStringValue, symGetStringValue, if_pos hl, if_pos hl, htri]
    · rw [symGetStringValue, symGetStringValue, selecting, Function.update_of_ne hx]
  funext p
  unfold conditionTri
  cases p.visible with
  | none => rfl
  | some e => exact e.value_congr_strings (fun x _ => htri x) fun x _ => hstr x

theorem visibleTri_selecting {cfg : Config} {D : UserData} {ρ : Sym → SymbolValue} {c : Sym}
    (hl : (cfg.type c).isLogic = true) (hc : (ρ c).tri = .yes) (m : Sym) :
    visibleTri cfg D (selecting ρ c) m = visibleTri cfg D ρ m := by
  rw [visibleTri, visibleTri, conditionTri_selecting hl hc]

/-! ## A symbol whose choice is left alone -/

/-- What `sym_set_tristate_value` accepts, in terms of the values that are computed. -/
def Accepts (cfg : Config) (D : UserData) (ρ : Sym → SymbolValue) (s : Sym) (val : Tristate) :
    Prop :=
  newTri cfg D ρ s = val ∨
    visibleTri cfg D ρ s ≠ .no ∧ ¬(knownType cfg D ρ s = .boolean ∧ val = .mod) ∧
      if cfg.isChoiceValue s = true ∧ visibleTri cfg D ρ s = .yes then val = .yes
      else reverseTri cfg D ρ s ≤ val ∧ val ≤ visibleTri cfg D ρ s

theorem Tristate.max_min_of_between {val visible reverse : Tristate} (hle : reverse ≤ val)
    (hge : val ≤ visible) : max (min val visible) reverse = val := by
  rw [min_eq_left hge, max_eq_left hle]

/-- Setting the value that is there already changes nothing. -/
theorem Tristate.max_min_again (own visible reverse : Tristate) {bool : Prop} [Decidable bool] :
    let tri := max (min own visible) reverse
    let val := if tri = .mod ∧ bool then .yes else tri
    (if max (min val visible) reverse = .mod ∧ bool then .yes else max (min val visible) reverse) =
      val := by
  by_cases hbool : bool
  · simp only [hbool, and_true]
    revert own visible reverse
    decide
  · simp only [hbool, and_false, if_false]
    revert own visible reverse
    decide

section Own
variable {cfg : Config} {D : UserData} {ρ : Sym → SymbolValue} {s : Sym} {val : Tristate}

/-- A symbol that is not selected by a choice takes the value that is set. -/
theorem newTri_set (hmember : ¬(cfg.isChoiceValue s = true ∧ visibleTri cfg D ρ s = .yes))
    (h : Accepts cfg D ρ s val) : newTri cfg (setTristateData cfg s val D) ρ s = val := by
  have hv : visibleTri cfg (setTristateData cfg s val D) ρ s = visibleTri cfg D ρ s :=
    visibleTri_of_modulesVal setTristateData_modulesVal ρ s
  have hr : reverseTri cfg (setTristateData cfg s val D) ρ s = reverseTri cfg D ρ s :=
    reverseTri_of_modulesVal setTristateData_modulesVal ρ s
  have hk : knownType cfg (setTristateData cfg s val D) ρ s = knownType cfg D ρ s := by
    rw [knownType, knownType, hv, setTristateData_modulesVal]
  have hown : ownTri cfg (setTristateData cfg s val D) ρ s = val := by
    rw [ownTri, setTristateData_isNew, Bool.not_false, if_pos rfl, setTristateData_self]
  rw [Accepts, if_neg hmember] at h
  by_cases hmax : max (visibleTri cfg D ρ s) (reverseTri cfg D ρ s) = .no
  · -- what is hidden keeps the value of its default
    have hno : visibleTri cfg D ρ s = .no := by
      rw [← Tristate.le_no_iff, ← hmax]
      exact le_max_left _ _
    have hold := h.resolve_right fun h => h.1 hno
    have hsame : logicTri cfg (setTristateData cfg s val D) ρ s = logicTri cfg D ρ s := by
      rw [logicTri_hidden (by rw [hv, hr, hmax]), logicTri_hidden hmax]
    rw [newTri, hsame, hk]
    exact hold
  · have hnew : logicTri cfg (setTristateData cfg s val D) ρ s =
        max (min val (visibleTri cfg D ρ s)) (reverseTri cfg D ρ s) := by
      rw [logicTri_shown (by rwa [hv]) (by rwa [hv, hr]), hown, hv, hr]
    rw [newTri, hnew, hk]
    rcases h with hold | ⟨-, hbool, hle, hge⟩
    · rw [newTri, logicTri_shown hmember hmax] at hold
      rw [← hold]
      exact Tristate.max_min_again ..
    · rw [Tristate.max_min_of_between hle hge]
      exact if_neg fun hm => hbool ⟨hm.2, hm.1⟩

/-- A member that is not set to `y` keeps its value. -/
theorem newTri_keep (hmember : cfg.isChoiceValue s = true ∧ visibleTri cfg D ρ s = .yes)
    (hval : val ≠ .yes) (h : Accepts cfg D ρ s val) :
    newTri cfg (setTristateData cfg s val D) ρ s = val := by
  have hv : visibleTri cfg (setTristateData cfg s val D) ρ s = visibleTri cfg D ρ s :=
    visibleTri_of_modulesVal setTristateData_modulesVal ρ s
  rw [Accepts, if_pos hmember] at h
  have hold := h.resolve_right fun h => hval h.2.2
  rw [newTri, knownType, hv, setTristateData_modulesVal, logicTri_member (by rwa [hv]),
    ← logicTri_member hmember]
  exact hold

end Own

/-! ## The solution after a change -/

section Solution
variable {t : ParsedTree} (h : t.Tidy) {D : UserData} (hD : D.OwnMembers t.config) {s : Sym}
  {val : Tristate} {ρ ρ' : Sym → SymbolValue}
  (hρ : Dependency.Solution (currOf t.config D) ρ)
  (hρ' : Dependency.Solution (currOf t.config (setTristateData t.config s val D)) ρ')
include h hD hρ hρ'

/-- What uses nothing that was set keeps its value. -/
theorem value_of_apart {x : Sym} (hx : x ∉ touched t.config s val)
    (hbelow : ∀ b ∈ touched t.config s val, ¬Dependency.Below t.config.uses x b) : ρ' x = ρ x := by
  refine (hρ.eq_of_apart h.wellFounded (currOf_respects hD.candidates) hρ' (fun a ha => ?_) hx
    hbelow).symm
  obtain ⟨huser, hnew⟩ := setTristateData_apart (D := D) ha
  exact currOf_of_data huser.symm hnew.symm setTristateData_modulesVal.symm

/-- With its choice left alone, a symbol is computed from the same values as before. -/
theorem value_of_used (halone : ¬(val = .yes ∧ t.config.isChoiceValue s = true)) :
    ρ' s = currOf t.config (setTristateData t.config s val D) ρ s := by
  have honly : ∀ b ∈ touched t.config s val, b = s := by
    rintro b (hb | ⟨hval, hc⟩)
    · exact hb
    · refine absurd ⟨hval, ?_⟩ halone
      unfold Config.choiceOf at hc
      split_ifs at hc
      simp [Config.isChoiceValue, hc]
  rw [hρ' s]
  apply currOf_respects (setTristateData_own hD s val).candidates
  intro x hx
  have hne : x ≠ s := by
    rintro rfl
    exact h.acyclic x (.single hx)
  apply value_of_apart h hD hρ hρ'
  · exact fun hmem => hne (honly x hmem)
  · intro b hb hxb
    rw [honly b hb] at hxb
    exact h.acyclic s ((Dependency.Below.of_mem hx).trans hxb)

/-- What a choice is computed from keeps its value when a member of it is set. -/
theorem value_of_used_by_choice (hs : t.config.type s ≠ .unknown) {c : Sym}
    (hc : t.config.choiceOf s = some c) {x : Sym} (hx : x ∈ t.config.uses c) : ρ' x = ρ x := by
  have hst : s.isStatic = false := t.symbols_not_static s (t.mem_symbols_of_typed
    (t.linked.typed s hs) hs)
  have hsc : Dependency.Below t.config.uses s c := .of_mem (mem_uses_of_choiceOf hst hs hc)
  have hcx : Dependency.Below t.config.uses c x := .of_mem hx
  have hbelow : ∀ b ∈ touched t.config s val, Dependency.Below t.config.uses b x := by
    rintro b (rfl | ⟨-, hb⟩)
    · exact hsc.trans hcx
    · obtain rfl := Option.some.inj (hc.symm.trans hb)
      exact hcx
  apply value_of_apart h hD hρ hρ'
  · exact fun hmem => h.acyclic x (hbelow x hmem)
  · exact fun b hb hxb => h.acyclic x (hxb.trans (hbelow b hb))

end Solution

/-! ## A member that is set to `y` -/

/-- A symbol that is visible has a prompt whose condition holds. -/
theorem exists_prompt_of_visible {cfg : Config} {D : UserData} {ρ : Sym → SymbolValue} {s : Sym}
    (h : visibleTri cfg D ρ s ≠ .no) : ∃ p ∈ cfg.prompts s, conditionTri cfg ρ p ≠ .no := by
  by_contra hall
  push Not at hall
  have hmax : maxValue ((cfg.prompts s).map (conditionTri cfg ρ)) = .no := by
    rw [← Tristate.le_no_iff]
    refine maxValue_le fun w hw => ?_
    obtain ⟨p, hp, rfl⟩ := List.mem_map.mp hw
    rw [hall p hp]
  exact h (by simp [visibleTri, hmax])

section NoModules
variable {cfg : Config} {D : UserData} {ρ : Sym → SymbolValue} {s : Sym}
  (hmod : D.modulesVal = .no)
include hmod

theorem knownType_boolean (hl : (cfg.type s).isLogic = true) :
    knownType cfg D ρ s = .boolean := by
  unfold knownType Config.getType
  split_ifs with ht hc
  · rfl
  · exact absurd (.inr hmod) hc
  · cases hty : cfg.type s <;> simp_all [SymType.isLogic]

theorem newTri_ne_mod (hl : (cfg.type s).isLogic = true) : newTri cfg D ρ s ≠ .mod := by
  rw [newTri, knownType_boolean hmod hl]
  split_ifs with hm
  · decide
  · exact fun h => hm ⟨h, rfl⟩

theorem visibleTri_yes (h : visibleTri cfg D ρ s ≠ .no) : visibleTri cfg D ρ s = .yes := by
  unfold visibleTri at h ⊢
  dsimp only at h ⊢
  split_ifs at h ⊢ with hm
  · rfl
  · cases hv : maxValue ((cfg.prompts s).map (conditionTri cfg ρ)) with
    | no => exact absurd hv h
    | mod => exact absurd ⟨hv, .inr hmod⟩ hm
    | yes => rfl

/-- A choice that is not `n` is `y`, and computed as such. -/
theorem newTri_of_choice (hρ : Dependency.Solution (currOf cfg D) ρ) (hs : s.isChoice = true)
    (h : (ρ s).tri ≠ .no) :
    (cfg.type s).isLogic = true ∧ newTri cfg D ρ s = .yes ∧ (ρ s).tri = .yes := by
  have hst : s.isStatic = false := by cases s <;> simp_all [Sym.isChoice, Sym.isStatic]
  have hcurr := hρ s
  rw [currOf, if_neg (by simp [hst])] at hcurr
  split_ifs at hcurr with hty hl
  · exact absurd (by rw [hcurr]) h
  · have hne : newTri cfg D ρ s ≠ .mod := newTri_ne_mod hmod hl
    rw [logicCurr] at hcurr
    split_ifs at hcurr with hyes
    · refine ⟨hl, hyes.2, ?_⟩
      cases hsel : selected cfg D ρ s with
      | none =>
        rw [hsel] at hcurr
        exact absurd (by rw [hcurr]) h
      | some m => rw [hcurr, hsel]
    · have htri : (ρ s).tri = newTri cfg D ρ s := by rw [hcurr]
      cases hv : newTri cfg D ρ s with
      | no => exact absurd (htri.trans hv) h
      | mod => exact absurd hv hne
      | yes => exact absurd ⟨hs, hv⟩ hyes
  · exact absurd (by rw [hcurr]) h

end NoModules

/-- A choice that was `y` stays so when the user takes a member of it. -/
theorem newTri_yes_of_le {cfg : Config} {D D' : UserData} {ρ ρ' : Sym → SymbolValue} {c : Sym}
    (hc : c.isChoice = true) (hnone : cfg.choiceOf c = none)
    (hv : visibleTri cfg D' ρ' c = visibleTri cfg D ρ c)
    (hr : reverseTri cfg D' ρ' c = reverseTri cfg D ρ c)
    (hbool : knownType cfg D' ρ' c = .boolean)
    (hown : ownTri cfg D ρ c ≤ ownTri cfg D' ρ' c) (h : newTri cfg D ρ c = .yes) :
    newTri cfg D' ρ' c = .yes := by
  have hpos : logicTri cfg D ρ c ≠ .no := by
    intro hno
    rw [newTri, hno] at h
    simp at h
  have hmember : ¬(cfg.isChoiceValue c = true ∧ visibleTri cfg D ρ c = .yes) := by
    intro hm
    rw [logicTri_member hm, hnone] at hpos
    exact hpos rfl
  have hshown : max (visibleTri cfg D ρ c) (reverseTri cfg D ρ c) ≠ .no := by
    intro hno
    rw [logicTri_hidden hno, if_pos hc] at hpos
    exact hpos rfl
  have hle : logicTri cfg D ρ c ≤ logicTri cfg D' ρ' c := by
    rw [logicTri_shown hmember hshown, logicTri_shown (by rwa [hv]) (by rwa [hv, hr]), hv, hr]
    exact max_le_max (min_le_min_right _ hown) le_rfl
  rw [newTri, hbool]
  cases hnew : logicTri cfg D' ρ' c with
  | no =>
    rw [hnew] at hle
    exact absurd ((Tristate.le_no_iff _).mp hle) hpos
  | mod => rfl
  | yes => rfl

section Member
variable {t : ParsedTree} (h : t.Tidy) {D : UserData} (hD : D.OwnMembers t.config)
  (hmod : D.modulesVal = .no) {s c : Sym} {ρ ρ' : Sym → SymbolValue}
  (hρ : Dependency.Solution (currOf t.config D) ρ)
  (hρ' : Dependency.Solution (currOf t.config (setTristateData t.config s .yes D)) ρ')
  (hl : (t.config.type s).isLogic = true) (hc : t.config.choiceOf s = some c)
  (hv : visibleTri t.config D ρ s ≠ .no)
include h hD hmod hρ hρ' hl hc hv

/-- The choice of a visible member that is set selects it, and the member stays visible. -/
theorem choice_selects : ρ' c = ⟨.sym s, .yes⟩ ∧
    visibleTri t.config (setTristateData t.config s .yes D) ρ' s = .yes := by
  have hlink : t.config.link s = some c := by
    unfold Config.choiceOf at hc
    split_ifs at hc
    exact hc
  obtain ⟨hchoice, hmember, -⟩ := t.linked.link s c hlink
  have hty : t.config.type s ≠ .unknown := fun hu => by simp [hu, SymType.isLogic] at hl
  have hcst : c.isStatic = false := by cases c <;> simp_all [Sym.isChoice, Sym.isStatic]
  have hcs : c ≠ s := by
    rintro rfl
    simp [Config.choiceOf, hchoice] at hc
  have hnone : t.config.choiceOf c = none := by simp [Config.choiceOf, hchoice]
  have hmod' : (setTristateData t.config s .yes D).modulesVal = .no :=
    setTristateData_modulesVal.trans hmod
  -- the guard of the member's prompt: its choice was `y`
  have hon : (ρ c).tri ≠ .no := by
    obtain ⟨p, hp, hcond⟩ := exists_prompt_of_visible hv
    obtain ⟨v, hpv, hg⟩ := h.guarded hlink hp
    have hle := hg.value_le (t.standard_of_solution hρ)
    rw [conditionTri, hpv] at hcond
    exact fun hno => hcond ((Tristate.le_no_iff _).mp (hno ▸ hle))
  obtain ⟨hcl, hyes, htri⟩ := newTri_of_choice hmod hρ hchoice hon
  have hcty : t.config.type c ≠ .unknown := fun hu => by simp [hu, SymType.isLogic] at hcl
  have hused {x : Sym} (hx : x ∈ t.config.uses c) : ρ' x = ρ x :=
    value_of_used_by_choice h hD hρ hρ' hty hc hx
  obtain ⟨huser, hnew⟩ := setTristateData_choice (D := D) hc hcs
  -- so it is still
  have hyes' : newTri t.config (setTristateData t.config s .yes D) ρ' c = .yes := by
    refine newTri_yes_of_le hchoice hnone ?_ ?_ (knownType_boolean hmod' hcl) ?_ hyes
    · rw [visibleTri_of_modulesVal setTristateData_modulesVal]
      exact visibleTri_congr fun x hx =>
        hused (mem_uses_of_visSyms hcst hcty (t.config.mem_visSyms_of_prompt hx))
    · rw [reverseTri_of_modulesVal setTristateData_modulesVal]
      exact reverseTri_congr fun x hx => hused (mem_uses_of_visSyms hcst hcty hx)
    · rw [ownTri, ownTri, hnew, Bool.not_false, if_pos rfl, huser]
      split_ifs
      · exact le_rfl
      · exact Tristate.no_le _
  -- the member's prompts see nothing else that has changed
  have hvis : visibleTri t.config (setTristateData t.config s .yes D) (selecting ρ' c) s = .yes := by
    rw [visibleTri_of_modulesVal setTristateData_modulesVal, ← visibleTri_yes hmod hv,
      ← visibleTri_selecting hcl htri]
    refine visibleTri_congr fun x hx => ?_
    by_cases hxc : x = c
    · rw [hxc, selecting, selecting, Function.update_self, Function.update_self]
    · rw [selecting, selecting, Function.update_of_ne hxc, Function.update_of_ne hxc]
      exact hused (mem_uses_of_candidate hcst hcty hchoice (List.mem_append_left _ hmember)
        (t.config.mem_visSyms_of_prompt hx) hxc)
  have hsel : selected t.config (setTristateData t.config s .yes D) ρ' c = some s := by
    unfold selected preferred
    rw [huser]
    exact List.find?_cons_of_pos (by simp [hvis])
  have hcurr : ρ' c = ⟨.sym s, .yes⟩ := by
    rw [hρ' c, currOf, if_neg (by simp [hcst]), if_neg hcty, if_pos hcl, logicCurr,
      if_pos ⟨hchoice, hyes'⟩, hsel]
  exact ⟨hcurr, (visibleTri_selecting hcl (by rw [hcurr]) s).symm.trans hvis⟩

end Member

section Set
variable {t : ParsedTree} {s : Sym} {val : Tristate}

/-- The tristate of a symbol that is no choice. -/
theorem tri_of_solution {D : UserData} {ρ : Sym → SymbolValue}
    (hρ : Dependency.Solution (currOf t.config D) ρ) (hs : s.isChoice = false)
    (hl : (t.config.type s).isLogic = true) : (ρ s).tri = newTri t.config D ρ s := by
  have hty : t.config.type s ≠ .unknown := fun hu => by simp [hu, SymType.isLogic] at hl
  have hst : s.isStatic = false := t.symbols_not_static s (t.mem_symbols_of_typed
    (t.linked.typed s hty) hty)
  rw [hρ s, currOf, if_neg (by simp [hst]), if_neg hty, if_pos hl, logicCurr, if_neg (by simp [hs])]

/-- The solution after a value was set that is accepted has that value. -/
theorem tri_of_set (h : t.Tidy) {D : UserData} (hD : D.OwnMembers t.config)
    (hmod : D.modulesVal = .no) {ρ ρ' : Sym → SymbolValue}
    (hρ : Dependency.Solution (currOf t.config D) ρ)
    (hρ' : Dependency.Solution (currOf t.config (setTristateData t.config s val D)) ρ')
    (hs : s.isChoice = false) (hl : (t.config.type s).isLogic = true)
    (hshown : t.config.isChoiceValue s = true → val = .yes → visibleTri t.config D ρ s ≠ .no)
    (haccepts : Accepts t.config D ρ s val) : (ρ' s).tri = val := by
  by_cases hset : val = .yes ∧ t.config.isChoiceValue s = true
  · obtain ⟨rfl, hmember⟩ := hset
    obtain ⟨c, hlink⟩ := Option.isSome_iff_exists.mp hmember
    have hc : t.config.choiceOf s = some c := by simp [Config.choiceOf, hs, hlink]
    obtain ⟨hcurr, hvis⟩ := choice_selects h hD hmod hρ hρ' hl hc (hshown hmember rfl)
    have hyes : logicTri t.config (setTristateData t.config s .yes D) ρ' s = .yes := by
      rw [logicTri_member ⟨hmember, hvis⟩, hc]
      exact if_pos (by simp [hcurr])
    rw [tri_of_solution hρ' hs hl, newTri, hyes]
    exact if_neg (by simp)
  · have hused := value_of_used h hD hρ hρ' hset
    have hval : newTri t.config (setTristateData t.config s val D) ρ s = val := by
      by_cases hmember : t.config.isChoiceValue s = true ∧ visibleTri t.config D ρ s = .yes
      · exact newTri_keep hmember (fun hyes => hset ⟨hyes, hmember.1⟩) haccepts
      · exact newTri_set hmember haccepts
    have hty : t.config.type s ≠ .unknown := fun hu => by simp [hu, SymType.isLogic] at hl
    have hst : s.isStatic = false := t.symbols_not_static s (t.mem_symbols_of_typed
      (t.linked.typed s hty) hty)
    rw [hused, currOf, if_neg (by simp [hst]), if_neg hty, if_pos hl, logicCurr,
      if_neg (by simp [hs]), hval]

end Set

/-! ## The setter and the recalculation -/

/-- After the marks were cleared and some symbols computed, the state is proper again. -/
theorem State.Proper.of_ext {cfg : Config} {D : UserData} {ρ : Sym → SymbolValue} {st st' : State}
    (h : st.Proper cfg) (htable : ∀ s ∈ cfg.symbols, s.isStatic = false)
    (hext : Ext cfg D ρ (clearValid cfg st) st') : st'.Proper cfg := by
  obtain ⟨N, hf⟩ := hext
  constructor
  · intro s hs
    have hout : s ∉ cfg.symbols := fun hmem => by simp [htable s hmem] at hs
    have hvalid : (clearValid cfg st).valid s = true := by
      simp [clearValid, (h.static s hs).1, hout]
    exact ⟨(hf.valid s).mpr (.inl hvalid), (hf.curr s hvalid).trans (h.static s hs).2⟩
  · intro s hs
    rcases (hf.valid s).mp hs with hv | hN
    · exact h.table s (by simp_all [clearValid])
    · exact .inr (hf.table s hN)
  · exact fun s hs => (hf.memberRev s hs).trans (h.memberRev s hs)

theorem State.data_eq {st st' : State} (hu : st'.user = st.user) (hn : st'.isNew = st.isNew)
    (hm : st'.modulesVal = st.modulesVal) : st'.data = st.data := by
  rw [State.data, State.data, hu, hn, hm]

theorem State.withData_data {st : State} {D : UserData} (h : D.modulesVal = st.modulesVal) :
    (st.withData D).data = D := by
  change UserData.mk D.user D.isNew st.modulesVal = D
  rw [← h]

/-- Recalculating all symbols, in some order, changes nothing of those that have a type. -/
def State.Fixed (cfg : Config) (st : State) : Prop :=
  ∃ order, (∀ s, s ∈ order ↔ s ∈ cfg.symbols) ∧ ∀ s ∈ cfg.symbols, cfg.type s ≠ .unknown →
    (calcAll cfg order (symClearAllValid cfg st)).curr s = st.curr s ∧
    (calcAll cfg order (symClearAllValid cfg st)).visible s = st.visible s ∧
    (calcAll cfg order (symClearAllValid cfg st)).revTri s = st.revTri s

/-- `sym_tristate_within_range` in a state with the values that are computed. -/
theorem accepts_of_withinRange {cfg : Config} {st : State} {ρ : Sym → SymbolValue} {s : Sym}
    {val : Tristate} (hvis : st.visible s = visibleTri cfg st.data ρ s)
    (hrev : st.revTri s = reverseTri cfg st.data ρ s)
    (hk : cfg.symGetType st s = knownType cfg st.data ρ s)
    (h : symTristateWithinRange cfg s val st = true) :
    visibleTri cfg st.data ρ s ≠ .no ∧ ¬(knownType cfg st.data ρ s = .boolean ∧ val = .mod) ∧
      if cfg.isChoiceValue s = true ∧ visibleTri cfg st.data ρ s = .yes then val = .yes
      else reverseTri cfg st.data ρ s ≤ val ∧ val ≤ visibleTri cfg st.data ρ s := by
  rw [symTristateWithinRange, hk, hvis, hrev] at h
  split_ifs at h with hno hlogic hbool hle hmember
  · rw [if_pos hmember]
    exact ⟨hno, hbool, of_decide_eq_true h⟩
  · rw [if_neg hmember]
    exact ⟨hno, hbool, of_decide_eq_true h⟩

section Setter
variable {t : ParsedTree} (h : t.Tidy) (hm : t.config.type modulesSym = .unknown) {st : State}
  (hst : st.Proper t.config) (hD : st.data.OwnMembers t.config)
include h hm hst hD

/-- In a state that recalculating does not change, the values are those of the solution. -/
theorem fixed_eq {ρ : Sym → SymbolValue} (hρ : Dependency.Solution (currOf t.config st.data) ρ)
    (hfixed : st.Fixed t.config) {s : Sym} (hty : t.config.type s ≠ .unknown) :
    st.curr s = ρ s ∧ st.visible s = visibleTri t.config st.data ρ s ∧
      st.revTri s = reverseTri t.config st.data ρ s := by
  obtain ⟨order, ho, hsame⟩ := hfixed
  obtain ⟨hset, -⟩ := h.recalculate hm hst hD ho hρ
  have hs : s ∈ t.config.symbols := t.mem_symbols_of_typed (t.linked.typed s hty) hty
  obtain ⟨hcurr, hvis, hrev⟩ := hsame s hs hty
  have hd := hset.good.done s (hset.valid s hs) (Set.notMem_empty s)
  refine ⟨?_, ?_, ?_⟩
  · rw [← hcurr, hd.curr]
  · rw [← hvis, (hd.known hty).visible]
  · rw [← hrev, (hd.known hty).reverse]

/-- What the setter leaves when it accepts a value. -/
theorem symSetTristateValue_state {s : Sym} {val : Tristate}
    (haccept : (symSetTristateValue t.config s val st).1 = true) :
    (symSetTristateValue t.config s val st).2.Proper t.config ∧
      (symSetTristateValue t.config s val st).2.data = setTristateData t.config s val st.data := by
  have hdata : (st.withData (setTristateData t.config s val st.data)).data =
      setTristateData t.config s val st.data := State.withData_data setTristateData_modulesVal
  have hproper : (st.withData (setTristateData t.config s val st.data)).Proper t.config :=
    { hst with }
  unfold symSetTristateValue at haccept ⊢
  dsimp only at haccept ⊢
  split_ifs at haccept ⊢ with hno hne
  · obtain ⟨ρ, hρ⟩ := h.exists_solution (setTristateData_own hD s val).candidates
    have sem := h.semantics (setTristateData_own hD s val).candidates hρ fun hty => absurd hm hty
    have hgood := clearValid_good sem hproper hdata t.symbols_not_static
    have hreads := symCalcValue_reads sem hgood t.modulesSym_mem
    obtain ⟨N, hf⟩ := hreads.ext
    exact ⟨hproper.of_ext t.symbols_not_static hreads.ext,
      (State.data_eq hf.user hf.isNew hf.modulesVal).trans hdata⟩
  · exact ⟨hproper, hdata⟩

/-- Recalculating all symbols leaves a proper state with the same user values. -/
theorem recalculated_proper {order : List Sym} (ho : ∀ s, s ∈ order ↔ s ∈ t.config.symbols) :
    (calcAll t.config order (symClearAllValid t.config st)).Proper t.config ∧
      (calcAll t.config order (symClearAllValid t.config st)).data = st.data := by
  obtain ⟨ρ, hρ⟩ := h.exists_solution hD.candidates
  obtain ⟨-, hext⟩ := h.recalculate hm hst hD ho hρ
  obtain ⟨N, hf⟩ := hext
  exact ⟨hst.of_ext t.symbols_not_static ⟨N, hf⟩,
    State.data_eq hf.user hf.isNew hf.modulesVal⟩

/-- What a recalculation leaves is not changed by another one. -/
theorem recalculated_fixed {order : List Sym} (ho : ∀ s, s ∈ order ↔ s ∈ t.config.symbols) :
    (calcAll t.config order (symClearAllValid t.config st)).Fixed t.config := by
  obtain ⟨ρ, hρ⟩ := h.exists_solution hD.candidates
  obtain ⟨hset, -⟩ := h.recalculate hm hst hD ho hρ
  obtain ⟨hst', hdata⟩ := recalculated_proper h hm hst hD ho
  rw [← hdata] at hρ hD
  obtain ⟨hset', -⟩ := h.recalculate hm hst' hD ho hρ
  rw [hdata] at hset'
  refine ⟨order, ho, fun s hs hty => ?_⟩
  have hd := hset.good.done s (hset.valid s hs) (Set.notMem_empty s)
  have hd' := hset'.good.done s (hset'.valid s hs) (Set.notMem_empty s)
  refine ⟨hd'.curr.trans hd.curr.symm, ?_, ?_⟩
  · rw [(hd'.known hty).visible, (hd.known hty).visible]
  · rw [(hd'.known hty).reverse, (hd.known hty).reverse]

end Setter

/-- A value that `sym_set_tristate_value` accepts is the value after the next recalculation, and
one that it does not accept changes nothing. A choice member that becomes `y` has to be visible. -/
theorem symSetTristateValue_correct {t : ParsedTree} (h : t.Tidy)
    (hm : t.config.type modulesSym = .unknown) {st : State} (hst : st.Proper t.config)
    (hD : st.data.OwnMembers t.config) (hmod : st.modulesVal = .no)
    (hfixed : st.Fixed t.config) {s : Sym} (hs : s.isChoice = false)
    (hl : (t.config.type s).isLogic = true) (val : Tristate)
    (hshown : t.config.isChoiceValue s = true → val = .yes → st.visible s ≠ .no)
    {order : List Sym} (ho : ∀ s, s ∈ order ↔ s ∈ t.config.symbols) :
    ((symSetTristateValue t.config s val st).1 = true →
      ((calcAll t.config order (symClearAllValid t.config
        (symSetTristateValue t.config s val st).2)).curr s).tri = val) ∧
    ((symSetTristateValue t.config s val st).1 = false →
      (symSetTristateValue t.config s val st).2 = st) := by
  have hty : t.config.type s ≠ .unknown := fun hu => by simp [hu, SymType.isLogic] at hl
  constructor
  · intro haccept
    obtain ⟨ρ, hρ⟩ := h.exists_solution hD.candidates
    obtain ⟨hcurr, hvis, hrev⟩ := fixed_eq h hm hst hD hρ hfixed hty
    obtain ⟨hst', hdata⟩ := symSetTristateValue_state h hm hst hD haccept
    have hD' := setTristateData_own hD s val
    obtain ⟨ρ', hρ'⟩ := h.exists_solution hD'.candidates
    have hk : t.config.symGetType st s = knownType t.config st.data ρ s := by
      rw [Config.symGetType, hvis]
      rfl
    have haccepts : Accepts t.config st.data ρ s val := by
      by_cases hold : (st.curr s).tri = val
      · exact .inl (by rw [← tri_of_solution hρ hs hl, ← hcurr, hold])
      · have hrange : symTristateWithinRange t.config s val st = true := by
          rw [symSetTristateValue] at haccept
          dsimp only at haccept
          split_ifs at haccept with hno
          simpa [hold] using hno
        exact .inr (accepts_of_withinRange hvis hrev hk hrange)
    have hval : (ρ' s).tri = val :=
      tri_of_set h hD hmod hρ hρ' hs hl (by rwa [hvis] at hshown) haccepts
    rw [← hdata] at hρ' hD'
    obtain ⟨hset, -⟩ := h.recalculate hm hst' hD' ho hρ'
    have hmem : s ∈ t.config.symbols := t.mem_symbols_of_typed (t.linked.typed s hty) hty
    rw [(hset.good.done s (hset.valid s hmem) (Set.notMem_empty s)).curr, hval]
  · intro hreject
    unfold symSetTristateValue at hreject ⊢
    dsimp only at hreject ⊢
    split_ifs at hreject ⊢
    rfl

section Example

/-- The state of a tree with some user values, once everything is computed. -/
def settled (t : ParsedTree) (st : State) : State :=
  calcAll t.config t.config.symbols (symClearAllValid t.config st)

theorem symSetTristateValue_correct_choiceTree :
    (symSetTristateValue choiceTree.config (named ['L']) .yes
        (settled choiceTree (.setYes [named ['A']]))).1 = true ∧
      ((calcAll choiceTree.config choiceTree.config.symbols (symClearAllValid choiceTree.config
        (symSetTristateValue choiceTree.config (named ['L']) .yes
          (settled choiceTree (.setYes [named ['A']]))).2)).curr (named ['L'])).tri = .yes := by
  have h : choiceTree.Tidy := choiceTree_regular.toTidy
  have hm : choiceTree.config.type modulesSym = .unknown := by decide +kernel
  have ho : ∀ s, s ∈ choiceTree.config.symbols ↔ s ∈ choiceTree.config.symbols := fun _ => Iff.rfl
  have hproper := State.setYes_proper choiceTree.config [named ['A']]
  have hown := State.setYes_ownMembers choiceTree.config [named ['A']]
  obtain ⟨hst, hdata⟩ := recalculated_proper h hm hproper hown ho
  have hD : (settled choiceTree (.setYes [named ['A']])).data.OwnMembers choiceTree.config := by
    rw [settled, hdata]
    exact hown
  have hmod : (settled choiceTree (.setYes [named ['A']])).modulesVal = .no :=
    congrArg UserData.modulesVal hdata
  have hl : (choiceTree.config.type (named ['L'])).isLogic = true := by decide +kernel
  have hshown : (settled choiceTree (.setYes [named ['A']])).visible (named ['L']) ≠ .no := by
    decide +kernel
  have haccept : (symSetTristateValue choiceTree.config (named ['L']) .yes
      (settled choiceTree (.setYes [named ['A']]))).1 = true := by decide +kernel
  exact ⟨haccept, (symSetTristateValue_correct h hm hst hD hmod
    (recalculated_fixed h hm hproper hown ho) rfl hl .yes (fun _ _ => hshown) ho).1 haccept⟩

/-- A member whose prompt is outside its choice. -/
def outsideTree : ParsedTree where
  block := .choice 0 [.prompt ['c'] (some (.symbol .no))]
    (.config ⟨['M'], by decide⟩ false [.type .boolean none] .nil)
    (.config ⟨['M'], by decide⟩ false [.prompt ['m'] none] .nil)
  choices_nodup := by decide
  named := by decide

/-- A member that has no visible prompt, and a default outside its choice. -/
def hiddenTree : ParsedTree where
  block := .choice 0 [.prompt ['c'] none, .optional]
    (boolOption ['T'] [] (.config nameS false
      [.type .boolean (some (['s'], some (.symbol .no)))] .nil))
    (.config nameS false
      [.default (.symbol .yes) (some (.not (.symbol (named ['T']))))] .nil)
  choices_nodup := by decide
  named := by decide

/-- A choice has an old user value that does not count. -/
def hiddenState : State :=
  { State.initial with
    user := fun s => if s = .choice 0 then ⟨.null, .yes⟩ else ⟨.null, .no⟩ }

/-- Members after their choice, and `S` after `T`. -/
def memberRank (s : Sym) : ℕ :=
  if s.isStatic then 0 else if s.isChoice then 1 else if s = .config nameS then 3 else 2

theorem hiddenTree_regular : hiddenTree.Regular :=
  ParsedTree.regular_of_symbols memberRank (by decide +kernel) (by decide +kernel)
    (by decide +kernel) (by decide +kernel)

theorem hiddenState_fixed : (settled hiddenTree hiddenState).Fixed hiddenTree.config := by
  have hm : hiddenTree.config.type modulesSym = .unknown := by decide +kernel
  have hst : hiddenState.Proper hiddenTree.config := { State.initial_proper hiddenTree.config with }
  have hD : hiddenState.data.OwnMembers hiddenTree.config := by
    intro k m hm
    simp only [State.data, hiddenState] at hm
    split_ifs at hm
  have ho : ∀ s, s ∈ hiddenTree.config.symbols ↔ s ∈ hiddenTree.config.symbols := fun _ => Iff.rfl
  exact recalculated_fixed hiddenTree_regular.toTidy hm hst hD ho

theorem outsideTree_acyclic : Dependency.Acyclic outsideTree.config.uses := by
  have hrank : ∀ s ∈ outsideTree.config.symbols, ∀ x ∈ outsideTree.config.uses s,
      memberRank x < memberRank s := by decide +kernel
  exact Dependency.acyclic_of_rank memberRank fun s x hx =>
    hrank s (outsideTree.mem_symbols_of_uses fun hnil => by simp [hnil] at hx) x hx

/-- A member whose prompt is outside its choice, and one that is not visible, are set to `y` and
become `n`. -/
theorem symSetTristateValue_lost :
    (Dependency.Acyclic outsideTree.config.uses ∧
      outsideTree.config.type modulesSym = .unknown ∧
      (settled outsideTree .initial).Fixed outsideTree.config ∧
      (symSetTristateValue outsideTree.config (named ['M']) .yes
        (settled outsideTree .initial)).1 = true ∧
      ((calcAll outsideTree.config outsideTree.config.symbols (symClearAllValid outsideTree.config
        (symSetTristateValue outsideTree.config (named ['M']) .yes
          (settled outsideTree .initial)).2)).curr (named ['M'])).tri = .no) ∧
    hiddenTree.Regular ∧ hiddenTree.config.type modulesSym = .unknown ∧
      (settled hiddenTree hiddenState).Fixed hiddenTree.config ∧
      (symSetTristateValue hiddenTree.config (named ['S']) .yes
        (settled hiddenTree hiddenState)).1 = true ∧
      ((calcAll hiddenTree.config hiddenTree.config.symbols (symClearAllValid hiddenTree.config
        (symSetTristateValue hiddenTree.config (named ['S']) .yes
          (settled hiddenTree hiddenState)).2)).curr (named ['S'])).tri = .no :=
  ⟨⟨outsideTree_acyclic, by decide +kernel,
    ⟨outsideTree.config.symbols, fun _ => Iff.rfl, by decide +kernel⟩, by decide +kernel,
    by decide +kernel⟩, hiddenTree_regular, by decide +kernel, hiddenState_fixed,
    by decide +kernel, by decide +kernel⟩

end Example

end Grasshopper.Kconfig
