import Grasshopper.Library.Dependency
import Grasshopper.Kconfig.Menu.Inherited
import Grasshopper.Kconfig.Symbol.Calc

/-! # The equations that `sym_calc_value` solves

What the value of a symbol is in terms of the values of the symbols it uses, without an order of
evaluation and without flags.
-/

namespace Grasshopper.Kconfig

namespace Config
variable (cfg : Config)

/-- The symbols of the conditions of the prompts. -/
def promptSyms (s : Sym) : List Sym := (cfg.prompts s).flatMap fun p => optSyms p.visible

/-- The symbols that `sym_calc_visibility` evaluates. -/
def visSyms (s : Sym) : List Sym :=
  cfg.promptSyms s ++ (if cfg.isChoiceValue s then [] else optSyms (cfg.revDep s))

/-- The symbols a choice may select. -/
def candidates (s : Sym) : List Sym :=
  cfg.members s ++ (cfg.defaults s).filterMap (·.getSymbol)

/-- The symbols of a default's condition and of its value. The value of a default says which
member a choice prefers, and is not evaluated. -/
def defaultSyms (s : Sym) (p : Property) : List Sym :=
  optSyms p.visible ++
    (match p.expr with
      | .expr e => if s.isChoice ∧ (cfg.type s).isLogic then [] else e.syms
      | _ => [])

/-- The use relation: what the value of a symbol is computed from. A choice also uses what the
visibility of its candidates depends on, apart from itself. -/
def uses (s : Sym) : List Sym :=
  if s.isStatic ∨ cfg.type s = .unknown then []
  else cfg.visSyms s ++ (cfg.choiceOf s).toList ++ (cfg.defaults s).flatMap (cfg.defaultSyms s) ++
    (if s.isChoice then ((cfg.candidates s).flatMap cfg.visSyms).filter (· ≠ s) else [])

end Config

section Spec
variable (cfg : Config) (D : UserData) (ρ : Sym → SymbolValue)

/-- `prop->visible.tri`. -/
def conditionTri (p : Property) : Tristate := optValue cfg.type ρ p.visible

/-- `sym->visible`. -/
def visibleTri (s : Sym) : Tristate :=
  let tri := maxValue ((cfg.prompts s).map (conditionTri cfg ρ))
  if tri = .mod ∧ (cfg.type s ≠ .tristate ∨ D.modulesVal = .no) then .yes else tri

/-- `sym_get_type`, once the visibility is known. -/
def knownType (s : Sym) : SymType := cfg.getType (visibleTri cfg D ρ s) D.modulesVal s

/-- `sym->rev_dep.tri`. That of a choice member is never computed. -/
def reverseTri (s : Sym) : Tristate :=
  if cfg.isChoiceValue s then .no
  else
    let tri := revValue cfg.type ρ (cfg.revDep s)
    if tri = .mod ∧ knownType cfg D ρ s = .boolean then .yes else tri

/-- The property that `sym_get_default_prop` returns. -/
def activeDefault (s : Sym) : Option Property :=
  (cfg.defaults s).find? fun p => conditionTri cfg ρ p ≠ .no

/-- The value of a default for a bool or tristate symbol. -/
def defaultValue : Option Property → Tristate
  | some p =>
    match p.expr with
    | .expr e => e.value cfg.type ρ
    | _ => .yes
  | none => .no

/-- The value that the visibility of a symbol bounds: the user's, or a default. -/
def ownTri (s : Sym) : Tristate :=
  if !D.isNew s then (D.user s).tri
  else if s.isChoice then .no
  else defaultValue cfg ρ (activeDefault cfg ρ s)

/-- The value before `m` becomes `y` for a bool symbol. -/
def logicTri (s : Sym) : Tristate :=
  let visible := visibleTri cfg D ρ s
  let reverse := reverseTri cfg D ρ s
  if cfg.isChoiceValue s ∧ visible = .yes then
    if (cfg.choiceOf s).any fun c => (ρ c).val = .sym s then .yes else .no
  else if max visible reverse ≠ .no then max (min (ownTri cfg D ρ s) visible) reverse
  else if s.isChoice then .no
  else defaultValue cfg ρ (activeDefault cfg ρ s)

/-- The tristate of a bool or tristate symbol; of a choice, before a member is selected. -/
def newTri (s : Sym) : Tristate :=
  let tri := logicTri cfg D ρ s
  if tri = .mod ∧ knownType cfg D ρ s = .boolean then .yes else tri

/-- The values that the candidates of a choice see while it selects one. -/
def selecting (s : Sym) : Sym → SymbolValue := Function.update ρ s ⟨.text ['n'], .yes⟩

/-- The candidates of a choice in the order in which `sym_calc_choice` looks at them. -/
def preferred (s : Sym) : List Sym :=
  userChoice (D.user s).val ++
    ((cfg.defaults s).filter fun p => conditionTri cfg ρ p ≠ .no).filterMap (·.getSymbol) ++
    cfg.members s

/-- `sym_calc_choice`. -/
def selected (s : Sym) : Option Sym :=
  (preferred cfg D (selecting ρ s) s).find? fun m => visibleTri cfg D (selecting ρ s) m ≠ .no

def logicCurr (s : Sym) : SymbolValue :=
  if s.isChoice ∧ newTri cfg D ρ s = .yes then
    match selected cfg D ρ s with
    | some m => ⟨.sym m, .yes⟩
    | none => ⟨.null, .no⟩
  else ⟨.text ['n'], newTri cfg D ρ s⟩

/-- The value of a default for an int, hex or string symbol. -/
def defaultText : Option Property → Val
  | some p => (p.getSymbol.map fun ds => (ρ ds).val).getD (.text [])
  | none => .text []

def textVal (s : Sym) : Val :=
  if visibleTri cfg D ρ s ≠ .no ∧ !D.isNew s then (D.user s).val
  else defaultText ρ (activeDefault cfg ρ s)

/-- `sym->curr` after `sym_calc_value`. -/
def currOf (s : Sym) : SymbolValue :=
  if s.isStatic then State.initial.curr s
  else if cfg.type s = .unknown then
    ⟨match s.name? with | some n => .text n | none => .null, .no⟩
  else if (cfg.type s).isLogic then logicCurr cfg D ρ s
  else ⟨textVal cfg D ρ s, .no⟩

/-- Whether `sym_calc_value` sets `SYMBOL_WRITE`, for a symbol that has a type. -/
def writes (s : Sym) : Bool :=
  if (cfg.type s).isLogic then
    if cfg.isChoiceValue s ∧ visibleTri cfg D ρ s = .yes then false
    else if max (visibleTri cfg D ρ s) (reverseTri cfg D ρ s) ≠ .no then true
    else !s.isChoice && (activeDefault cfg ρ s).isSome
  else
    visibleTri cfg D ρ s ≠ .no ||
      ((activeDefault cfg ρ s).bind (·.getSymbol)).isSome

end Spec

section Branches
variable {cfg : Config} {D : UserData} {ρ : Sym → SymbolValue} {s : Sym}

theorem logicTri_member (h : cfg.isChoiceValue s = true ∧ visibleTri cfg D ρ s = .yes) :
    logicTri cfg D ρ s =
      if (cfg.choiceOf s).any fun c => (ρ c).val = .sym s then .yes else .no := if_pos h

theorem logicTri_shown (h : ¬(cfg.isChoiceValue s = true ∧ visibleTri cfg D ρ s = .yes))
    (h' : max (visibleTri cfg D ρ s) (reverseTri cfg D ρ s) ≠ .no) :
    logicTri cfg D ρ s = max (min (ownTri cfg D ρ s) (visibleTri cfg D ρ s)) (reverseTri cfg D ρ s) :=
  (if_neg h).trans (if_pos h')

theorem logicTri_hidden (h : max (visibleTri cfg D ρ s) (reverseTri cfg D ρ s) = .no) :
    logicTri cfg D ρ s =
      if s.isChoice then .no else defaultValue cfg ρ (activeDefault cfg ρ s) := by
  have hv : visibleTri cfg D ρ s = .no := by
    rw [← Tristate.le_no_iff, ← h]
    exact le_max_left _ _
  exact (if_neg (by simp [hv])).trans (if_neg (by simp [h]))

theorem currOf_dynamic (hst : s.isStatic = false) (hty : cfg.type s ≠ .unknown) :
    currOf cfg D ρ s =
      if (cfg.type s).isLogic then logicCurr cfg D ρ s else ⟨textVal cfg D ρ s, .no⟩ := by
  rw [currOf, if_neg (by simp [hst]), if_neg hty]

end Branches

/-! ## What the equations depend on -/

section Congruence
variable {cfg : Config} {D : UserData} {ρ ρ' : Sym → SymbolValue}

theorem conditionTri_congr {p : Property} (h : ∀ x ∈ optSyms p.visible, ρ x = ρ' x) :
    conditionTri cfg ρ p = conditionTri cfg ρ' p :=
  optValue_congr _ h

theorem Config.mem_promptSyms {s x : Sym} {p : Property} (hp : p ∈ cfg.prompts s)
    (hx : x ∈ optSyms p.visible) : x ∈ cfg.promptSyms s := List.mem_flatMap.mpr ⟨p, hp, hx⟩

theorem Config.mem_visSyms_of_prompt {s x : Sym} (hx : x ∈ cfg.promptSyms s) :
    x ∈ cfg.visSyms s := List.mem_append_left _ hx

theorem Config.mem_visSyms_of_revDep {s x : Sym} (hs : cfg.isChoiceValue s = false)
    (hx : x ∈ optSyms (cfg.revDep s)) : x ∈ cfg.visSyms s :=
  List.mem_append_right _ (by simpa [hs] using hx)

theorem visibleTri_congr {s : Sym} (h : ∀ x ∈ cfg.promptSyms s, ρ x = ρ' x) :
    visibleTri cfg D ρ s = visibleTri cfg D ρ' s := by
  have hp : (cfg.prompts s).map (conditionTri cfg ρ) = (cfg.prompts s).map (conditionTri cfg ρ') :=
    List.map_congr_left fun p hp => conditionTri_congr fun x hx => h x (cfg.mem_promptSyms hp hx)
  simp only [visibleTri, hp]

theorem reverseTri_congr {s : Sym} (h : ∀ x ∈ cfg.visSyms s, ρ x = ρ' x) :
    reverseTri cfg D ρ s = reverseTri cfg D ρ' s := by
  unfold reverseTri
  split_ifs with hc
  · rfl
  · have hr : revValue cfg.type ρ (cfg.revDep s) = revValue cfg.type ρ' (cfg.revDep s) := by
      cases he : cfg.revDep s with
      | none => rfl
      | some e =>
        exact e.value_congr fun x hx =>
          h x (cfg.mem_visSyms_of_revDep (by simpa using hc) (by rw [he]; exact hx))
    have hk : knownType cfg D ρ s = knownType cfg D ρ' s := by
      rw [knownType, knownType, visibleTri_congr fun x hx => h x (cfg.mem_visSyms_of_prompt hx)]
    simp only [hr, hk]

theorem find?_conditionTri_congr {ps : List Property}
    (h : ∀ p ∈ ps, ∀ x ∈ optSyms p.visible, ρ x = ρ' x) :
    ps.find? (fun p => conditionTri cfg ρ p ≠ .no) =
      ps.find? fun p => conditionTri cfg ρ' p ≠ .no := by
  induction ps with
  | nil => rfl
  | cons p ps ih =>
    rw [List.forall_mem_cons] at h
    simp only [List.find?_cons, conditionTri_congr h.1, ih h.2]

theorem mem_defaults_of_activeDefault {s : Sym} {p : Property}
    (hp : activeDefault cfg ρ s = some p) : p ∈ cfg.defaults s := List.mem_of_find?_eq_some hp

theorem Property.getSymbol_eq_some {p : Property} {s : Sym} :
    p.getSymbol = some s ↔ p.expr = .expr (.symbol s) := by
  unfold getSymbol
  split <;> simp_all

/-- The symbols a choice remembers as the user's are among those it may select. -/
def UserData.Candidates (cfg : Config) (D : UserData) : Prop :=
  ∀ s, s.isChoice → ∀ m ∈ userChoice (D.user s).val, m ∈ cfg.candidates s

theorem mem_candidates_of_default {s m : Sym} {p : Property} (hp : p ∈ cfg.defaults s)
    (hm : p.getSymbol = some m) : m ∈ cfg.candidates s :=
  List.mem_append_right _ (List.mem_filterMap.mpr ⟨p, hp, hm⟩)

theorem mem_candidates_of_preferred (hD : D.Candidates cfg) {s m : Sym} (hs : s.isChoice)
    (hm : m ∈ preferred cfg D ρ s) : m ∈ cfg.candidates s := by
  simp only [preferred, List.mem_append, List.mem_filterMap, List.mem_filter] at hm
  rcases hm with (hm | ⟨p, ⟨hp, -⟩, hm⟩) | hm
  · exact hD s hs m hm
  · exact mem_candidates_of_default hp hm
  · exact List.mem_append_left _ hm

section Uses
variable {s : Sym} (hst : s.isStatic = false) (hty : cfg.type s ≠ .unknown)
include hst hty

theorem uses_eq : cfg.uses s = cfg.visSyms s ++ (cfg.choiceOf s).toList ++
    (cfg.defaults s).flatMap (cfg.defaultSyms s) ++
    (if s.isChoice then ((cfg.candidates s).flatMap cfg.visSyms).filter (· ≠ s) else []) :=
  if_neg (by simp [hst, hty])

theorem mem_uses_of_visSyms {x : Sym} (hx : x ∈ cfg.visSyms s) : x ∈ cfg.uses s := by
  rw [uses_eq hst hty]
  simp only [List.mem_append]
  exact .inl (.inl (.inl hx))

theorem mem_uses_of_choiceOf {x : Sym} (hx : cfg.choiceOf s = some x) : x ∈ cfg.uses s := by
  rw [uses_eq hst hty]
  simp [hx]

theorem mem_uses_of_default {x : Sym} {p : Property} (hp : p ∈ cfg.defaults s)
    (hx : x ∈ cfg.defaultSyms s p) : x ∈ cfg.uses s := by
  rw [uses_eq hst hty]
  simp only [List.mem_append]
  exact .inl (.inr (List.mem_flatMap.mpr ⟨p, hp, hx⟩))

theorem mem_uses_of_candidate (hs : s.isChoice) {m x : Sym} (hm : m ∈ cfg.candidates s)
    (hx : x ∈ cfg.visSyms m) (hxs : x ≠ s) : x ∈ cfg.uses s := by
  rw [uses_eq hst hty, if_pos hs]
  exact List.mem_append_right _ (List.mem_filter.mpr
    ⟨List.mem_flatMap.mpr ⟨m, hm, hx⟩, by simpa using hxs⟩)

end Uses

theorem find?_congr_mem {α : Type} {p q : α → Bool} {l : List α} (h : ∀ a ∈ l, p a = q a) :
    l.find? p = l.find? q := by
  induction l with
  | nil => rfl
  | cons a l ih =>
    rw [List.forall_mem_cons] at h
    simp only [List.find?_cons, h.1, ih h.2]

section Agree
variable {s : Sym} (hst : s.isStatic = false) (hty : cfg.type s ≠ .unknown)
  (h : ∀ x ∈ cfg.uses s, ρ x = ρ' x)
include hst hty h

theorem activeDefault_congr : activeDefault cfg ρ s = activeDefault cfg ρ' s :=
  find?_conditionTri_congr fun _ hp _ hx =>
    h _ (mem_uses_of_default hst hty hp (List.mem_append_left _ hx))

theorem defaultValue_congr (hs : s.isChoice = false) :
    defaultValue cfg ρ (activeDefault cfg ρ s) = defaultValue cfg ρ' (activeDefault cfg ρ' s) := by
  rw [activeDefault_congr hst hty h]
  cases hp : activeDefault cfg ρ' s with
  | none => rfl
  | some p =>
    unfold defaultValue
    dsimp only
    split
    · rename_i e he
      refine e.value_congr fun x hx => h x (mem_uses_of_default hst hty
        (mem_defaults_of_activeDefault hp) (List.mem_append_right _ ?_))
      simpa [he, hs] using hx
    · rfl

theorem newTri_congr : newTri cfg D ρ s = newTri cfg D ρ' s := by
  have hv : visibleTri cfg D ρ s = visibleTri cfg D ρ' s :=
    visibleTri_congr fun x hx => h x (mem_uses_of_visSyms hst hty (cfg.mem_visSyms_of_prompt hx))
  have hr : reverseTri cfg D ρ s = reverseTri cfg D ρ' s :=
    reverseTri_congr fun x hx => h x (mem_uses_of_visSyms hst hty hx)
  have hc : (cfg.choiceOf s).any (fun c => (ρ c).val = .sym s) =
      (cfg.choiceOf s).any fun c => (ρ' c).val = .sym s := by
    cases hc : cfg.choiceOf s with
    | none => rfl
    | some c => simp [h c (mem_uses_of_choiceOf hst hty hc)]
  have hl : logicTri cfg D ρ s = logicTri cfg D ρ' s := by
    unfold logicTri ownTri
    rw [hv, hr, hc]
    by_cases hs : s.isChoice
    · simp only [hs, if_true]
    · rw [defaultValue_congr hst hty h (by simpa using hs)]
  have hk : knownType cfg D ρ s = knownType cfg D ρ' s := by rw [knownType, knownType, hv]
  simp only [newTri, hl, hk]

theorem selected_congr (hD : D.Candidates cfg) (hs : s.isChoice) :
    selected cfg D ρ s = selected cfg D ρ' s := by
  have agree {x : Sym} (hx : x ≠ s → x ∈ cfg.uses s) : selecting ρ s x = selecting ρ' s x := by
    by_cases hxs : x = s
    · subst hxs; simp [selecting]
    · simp [selecting, hxs, h x (hx hxs)]
  have hpref : preferred cfg D (selecting ρ s) s = preferred cfg D (selecting ρ' s) s := by
    have hf : (cfg.defaults s).filter (fun p => conditionTri cfg (selecting ρ s) p ≠ .no) =
        (cfg.defaults s).filter fun p => conditionTri cfg (selecting ρ' s) p ≠ .no :=
      List.filter_congr fun p hp => by
        rw [conditionTri_congr fun x hx => agree fun _ =>
          mem_uses_of_default hst hty hp (List.mem_append_left _ hx)]
    simp only [preferred, hf]
  unfold selected
  rw [hpref]
  refine find?_congr_mem fun m hm => ?_
  rw [visibleTri_congr fun x hx => agree fun hxs =>
    mem_uses_of_candidate hst hty hs (mem_candidates_of_preferred hD hs hm)
      (cfg.mem_visSyms_of_prompt hx) hxs]

end Agree

/-- The value of a symbol depends only on the values of the symbols it uses. -/
theorem currOf_respects (hD : D.Candidates cfg) :
    Dependency.Respects cfg.uses (currOf cfg D) := by
  intro ρ ρ' s h
  unfold currOf
  split_ifs with hst hty hl
  · rfl
  · rfl
  · replace hst : s.isStatic = false := by simpa using hst
    unfold logicCurr
    rw [newTri_congr hst hty h]
    split_ifs with hs
    · rw [selected_congr hst hty h hD hs.1]
    · rfl
  · replace hst : s.isStatic = false := by simpa using hst
    have hv : visibleTri cfg D ρ s = visibleTri cfg D ρ' s :=
      visibleTri_congr fun x hx => h x (mem_uses_of_visSyms hst hty (cfg.mem_visSyms_of_prompt hx))
    have hd : defaultText ρ (activeDefault cfg ρ s) =
        defaultText ρ' (activeDefault cfg ρ' s) := by
      rw [activeDefault_congr hst hty h]
      cases hp : activeDefault cfg ρ' s with
      | none => rfl
      | some p =>
        cases hg : p.getSymbol with
        | none => simp [defaultText, hg]
        | some ds =>
          have hds : ds ∈ cfg.uses s := by
            refine mem_uses_of_default hst hty (mem_defaults_of_activeDefault hp)
              (List.mem_append_right _ ?_)
            have he : p.expr = .expr (.symbol ds) := Property.getSymbol_eq_some.mp hg
            simp [he, hl, Expr.syms]
          simp [defaultText, hg, h ds hds]
    unfold textVal
    rw [hv, hd]

end Congruence

end Grasshopper.Kconfig
