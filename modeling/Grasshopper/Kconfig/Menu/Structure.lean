import Grasshopper.Kconfig.Menu.Inherited

/-! # What the finalized tree is made of

The symbols of its conditions are in the symbol table. A choice occurs only in the conditions
under it, as an operand of each.
-/

namespace Grasshopper.Kconfig

/-! ## The symbols of a written block -/

/-- The symbols of the value of a property. -/
def PropExpr.syms : PropExpr → List Sym
  | null => []
  | expr e => e.syms
  | range lo hi => [lo, hi]

/-- All symbols in the conditions and values of an entry satisfy `Q`. -/
structure Entry.Over (Q : Sym → Prop) (e : Entry) : Prop where
  dep : ∀ x ∈ optSyms e.dep, Q x
  visible : ∀ p ∈ e.props, ∀ x ∈ optSyms p.visible, Q x
  expr : ∀ p ∈ e.props, ∀ x ∈ p.expr.syms, Q x

theorem menuCheckDep_syms (e : Expr) :
    ∀ x ∈ (menuCheckDep e).syms, x ∈ e.syms ∨ x = modulesSym := by
  induction e with
  | symbol s =>
    unfold menuCheckDep
    split_ifs with hs
    · simp [Expr.syms]
    · exact fun x hx => .inl hx
  | not e ih => exact ih
  | and l r ihl ihr | or l r ihl ihr =>
    intro x hx
    simp only [menuCheckDep, Expr.syms, List.mem_append] at hx ⊢
    rcases hx with hx | hx
    · exact (ihl x hx).imp_left .inl
    · exact (ihr x hx).imp_left .inr
  | equal a b | unequal a b => exact fun x hx => .inl hx

theorem optSyms_allocAnd (a b : Option Expr) :
    optSyms (exprAllocAnd a b) = optSyms a ++ optSyms b := by
  cases a <;> cases b <;> simp [exprAllocAnd, optSyms, Expr.syms]

namespace Entry.Over
variable {Q : Sym → Prop} (hQ : Q modulesSym)
include hQ

theorem addDep {e : Entry} (h : e.Over Q) {dep : Expr} (hd : ∀ x ∈ dep.syms, Q x) :
    (menuAddDep menuCheckDep e dep).Over Q where
  dep x hx := by
    simp only [menuAddDep, optSyms_allocAnd, List.mem_append] at hx
    rcases hx with hx | hx
    · exact h.dep x hx
    · rcases menuCheckDep_syms dep x hx with hx | rfl
      · exact hd x hx
      · exact hQ
  visible := h.visible
  expr := h.expr

theorem addProp {e : Entry} (h : e.Over Q) {type : PropType} {text : Option Text}
    {expr : PropExpr} {dep : Option Expr} (hx : ∀ x ∈ expr.syms, Q x)
    (hd : ∀ x ∈ optSyms dep, Q x) : (menuAddProp menuCheckDep type text expr dep e).Over Q where
  dep := h.dep
  visible p hp x hx' := by
    simp only [menuAddProp, List.mem_append, List.mem_singleton] at hp
    rcases hp with hp | rfl
    · exact h.visible p hp x hx'
    · cases dep with
      | none => simp [optSyms] at hx'
      | some d =>
        rcases menuCheckDep_syms d x hx' with hx' | rfl
        · exact hd x hx'
        · exact hQ
  expr p hp x hx' := by
    simp only [menuAddProp, List.mem_append, List.mem_singleton] at hp
    rcases hp with hp | rfl
    · exact h.expr p hp x hx'
    · exact hx x hx'

theorem add {e : Entry} (h : e.Over Q) {o : ConfigOption} (ho : ∀ x ∈ o.lookups, Q x) :
    (o.add menuCheckDep e).Over Q := by
  cases o with
  | type t p =>
    cases p with
    | none => exact h
    | some p => exact h.addProp hQ (by simp [PropExpr.syms]) ho
  | defType t value cond | default value cond =>
    simp only [ConfigOption.lookups, List.mem_append] at ho
    exact h.addProp hQ (fun x hx => ho x (.inl hx)) fun x hx => ho x (.inr hx)
  | prompt text cond => exact h.addProp hQ (by simp [PropExpr.syms]) ho
  | select sym cond =>
    simp only [ConfigOption.lookups, List.mem_append, List.mem_singleton] at ho
    exact h.addProp hQ (fun x hx => ho x (.inr (by simpa [PropExpr.syms, Expr.syms] using hx)))
      fun x hx => ho x (.inl hx)
  | range lo hi cond =>
    simp only [ConfigOption.lookups, List.mem_cons] at ho
    exact h.addProp hQ (fun x hx => ho x (by simp [PropExpr.syms] at hx; tauto))
      fun x hx => ho x (.inr (.inr hx))
  | depends dep => exact h.addDep hQ ho

theorem foldl_add {e : Entry} (h : e.Over Q) {options : List ConfigOption}
    (ho : ∀ o ∈ options, ∀ x ∈ o.lookups, Q x) :
    (options.foldl (fun e o => o.add menuCheckDep e) e).Over Q := by
  induction options generalizing e with
  | nil => exact h
  | cons o options ih =>
    rw [List.forall_mem_cons] at ho
    exact ih (h.add hQ ho.1) ho.2

theorem foldl_addDep {e : Entry} (h : e.Over Q) {deps : List Expr}
    (hd : ∀ d ∈ deps, ∀ x ∈ d.syms, Q x) : (deps.foldl (menuAddDep menuCheckDep) e).Over Q := by
  induction deps generalizing e with
  | nil => exact h
  | cons d deps ih =>
    rw [List.forall_mem_cons] at hd
    exact ih (h.addDep hQ hd.1) hd.2

end Entry.Over

theorem setMenuPrompt_mem (ps : List Property) :
    ∀ p ∈ setMenuPrompt ps, ∃ q ∈ ps, p.visible = q.visible ∧ p.expr = q.expr := by
  induction ps with
  | nil => simp [setMenuPrompt]
  | cons q ps ih =>
    unfold setMenuPrompt
    split_ifs
    · rw [List.forall_mem_cons]
      exact ⟨⟨q, by simp⟩, fun p hp => ⟨p, by simp [hp]⟩⟩
    · rw [List.forall_mem_cons]
      refine ⟨⟨q, by simp⟩, fun p hp => ?_⟩
      obtain ⟨r, hr, h⟩ := ih p hp
      exact ⟨r, by simp [hr], h⟩

theorem ChoiceOption.lookups_of_config? {o : ChoiceOption} {o' : ConfigOption}
    (h : o.config? = some o') : ∀ x ∈ o'.lookups, x ∈ o.lookups := by
  cases o with
  | type t p => cases p <;> (cases h; simp [lookups, ConfigOption.lookups])
  | optional => cases h
  | default sym cond =>
    cases h
    simp only [lookups, ConfigOption.lookups, Expr.syms, List.mem_append, List.mem_singleton]
    tauto
  | prompt text cond => cases h; simp [lookups, ConfigOption.lookups]
  | depends dep => cases h; simp [lookups, ConfigOption.lookups]

/-- What an entry mentions was looked up for the block. -/
theorem Block.entry_over (b : Block) {Q : Sym → Prop} (hQ : Q modulesSym)
    (hb : ∀ x ∈ b.lookups, Q x) : ∀ e ∈ b.menus.preorder, e.Over Q := by
  unfold menus
  induction b with
  | nil => simp [menusWith]
  | config name menuconfig options next ih =>
    simp only [lookups, List.mem_cons, List.mem_append, List.mem_flatMap] at hb
    simp only [menusWith, Menus.preorder_node, Menus.preorder_nil, List.nil_append, List.mem_cons,
      forall_eq_or_imp]
    refine ⟨?_, ih fun x hx => hb x (.inr hx)⟩
    have h : Entry.Over Q (options.foldl (fun e (o : ConfigOption) => o.add menuCheckDep e)
        ⟨some (.config name), none, []⟩) :=
      Entry.Over.foldl_add hQ ⟨by simp [optSyms], by simp, by simp⟩
        fun o ho x hx => hb x (.inl (.inr ⟨o, ho, hx⟩))
    unfold configEntry
    split_ifs
    · refine ⟨h.dep, fun p hp x hx => ?_, fun p hp x hx => ?_⟩
      · obtain ⟨q, hq, hv, -⟩ := setMenuPrompt_mem _ p hp
        exact h.visible q hq x (hv ▸ hx)
      · obtain ⟨q, hq, -, he⟩ := setMenuPrompt_mem _ p hp
        exact h.expr q hq x (he ▸ hx)
    · exact h
  | comment text deps next ih =>
    simp only [lookups, List.mem_append, List.mem_flatMap] at hb
    simp only [menusWith, Menus.preorder_node, Menus.preorder_nil, List.nil_append, List.mem_cons,
      forall_eq_or_imp]
    exact ⟨Entry.Over.foldl_addDep hQ ⟨by simp [optSyms], by simp [optSyms], by simp [PropExpr.syms]⟩
      fun d hd x hx => hb x (.inl ⟨d, hd, hx⟩), ih fun x hx => hb x (.inr hx)⟩
  | menu text deps body next ihb ihn =>
    simp only [lookups, List.mem_append, List.mem_flatMap] at hb
    simp only [menusWith, Menus.preorder_node, List.mem_cons, List.mem_append, forall_eq_or_imp]
    exact ⟨Entry.Over.foldl_addDep hQ ⟨by simp [optSyms], by simp [optSyms], by simp [PropExpr.syms]⟩
      fun d hd x hx => hb x (.inl (.inl ⟨d, hd, hx⟩)),
      fun e he => he.elim (ihb (fun x hx => hb x (.inl (.inr hx))) e)
        (ihn (fun x hx => hb x (.inr hx)) e)⟩
  | cond dep body next ihb ihn =>
    simp only [lookups, List.mem_append] at hb
    simp only [menusWith, Menus.preorder_node, List.mem_cons, List.mem_append, forall_eq_or_imp]
    exact ⟨Entry.Over.addDep hQ ⟨by simp [optSyms], by simp, by simp⟩
      fun x hx => hb x (.inl (.inl hx)),
      fun e he => he.elim (ihb (fun x hx => hb x (.inl (.inr hx))) e)
        (ihn (fun x hx => hb x (.inr hx)) e)⟩
  | choice k options body next ihb ihn =>
    simp only [lookups, List.mem_append, List.mem_flatMap] at hb
    simp only [menusWith, Menus.preorder_node, List.mem_cons, List.mem_append, forall_eq_or_imp]
    refine ⟨Entry.Over.foldl_add hQ ⟨by simp [optSyms], by simp [optSyms], by simp [PropExpr.syms]⟩
      fun o ho x hx => ?_, fun e he => he.elim (ihb (fun x hx => hb x (.inl (.inr hx))) e)
        (ihn (fun x hx => hb x (.inr hx)) e)⟩
    obtain ⟨o', ho', ho⟩ := List.mem_filterMap.mp ho
    exact hb x (.inl (.inl ⟨o', ho', ChoiceOption.lookups_of_config? ho x hx⟩))

/-- The symbol of an entry was looked up for the block, or is one of its choices. -/
theorem Block.entry_sym_mem (b : Block) : ∀ e ∈ b.menus.preorder, ∀ s, e.sym = some s →
    s ∈ b.lookups ∨ s ∈ b.choices.map .choice := by
  unfold menus
  induction b with
  | nil => simp [menusWith]
  | config name menuconfig options next ih =>
    simp only [menusWith, Menus.preorder_node, Menus.preorder_nil, List.nil_append, List.mem_cons,
      forall_eq_or_imp, lookups, choices]
    refine ⟨?_, fun e he s hs => (ih e he s hs).imp_left fun h => by simp [h]⟩
    rintro s hs
    rw [configEntry_sym] at hs
    cases hs
    simp
  | comment text deps next ih =>
    simp only [menusWith, Menus.preorder_node, Menus.preorder_nil, List.nil_append, List.mem_cons,
      forall_eq_or_imp, lookups, choices]
    exact ⟨by simp [commentEntry], fun e he s hs => (ih e he s hs).imp_left fun h => by simp [h]⟩
  | menu text deps body next ihb ihn =>
    simp only [menusWith, Menus.preorder_node, List.mem_cons, List.mem_append, forall_eq_or_imp,
      lookups, choices, List.map_append]
    refine ⟨by simp [menuEntry], fun e he s hs => ?_⟩
    rcases he with he | he
    · rcases ihb e he s hs with h | h <;> simp [h]
    · rcases ihn e he s hs with h | h <;> simp [h]
  | cond dep body next ihb ihn =>
    simp only [menusWith, Menus.preorder_node, List.mem_cons, List.mem_append, forall_eq_or_imp,
      lookups, choices, List.map_append]
    refine ⟨by simp [condEntry, menuAddDep], fun e he s hs => ?_⟩
    rcases he with he | he
    · rcases ihb e he s hs with h | h <;> simp [h]
    · rcases ihn e he s hs with h | h <;> simp [h]
  | choice k options body next ihb ihn =>
    simp only [menusWith, Menus.preorder_node, List.mem_cons, List.mem_append, forall_eq_or_imp,
      lookups, choices, List.map_append, List.map_cons, List.cons_append]
    refine ⟨?_, fun e he s hs => ?_⟩
    · rintro s hs
      rw [choiceEntry_sym] at hs
      cases hs
      simp
    · rcases he with he | he
      · rcases ihb e he s hs with h | h <;> simp [h]
      · rcases ihn e he s hs with h | h <;> simp [h]

theorem setTypes_ne {s x : Sym} {options : List ConfigOption} {τ : Sym → SymType}
    (h : setTypes s options τ x ≠ .unknown) : x = s ∨ τ x ≠ .unknown := by
  by_cases hxs : x = s
  · exact .inl hxs
  · exact .inr (by rwa [setTypes_of_ne hxs] at h)

/-- A symbol with a type is one of an entry, or had it before. -/
theorem Block.mem_of_types (b : Block) {τ : Sym → SymType} {s : Sym} (h : b.types τ s ≠ .unknown) :
    s ∈ b.lookups ∨ s ∈ b.choices.map .choice ∨ τ s ≠ .unknown := by
  induction b generalizing τ with
  | nil => exact .inr (.inr h)
  | config name menuconfig options next ih =>
    rcases ih h with h | h | h
    · simp [lookups, h]
    · exact .inr (.inl h)
    · rcases setTypes_ne h with rfl | h
      · simp [lookups]
      · exact .inr (.inr h)
  | comment text deps next ih =>
    rcases ih h with h | h | h
    · simp [lookups, h]
    · exact .inr (.inl h)
    · exact .inr (.inr h)
  | menu text deps body next ihb ihn | cond dep body next ihb ihn =>
    simp only [choices, List.map_append, List.mem_append]
    rcases ihn h with h | h | h
    · simp [lookups, h]
    · exact .inr (.inl (.inr h))
    · rcases ihb h with h | h | h
      · simp [lookups, h]
      · exact .inr (.inl (.inl h))
      · exact .inr (.inr h)
  | choice k options body next ihb ihn =>
    simp only [choices, List.map_append, List.map_cons, List.cons_append, List.mem_cons,
      List.mem_append]
    rcases ihn h with h | h | h
    · simp [lookups, h]
    · exact .inr (.inl (.inr (.inr h)))
    · rcases ihb h with h | h | h
      · simp [lookups, h]
      · exact .inr (.inl (.inr (.inl h)))
      · rcases setTypes_ne h with rfl | h
        · simp
        · exact .inr (.inr h)

/-! ## Conditions under a choice -/

/-- The nearest choice around what is under an entry. -/
def nearestChoice (γ : Option Sym) (e : Entry) : Option Sym :=
  match e.sym with
  | some (.choice k) => some (.choice k)
  | _ => γ

/-- A final condition of an entry under the choice `γ`: no other choice occurs in it. -/
structure Inside (Q : Sym → Prop) (γ : Option Sym) (d : Option Expr) : Prop where
  syms : ∀ x ∈ optSyms d, Q x ∧ (x.isChoice = true → γ = some x)
  guard : ∀ C, γ = some C → C.isChoice = true ∧ ∃ v, d = some v ∧ Guarded C v

/-- The final form of an entry under the choice `γ`. -/
structure Placed (Q : Sym → Prop) (γ : Option Sym) (e e' : Entry) : Prop where
  sym : e'.sym = e.sym
  dep : Inside Q γ e'.dep
  props : List.Forall₂ (fun p p' => p' = { p with visible := p'.visible } ∧
    Inside Q γ p'.visible) e.props e'.props

/-- The types, the reverse dependencies and the lists of the choices. -/
structure Linked (Q : Sym → Prop) (σ : FinState) : Prop where
  typed : ∀ s, σ.type s ≠ .unknown → Q s
  revDep : ∀ T, ∀ x ∈ optSyms (σ.revDep T), Q x
  members : ∀ c m, m ∈ σ.members c → (σ.link m).isSome = true ∧ Q m ∧ m.isStatic = false
  link : ∀ m c, σ.link m = some c → c.isChoice = true ∧ m ∈ σ.members c ∧ Q c

/-- A condition as it is written: it names no choice. -/
def Written (Q : Sym → Prop) (d : Option Expr) : Prop := ∀ x ∈ optSyms d, Q x ∧ x.isChoice = false

section Inside
variable {Q : Sym → Prop} (hQ : ∀ x, x.isStatic = true → Q x) {γ : Option Sym} {d w : Option Expr}
  {τ : Sym → SymType}

theorem not_isChoice_of_isStatic {x : Sym} (h : x.isStatic = true) : x.isChoice = false := by
  cases x <;> simp_all [Sym.isStatic, Sym.isChoice]

include hQ in
theorem Written.transform (h : Written Q w) : Written Q (w.map (exprTransform τ)) := by
  cases w with
  | none => exact h
  | some e =>
    intro x hx
    rcases exprTransformAux_syms τ _ e x hx with hx | hx
    · exact h x hx
    · exact ⟨hQ x hx, not_isChoice_of_isStatic hx⟩

theorem Inside.and (h : Inside Q γ d) (hw : Written Q w) : Inside Q γ (exprAllocAnd d w) where
  syms x hx := by
    rw [optSyms_allocAnd, List.mem_append] at hx
    rcases hx with hx | hx
    · exact h.syms x hx
    · exact ⟨(hw x hx).1, by simp [(hw x hx).2]⟩
  guard C hC := by
    obtain ⟨hch, v, rfl, hv⟩ := h.guard C hC
    refine ⟨hch, ?_⟩
    cases w with
    | none => exact ⟨v, rfl, hv⟩
    | some e =>
      refine ⟨_, rfl, hv.and fun hmem => ?_⟩
      simpa [hch] using (hw C hmem).2

include hQ in
theorem Inside.eliminateDups (h : Inside Q γ d) (hτ : (τ .no).isLogic = false) :
    Inside Q γ (d.map (exprEliminateDups τ)) where
  syms := by
    cases d with
    | none => exact h.syms
    | some e =>
      exact (hereditary_syms τ fun x hx =>
        ⟨hQ x hx, by simp [not_isChoice_of_isStatic hx]⟩).eliminateDups e h.syms
  guard C hC := by
    obtain ⟨hch, v, rfl, hv⟩ := h.guard C hC
    exact ⟨hch, _, rfl, hv.eliminateDups hch hτ⟩

theorem Inside.transBool (h : Inside Q γ d) : Inside Q γ (d.map (exprTransBool τ)) where
  syms := by
    cases d with
    | none => exact h.syms
    | some e => exact fun x hx => h.syms x (exprTransBool_syms τ e x hx)
  guard C hC := by
    obtain ⟨hch, v, rfl, hv⟩ := h.guard C hC
    exact ⟨hch, _, rfl, hv.transBool⟩

include hQ in
theorem Inside.finalizeVisible (h : Inside Q γ d) (hw : Written Q w) (sym : Option Sym)
    (hτ : (τ .no).isLogic = false) : Inside Q γ (finalizeVisible τ sym d w) := by
  have hel := (h.and (hw.transform (τ := τ) hQ)).eliminateDups hQ hτ
  unfold Grasshopper.Kconfig.finalizeVisible
  cases sym with
  | none => exact hel
  | some s =>
    dsimp only
    split_ifs
    · exact hel.transBool
    · exact hel

include hQ in
theorem finalizeEntry_placed {e : Entry} {σ : FinState} (h : Inside Q γ d)
    (he : e.Over fun x => Q x ∧ x.isChoice = false) (hτ : (σ.type .no).isLogic = false) :
    Placed Q γ e (finalizeEntry d e σ).1 := by
  have hdep := (h.and (Written.transform (τ := σ.type) hQ he.dep)).eliminateDups hQ hτ
  exact ⟨rfl, hdep, List.forall₂_map_right_iff.mpr (List.forall₂_same.mpr fun p hp =>
    ⟨rfl, hdep.finalizeVisible hQ (he.visible p hp) e.sym hτ⟩)⟩

theorem Placed.of_mem {e e' : Entry} (h : Placed Q γ e e') :
    ∀ p' ∈ e'.props, ∃ p ∈ e.props, p' = { p with visible := p'.visible } ∧ Inside Q γ p'.visible := by
  have main {ps ps' : List Property} (h : List.Forall₂ (fun p p' =>
      p' = { p with visible := p'.visible } ∧ Inside Q γ p'.visible) ps ps') :
      ∀ p' ∈ ps', ∃ p ∈ ps, p' = { p with visible := p'.visible } ∧ Inside Q γ p'.visible := by
    induction h with
    | nil => simp
    | cons hp _ ih =>
      rw [List.forall_mem_cons]
      exact ⟨⟨_, List.mem_cons_self, hp⟩, fun p' hp' =>
        (ih p' hp').imp fun q hq => ⟨List.mem_cons_of_mem _ hq.1, hq.2⟩⟩
  exact main h.props

theorem Placed.condition {e e' : Entry} (h : Placed Q γ e e') : Inside Q γ e'.condition := by
  unfold Entry.condition
  cases hp : e'.prompt with
  | none => exact h.dep
  | some p =>
    obtain ⟨q, -, -, hin⟩ := h.of_mem p (List.mem_filter.mp (List.mem_of_getLast? hp)).1
    exact hin

theorem Placed.parentDep {e e' : Entry} (h : Placed Q γ e e') (hs : ∀ s, e.sym = some s → Q s) :
    Inside Q (nearestChoice γ e) (parentDep e') := by
  unfold Grasshopper.Kconfig.parentDep nearestChoice
  rw [h.sym]
  cases he : e.sym with
  | none => exact h.condition
  | some s =>
    cases s with
    | choice k =>
      refine ⟨fun x hx => ?_, fun C hC => ?_⟩
      · obtain rfl : x = .choice k := by simpa [Sym.isChoice, optSyms, Expr.syms] using hx
        exact ⟨hs _ he, fun _ => rfl⟩
      · obtain rfl := Option.some_inj.mp hC
        exact ⟨rfl, _, rfl, .symbol _⟩
    | _ => exact h.condition

end Inside

section Linked
variable {Q : Sym → Prop} (hQ : ∀ x, x.isStatic = true → Q x) {γ : Option Sym} {σ : FinState}

theorem optSyms_allocOr (a b : Option Expr) :
    optSyms (exprAllocOr a b) = optSyms a ++ optSyms b := by
  cases a <;> cases b <;> simp [exprAllocOr, optSyms, Expr.syms]

theorem Linked.addRevDep (h : Linked Q σ) (T : Sym) {e : Option Expr} (he : ∀ x ∈ optSyms e, Q x) :
    Linked Q (σ.addRevDep T e) where
  typed := h.typed
  revDep U x hx := by
    by_cases hU : U = T
    · subst hU
      simp only [FinState.addRevDep, Function.update_self, optSyms_allocOr, List.mem_append] at hx
      exact hx.elim (h.revDep U x) (he x)
    · simp only [FinState.addRevDep, Function.update_of_ne hU] at hx
      exact h.revDep U x hx
  members := h.members
  link := h.link

theorem Linked.addMember (h : Linked Q σ) {c m : Sym} (hc : c.isChoice = true) (hQc : Q c)
    (hQm : Q m ∧ m.isStatic = false) : Linked Q (σ.addMember c m) where
  typed := h.typed
  revDep := h.revDep
  members d x hx := by
    have hlink : (σ.link x).isSome = true ∨ x = m → ((σ.addMember c m).link x).isSome = true := by
      simp only [FinState.addMember]
      by_cases hxm : x = m
      · subst hxm
        cases hl : σ.link x <;> simp [hl]
      · split_ifs <;> simp [hxm]
    by_cases hd : d = c
    · subst hd
      simp only [FinState.addMember, Function.update_self, List.mem_append,
        List.mem_singleton] at hx
      rcases hx with hx | rfl
      · exact ⟨hlink (.inl (h.members d x hx).1), (h.members d x hx).2⟩
      · exact ⟨hlink (.inr rfl), hQm⟩
    · simp only [FinState.addMember, Function.update_of_ne hd] at hx
      exact ⟨hlink (.inl (h.members d x hx).1), (h.members d x hx).2⟩
  link x d hx := by
    have hmem {x d : Sym} (hxd : x ∈ σ.members d) : x ∈ (σ.addMember c m).members d := by
      by_cases hd : d = c
      · subst hd; simp [FinState.addMember, hxd]
      · simpa [FinState.addMember, Function.update_of_ne hd] using hxd
    have hold {x d : Sym} (hx : σ.link x = some d) :
        d.isChoice = true ∧ x ∈ (σ.addMember c m).members d ∧ Q d :=
      ⟨(h.link x d hx).1, hmem (h.link x d hx).2.1, (h.link x d hx).2.2⟩
    simp only [FinState.addMember] at hx
    split_ifs at hx with hnone
    · by_cases hxm : x = m
      · subst hxm
        rw [Function.update_self, Option.some_inj] at hx
        subst hx
        exact ⟨hc, by simp [FinState.addMember], hQc⟩
      · rw [Function.update_of_ne hxm] at hx
        exact hold hx
    · exact hold hx

theorem Linked.setType (h : Linked Q σ) {s : Sym} (hs : Q s) (t : SymType) :
    Linked Q (σ.setType s t) :=
  { h with
    typed x hx := by
      by_cases hxs : x = s
      · exact hxs ▸ hs
      · exact h.typed x (by rwa [← menuSetType_of_ne (τ := σ.type) hxs t]) }

theorem Linked.addSelects {sym : Option Sym} (hs : ∀ s, sym = some s → Q s) (ps : List Property)
    (hps : ∀ p ∈ ps, ∀ x ∈ optSyms p.visible, Q x) (h : Linked Q σ) :
    Linked Q (ps.foldl (addSelect sym) σ) := by
  induction ps generalizing σ with
  | nil => exact h
  | cons p ps ih =>
    rw [List.forall_mem_cons] at hps
    refine ih hps.2 ?_
    unfold addSelect
    split
    · rename_i es s hp hes
      refine h.addRevDep es fun x hx => ?_
      rw [optSyms_allocAnd, List.mem_append] at hx
      rcases hx with hx | hx
      · obtain rfl : x = s := by simpa [optSyms, Expr.syms] using hx
        exact hs x rfl
      · exact hps.1 x hx
    · exact h

include hQ in
theorem finalizeRule_placed (t : ParsedTree) :
    FinalizeRule t.optional (fun σ => TypesGrow σ.type t.config.type)
      (fun _ e => (e.Over fun x => Q x ∧ x.isChoice = false) ∧
        ∀ s, e.sym = some s → Q s ∧ s.isStatic = false)
      nearestChoice (Inside Q) (Placed Q) (Linked Q) (fun _ _ => True) where
  toBackward := backward_typesGrow t.optional _
  final {γ d e σ} hv hd hV hU := by
    have hno : (σ.type .no).isLogic = false := by
      rw [finalizeEntry_type] at hV
      by_cases hty : σ.type .no = .unknown
      · rw [hty]; rfl
      · rw [← hV .no hty, t.type_const rfl]; rfl
    have hp := finalizeEntry_placed hQ hd hv.1 hno
    refine ⟨hp, Linked.addSelects (fun s hs => (hv.2 s hs).1) _ (fun p hp' x hx => ?_) hU⟩
    obtain ⟨q, -, -, hin⟩ := hp.of_mem p hp'
    exact (hin.syms x hx).1
  below hv hR := hR.parentDep fun s hs => (hv.2 s hs).1
  setType {γ e e' σ l} hv hR hl hU := by
    unfold setChoiceType
    split
    · rename_i s m hs hm
      obtain ⟨y, hy, hym⟩ := firstSymbol_mem hm
      rw [← l.map_contexts nearestChoice (nearestChoice γ e)] at hy
      obtain ⟨z, hz, rfl⟩ := List.mem_map.mp hy
      dsimp only
      split_ifs
      · exact (hU.setType (hv.2 s (hR.sym ▸ hs)).1 _).setType ((hl z hz).2 m hym).1 _
      · exact hU
    · exact hU
  addValue {γ e e' γ' x x' σ} hv hR hx hRx hD hU := by
    unfold addChoiceValue
    split
    · rename_i s m hs hm
      split_ifs with hc
      · have hm' := hx.2 m (hRx.sym ▸ hm)
        exact (hU.setType hm'.1 _).addMember hc (hv.2 s (hR.sym ▸ hs)).1 hm'
      · exact hU
    · exact hU
  addRevDep {γ e e' σ} hv hR hU := by
    unfold addChoiceRevDep
    split
    · rename_i k p hs hp
      split_ifs
      · exact hU
      · refine hU.addRevDep _ fun x hx => ?_
        rw [optSyms_allocAnd, List.mem_append] at hx
        rcases hx with hx | hx
        · obtain ⟨q, -, -, hin⟩ := hR.of_mem p (List.mem_filter.mp (List.mem_of_getLast? hp)).1
          exact (hin.syms x hx).1
        · obtain rfl : x = .mod := by simpa [optSyms, Expr.syms] using hx
          exact hQ .mod rfl
    · exact hU
  under _ _ _ _ _ := trivial
  nest _ _ _ _ _ _ _ := trivial

end Linked

/-! ## The finalized tree -/

namespace ParsedTree
variable (t : ParsedTree)

/-- A symbol that an evaluation may meet. -/
def InTable (x : Sym) : Prop := x.isStatic = true ∨ x ∈ t.config.symbols

/-- The parsed entries, with the choice each is under. -/
def places : List (Option Sym × Entry) := t.block.menus.contexts nearestChoice none

theorem inTable_of_lookup {x : Sym} (hx : x ∈ t.lookups) : t.InTable x := by
  by_cases hs : x.isStatic = true
  · exact .inl hs
  · exact .inr ((t.mem_symbols x).mpr ⟨hx, by simpa using hs⟩)

theorem modulesSym_mem_lookups : modulesSym ∈ t.lookups := by simp [lookups]

/-- The symbol of an entry is in the symbol table. -/
theorem entry_inTable : ∀ e ∈ t.block.menus.preorder, ∀ s, e.sym = some s →
    t.InTable s ∧ s.isStatic = false := by
  intro e he s hs
  have hst : s.isStatic = false := by
    have := t.block.entry_sym menuCheckDep e he s hs
    cases s <;> simp_all [Sym.isConst, Sym.isStatic]
  refine ⟨t.inTable_of_lookup ?_, hst⟩
  simp only [lookups, List.mem_append]
  rcases t.block.entry_sym_mem e he s hs with h | h
  · exact .inl (.inr h)
  · exact .inr h

/-- The final entries and the lists of the choices. -/
theorem finalized_placed :
    Finished (Placed t.InTable) (fun _ _ => True) t.places t.finalized.1 ∧
      Linked t.InTable t.finalized.2 := by
  have hover := t.block.entry_over (Q := fun x => t.InTable x ∧ x.isChoice = false)
    ⟨t.inTable_of_lookup t.modulesSym_mem_lookups, rfl⟩
    fun x hx => ⟨t.inTable_of_lookup (by simp [lookups, hx]), t.named x hx⟩
  refine (finalizeRule_placed (Q := t.InTable) (fun x hx => .inl hx) t).finalized (γ := none)
    ⟨by simp [optSyms], by simp⟩
    (fun x hx => ⟨hover _ (Menus.mem_preorder_of_contexts hx),
      t.entry_inTable _ (Menus.mem_preorder_of_contexts hx)⟩)
    (.refl _) ⟨fun s hs => ?_, by simp [initial, optSyms], by simp [initial], by simp [initial]⟩
  refine t.inTable_of_lookup ?_
  rcases t.block.mem_of_types hs with h | h | h
  · simp [lookups, h]
  · simp only [lookups, List.mem_append]
    exact .inr h
  · unfold initialTypes at h
    by_cases h1 : s = targetArchSym
    · cases ht : t.targetArch <;> simp [lookups, initSyms, h1, ht]
    · by_cases h2 : s = versionSym
      · cases ht : t.version <;> simp [lookups, initSyms, h2, ht]
      · simp [Function.update_of_ne h1, Function.update_of_ne h2] at h

theorem linked : Linked t.InTable t.finalized.2 := t.finalized_placed.2

/-- A choice member is in the symbol table. -/
theorem mem_symbols_of_member {c m : Sym} (h : m ∈ t.config.members c) : m ∈ t.config.symbols :=
  have hm := (t.linked.members c m h).2
  hm.1.resolve_left (by simp [hm.2])

/-- A property of a symbol was made by `sym_init`, or belongs to an entry of the symbol. -/
theorem mem_props {s : Sym} {p : Property} (hp : p ∈ t.config.props s) :
    p ∈ initDefault versionSym t.version ++ initDefault targetArchSym t.targetArch ∨
      ∃ γ e, (γ, e) ∈ t.places ∧ e.sym = some s ∧
        ∃ q ∈ e.props, p = { q with visible := p.visible } ∧ Inside t.InTable γ p.visible := by
  change p ∈ t.props s at hp
  simp only [props, List.mem_append, List.mem_flatMap, List.mem_filter, decide_eq_true_eq] at hp
  rcases hp with (hp | hp) | ⟨e', ⟨he', hs⟩, hp⟩
  · split_ifs at hp
    · exact .inl (List.mem_append_left _ hp)
    · simp at hp
  · split_ifs at hp
    · exact .inl (List.mem_append_right _ hp)
    · simp at hp
  · obtain ⟨⟨γ, e⟩, hx, hR⟩ := t.finalized_placed.1.exists_of_mem e' he'
    exact .inr ⟨γ, e, hx, hR.sym ▸ hs, hR.of_mem p hp⟩

theorem initDefault_facts {sym : Sym} {value : Option Text} {p : Property}
    (hp : p ∈ initDefault sym value) :
    p.visible = none ∧ p.text = none ∧ ∃ v, value = some v ∧ p.expr = .expr (.symbol (.lookup v true)) := by
  cases value with
  | none => simp [initDefault] at hp
  | some v =>
    obtain rfl := List.mem_singleton.mp hp
    exact ⟨rfl, rfl, v, rfl, rfl⟩

/-- What a property mentions is in the symbol table. -/
theorem props_inTable {s : Sym} {p : Property} (hp : p ∈ t.config.props s) :
    (∀ x ∈ optSyms p.visible, t.InTable x) ∧ ∀ x ∈ p.expr.syms, t.InTable x := by
  rcases t.mem_props hp with hp | ⟨γ, e, hx, -, q, hq, hpq, hin⟩
  · have main {sym : Sym} {value : Option Text} (hp : p ∈ initDefault sym value)
        (hl : ∀ x ∈ initSyms sym value, x ∈ t.lookups) :
        (∀ x ∈ optSyms p.visible, t.InTable x) ∧ ∀ x ∈ p.expr.syms, t.InTable x := by
      obtain ⟨hv, -, v, rfl, he⟩ := initDefault_facts hp
      rw [hv, he]
      refine ⟨by simp [optSyms], fun x hx => t.inTable_of_lookup (hl x ?_)⟩
      simp only [PropExpr.syms, Expr.syms, List.mem_singleton] at hx
      simp [initSyms, hx]
    rcases List.mem_append.mp hp with hp | hp
    · exact main hp fun x hx => by simp [lookups, hx]
    · exact main hp fun x hx => by simp [lookups, hx]
  · refine ⟨fun x hx => (hin.syms x hx).1, fun x hx' => ?_⟩
    rw [hpq] at hx'
    have hover := t.block.entry_over (Q := t.InTable) (t.inTable_of_lookup t.modulesSym_mem_lookups)
      (fun y hy => t.inTable_of_lookup (by simp [lookups, hy])) e (Menus.mem_preorder_of_contexts hx)
    exact hover.expr q hq x hx'

end ParsedTree

end Grasshopper.Kconfig
