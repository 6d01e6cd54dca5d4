import Grasshopper.Kconfig.Config

/-! # The conditions that `menu_finalize` computes -/

namespace Grasshopper.Kconfig

/-! ## What is written in an entry -/

theorem Menus.map_contexts {Γ : Type} (child : Γ → Entry → Γ) (γ : Γ) (m : Menus) :
    (m.contexts child γ).map Prod.snd = m.preorder := by
  induction m generalizing γ with
  | nil => rfl
  | node e l n ihl ihn => simp [contexts, ihl, ihn]

theorem Menus.mem_preorder_of_contexts {Γ : Type} {child : Γ → Entry → Γ} {γ : Γ} {m : Menus}
    {x : Γ × Entry} (hx : x ∈ m.contexts child γ) : x.2 ∈ m.preorder := by
  rw [← m.map_contexts child γ]
  exact List.mem_map_of_mem hx

section Written
variable (check : Expr → Expr)

@[simp] theorem ConfigOption.add_sym (e : Entry) (o : ConfigOption) :
    (o.add check e).sym = e.sym := by
  cases o with
  | type t p => cases p <;> rfl
  | _ => rfl

@[simp] theorem foldl_add_sym (options : List ConfigOption) (e : Entry) :
    (options.foldl (fun e o => o.add check e) e).sym = e.sym := by
  induction options generalizing e with
  | nil => rfl
  | cons o options ih => rw [List.foldl_cons, ih, ConfigOption.add_sym]

@[simp] theorem configEntry_sym (name : Name) (menuconfig : Bool) (options : List ConfigOption) :
    (configEntry check name menuconfig options).sym = some (.config name) := by
  unfold configEntry
  split_ifs <;> simp

@[simp] theorem choiceEntry_sym (k : ℕ) (options : List ChoiceOption) :
    (choiceEntry check k options).sym = some (.choice k) := by
  simp [choiceEntry]

@[simp] theorem foldl_addDep_sym (deps : List Expr) (e : Entry) :
    (deps.foldl (menuAddDep check) e).sym = e.sym := by
  induction deps generalizing e with
  | nil => rfl
  | cons d deps ih => rw [List.foldl_cons, ih]; rfl

@[simp] theorem foldl_addDep_props (deps : List Expr) (e : Entry) :
    (deps.foldl (menuAddDep check) e).props = e.props := by
  induction deps generalizing e with
  | nil => rfl
  | cons d deps ih => rw [List.foldl_cons, ih]; rfl

/-- No entry is about a constant. -/
theorem Block.entry_sym (b : Block) :
    ∀ e ∈ (b.menusWith check).preorder, ∀ s, e.sym = some s → s.isConst = false := by
  induction b with
  | nil => simp [menusWith]
  | config name menuconfig options next ih =>
    simp only [menusWith, Menus.preorder_node, Menus.preorder_nil, List.nil_append, List.mem_cons,
      forall_eq_or_imp]
    exact ⟨by rintro s hs; rw [configEntry_sym] at hs; cases hs; rfl, ih⟩
  | comment text deps next ih =>
    simp only [menusWith, Menus.preorder_node, Menus.preorder_nil, List.nil_append, List.mem_cons,
      forall_eq_or_imp]
    exact ⟨by simp [commentEntry], ih⟩
  | menu text deps body next ihb ihn =>
    simp only [menusWith, Menus.preorder_node, List.mem_cons, List.mem_append, forall_eq_or_imp]
    exact ⟨by simp [menuEntry], fun e he => he.elim (ihb e) (ihn e)⟩
  | cond dep body next ihb ihn =>
    simp only [menusWith, Menus.preorder_node, List.mem_cons, List.mem_append, forall_eq_or_imp]
    exact ⟨by simp [condEntry, menuAddDep], fun e he => he.elim (ihb e) (ihn e)⟩
  | choice k options body next ihb ihn =>
    simp only [menusWith, Menus.preorder_node, List.mem_cons, List.mem_append, forall_eq_or_imp]
    exact ⟨by rintro s hs; rw [choiceEntry_sym] at hs; cases hs; rfl,
      fun e he => he.elim (ihb e) (ihn e)⟩

end Written

/-! ## `menu_check_dep` -/

namespace Menus

def map (f : Entry → Entry) : Menus → Menus
  | nil => nil
  | node e l n => node (f e) (l.map f) (n.map f)

end Menus

/-- The conditions of a written entry after `menu_check_dep`. -/
def Entry.check (e : Entry) : Entry :=
  { e with
    dep := e.dep.map menuCheckDep
    props := e.props.map fun p => { p with visible := p.visible.map menuCheckDep } }

theorem ConfigOption.add_check (e : Entry) (o : ConfigOption) :
    (o.add id e).check = o.add menuCheckDep e.check := by
  cases o with
  | type t p => cases p <;> simp [add, menuAddProp, Entry.check]
  | depends dep =>
    obtain ⟨sym, d, props⟩ := e
    cases d <;> rfl
  | _ => simp [add, menuAddProp, Entry.check]

theorem foldl_add_check (options : List ConfigOption) (e : Entry) :
    (options.foldl (fun e o => o.add id e) e).check =
      options.foldl (fun e o => o.add menuCheckDep e) e.check := by
  induction options generalizing e with
  | nil => rfl
  | cons o options ih => rw [List.foldl_cons, ih, ConfigOption.add_check]; rfl

theorem foldl_addDep_check (deps : List Expr) (e : Entry) :
    (deps.foldl (menuAddDep id) e).check = deps.foldl (menuAddDep menuCheckDep) e.check := by
  induction deps generalizing e with
  | nil => rfl
  | cons d deps ih =>
    rw [List.foldl_cons, ih]
    obtain ⟨sym, dep, props⟩ := e
    cases dep <;> rfl

theorem setMenuPrompt_check (ps : List Property) :
    (setMenuPrompt ps).map (fun p => { p with visible := p.visible.map menuCheckDep }) =
      setMenuPrompt (ps.map fun p => { p with visible := p.visible.map menuCheckDep }) := by
  induction ps with
  | nil => rfl
  | cons p ps ih =>
    simp only [setMenuPrompt, List.map_cons, List.forall_mem_map]
    split_ifs
    · rfl
    · rw [List.map_cons, ih]

/-- Parsing applies `menu_check_dep` to each written condition, and does nothing else to them. -/
theorem Block.menus_eq_map (b : Block) : b.menus = b.written.map Entry.check := by
  unfold menus written
  induction b with
  | nil => rfl
  | config name menuconfig options next ih =>
    simp only [menusWith, Menus.map, ih]
    congr 1
    have h := foldl_add_check options ⟨some (.config name), none, []⟩
    unfold configEntry
    rw [show (⟨some (.config name), none, []⟩ : Entry).check = ⟨some (.config name), none, []⟩
      from rfl] at h
    rw [← h]
    split_ifs
    · simp [Entry.check, setMenuPrompt_check]
    · rfl
  | comment text deps next ih =>
    simp only [menusWith, Menus.map, ih, commentEntry, foldl_addDep_check]; rfl
  | menu text deps body next ihb ihn =>
    simp only [menusWith, Menus.map, ihb, ihn, menuEntry, foldl_addDep_check]; rfl
  | cond dep body next ihb ihn => simp only [menusWith, Menus.map, ihb, ihn]; rfl
  | choice k options body next ihb ihn =>
    simp only [menusWith, Menus.map, ihb, ihn, choiceEntry, foldl_add_check]; rfl

/-- The literal `m` is no operand of the expression. -/
def Expr.Plain : Expr → Prop
  | symbol s => s ≠ .mod
  | not e => e.Plain
  | and l r | or l r => l.Plain ∧ r.Plain
  | equal _ _ | unequal _ _ => True

/-- The literal `m` is no operand of a condition of the entry. -/
def Entry.Plain (e : Entry) : Prop :=
  (∀ d ∈ e.dep, d.Plain) ∧ ∀ p ∈ e.props, ∀ v ∈ p.visible, v.Plain

theorem menuCheckDep_of_plain {e : Expr} (h : e.Plain) : menuCheckDep e = e := by
  induction e with
  | symbol s => exact if_neg h
  | not e ih => simp only [menuCheckDep, ih h]
  | and l r ihl ihr | or l r ihl ihr => simp only [menuCheckDep, ihl h.1, ihr h.2]
  | equal a b | unequal a b => rfl

theorem Entry.check_of_plain {e : Entry} (h : e.Plain) : e.check = e := by
  have opt {d : Option Expr} (hd : ∀ x ∈ d, x.Plain) : d.map menuCheckDep = d := by
    cases d with
    | none => rfl
    | some x => simp [menuCheckDep_of_plain (hd x rfl)]
  obtain ⟨sym, dep, props⟩ := e
  simp only [check, opt h.1, Entry.mk.injEq, true_and]
  refine (List.map_congr_left fun p hp => ?_).trans (List.map_id props)
  simp only [opt (h.2 p hp), id]

theorem Block.menus_of_plain {b : Block} (h : ∀ e ∈ b.written.preorder, e.Plain) :
    b.menus = b.written := by
  have main {m : Menus} (h : ∀ e ∈ m.preorder, e.Plain) : m.map Entry.check = m := by
    induction m with
    | nil => rfl
    | node e l n ihl ihn =>
      simp only [Menus.preorder_node, List.mem_cons, List.mem_append, forall_eq_or_imp] at h
      simp only [Menus.map, Entry.check_of_plain h.1, ihl fun x hx => h.2 x (.inl hx),
        ihn fun x hx => h.2 x (.inr hx)]
  rw [b.menus_eq_map, main h]

end Grasshopper.Kconfig
