import Grasshopper.Kconfig.Conf.Moves
import Grasshopper.Kconfig.Symbol.Order

/-! # What `conf` leaves without an answer

The last pass of `check_conf` asks nothing, so every option it has seen has an answer. It does not
look below a choice, and `conf_choice` asks for only one of the options below the selected member.
-/

namespace Grasshopper.Kconfig

/-- The symbol of the entry at the head of a chain. -/
def Menus.sym? : Menus → Option Sym
  | nil => none
  | node e _ _ => e.sym

/-- The entries of a tree, each with those it is under, the outermost first. -/
def Menus.paths : Menus → List (List Menus × Menus)
  | nil => []
  | node e l n =>
    ([], node e l n) :: (l.paths.map fun x => (node e l n :: x.1, x.2)) ++ n.paths

namespace Conf

open Program

section Open
variable (cfg : Config)

/-- An option can be answered at an entry: the entry and all it is under are visible. -/
structure Open (st : State) (s : Sym) (x : List Menus × Menus) : Prop where
  sym : x.2.sym? = some s
  shown : ∀ m ∈ x.1 ++ [x.2], (menuIsVisible cfg m st).1 = true
  changable : symIsChangable s (menuIsVisible cfg x.2 st).2 = true

instance (st : State) (s : Sym) (x : List Menus × Menus) : Decidable (Open cfg st s x) :=
  decidable_of_iff (x.2.sym? = some s ∧
      (∀ m ∈ x.1 ++ [x.2], (menuIsVisible cfg m st).1 = true) ∧
      symIsChangable s (menuIsVisible cfg x.2 st).2 = true)
    ⟨fun h => ⟨h.1, h.2.1, h.2.2⟩, fun h => ⟨h.sym, h.shown, h.changable⟩⟩

/-- Every option that can be answered has an answer. -/
def Complete (st : State) : Prop :=
  ∀ s, cfg.isChoiceValue s = false → (∃ x ∈ (rootMenu cfg).paths, Open cfg st s x) →
    st.isNew s = false

end Open

/-- The entry is not below a choice. -/
def Outside (x : List Menus × Menus) : Prop :=
  ∀ m ∈ x.1, ∀ s, m.sym? = some s → s.isChoice = false

instance (x : List Menus × Menus) : Decidable (Outside x) :=
  decidable_of_iff (∀ m ∈ x.1, ∀ s ∈ m.sym?, s.isChoice = false) Iff.rfl

section Rules
variable {α : Type} {w w' : World} {u : Unit}

@[simp] theorem returns_onState {f : State → α × State} {a : α} :
    Returns (onState f) w a w' ↔ (f w.st).1 = a ∧ { w with st := (f w.st).2 } = w' := by
  simp [onState]

@[simp] theorem returns_when {c : Prop} [Decidable c] {p : Walk Unit} :
    Returns (when c p) w u w' ↔ c ∧ Returns p w u w' ∨ ¬c ∧ w = w' := by
  unfold when
  by_cases hc : c
  · simp [hc]
  · simp [hc]

end Rules

/-! ## A pass that asks nothing -/

section Quiet
variable {t : ParsedTree} (ord : Orderly t.config) (hmod : t.config.type modulesSym = .unknown)

/-- What is known after a walk over some entries that asked nothing. -/
structure Quiet (cfg : Config) (st st' : State) (xs : List (List Menus × Menus)) : Prop where
  later : Later cfg st st'
  answered : ∀ T, Later cfg st' T → ∀ x ∈ xs, Outside x → ∀ s, cfg.isChoiceValue s = false →
    Open cfg T s x → T.isNew s = false

include hmod in
/-- Once a symbol is evaluated, `sym_is_changable` stays what it is. -/
theorem symIsChangable_later {st st' : State} (hst : st.AtRest t.config) (h : Later t.config st st')
    {s : Sym} (hs : t.config.isChoiceValue s = false) (hv : st.valid s = true) :
    symIsChangable s st' = symIsChangable s st := by
  have hfields : st'.visible s = st.visible s ∧ st'.revTri s = st.revTri s := by
    by_cases hty : t.config.type s = .unknown
    · exact ⟨h.went.untouched.visible s hty, h.went.untouched.reverse s hty⟩
    · have known {st : State} (hst : st.AtRest t.config) (hv : st.valid s = true) (f : Fact)
          (hf : f.sym = s) (hp : f.Proper t.config) : f.Known t.config ∅ st :=
        hst.known f (.inr ⟨hp, hf ▸ hty, hf ▸ hv, Set.notMem_empty _⟩)
      have hk := known hst hv (.visible s) rfl trivial
      have hk' := known h.atRest (h.valid hv) (.visible s) rfl trivial
      have hr := known hst hv (.reverse s) rfl trivial
      have hr' := known h.atRest (h.valid hv) (.reverse s) rfl trivial
      have hm : st'.data.modulesVal = st.data.modulesVal := h.went.untouched.modulesVal hmod
      constructor
      · rw [hk'.holds hmod, hk.holds hmod, visibleTri_of_modulesVal hm]
        exact visibleTri_congr fun x hx => h.curr (hk.closed x hx).1
      · rw [hr'.holds hmod hs, hr.holds hmod hs, reverseTri_of_modulesVal hm]
        exact reverseTri_congr fun x hx => h.curr (hr.closed x hx).1
  rw [symIsChangable, symIsChangable, hfields.1, hfields.2]

include ord hmod

theorem checkAll_quiet {ask : ℕ → Menus → Walk Unit}
    (hask : ∀ i m, (∀ e ∈ m.preorder, e.Fits t.config) → Leads (Goes t.config) (ask i m))
    {m : Menus} (hm : ∀ e ∈ m.preorder, e.Fits t.config) {parent : ℕ × Menus}
    (hp : ∀ e ∈ parent.2.preorder, e.Fits t.config) {i : ℕ} {w w' : World}
    (hw : w.st.AtRest t.config) (hr : Returns (checkAll t.config ask m parent i) w () w')
    (hcnt : w'.confCnt = 0) : Quiet t.config w.st w'.st m.paths := by
  induction m generalizing parent i w w' with
  | nil =>
    unfold checkAll at hr
    obtain ⟨-, rfl⟩ := returns_pure.mp hr
    exact ⟨.refl hw, fun _ _ x hx => (List.not_mem_nil hx).elim⟩
  | node e l n ihl ihn =>
    have hm' := hm
    simp only [Menus.preorder_node, List.forall_mem_cons, List.forall_mem_append] at hm'
    unfold checkAll at hr
    obtain ⟨⟨⟩, w₁, hfirst, hnext⟩ := returns_bind.mp hr
    have hcnt₁ : w₁.confCnt = 0 := by
      have := ((checkConf_leads hask hm'.2.2).2 parent hp _ hnext).count
      omega
    suffices hq : Quiet t.config w.st w₁.st
        (([], .node e l n) :: l.paths.map fun x => (.node e l n :: x.1, x.2)) by
      have hq' := ihn hm'.2.2 hp hq.later.atRest hnext hcnt
      refine ⟨hq.later.trans hq'.later, fun T hT x hx => ?_⟩
      rcases List.mem_append.mp hx with hx | hx
      · exact hq.answered T (hq'.later.trans hT) x hx
      · exact hq'.answered T hT x hx
    clear hnext hr
    obtain ⟨hl, hagain⟩ := menuIsVisible_settles ord hm hw
    have hvalid {s : Sym} := menuIsVisible_valid ord hm hw (s := s)
    unfold checkEntry at hfirst
    obtain ⟨visible, w₂, hvis, hfirst⟩ := returns_bind.mp hfirst
    obtain ⟨rfl, rfl⟩ := returns_onState.mp hvis
    rcases hv : menuIsVisible t.config (.node e l n) w.st with ⟨visible, st₁⟩
    rw [hv] at hl hagain hvalid hfirst
    dsimp only at hl hagain hvalid hfirst
    -- whatever can be answered here is under a visible entry
    have shown {T : State} (hT : Later t.config st₁ T) {x} (hx : x ∈ ([], Menus.node e l n) ::
        l.paths.map fun x => (Menus.node e l n :: x.1, x.2)) {s} (ho : Open t.config T s x) :
        visible = true := by
      have hnode : Menus.node e l n ∈ x.1 ++ [x.2] := by
        rcases List.mem_cons.mp hx with rfl | hx
        · simp
        · obtain ⟨y, -, rfl⟩ := List.mem_map.mp hx
          simp
      simpa [hagain T hT] using ho.shown _ hnode
    have below {T : State} {x} {s} (ho : Open t.config T s (Menus.node e l n :: x.1, x.2)) :
        Open t.config T s x :=
      ⟨ho.sym, fun m hm => ho.shown m (List.mem_cons_of_mem _ hm), ho.changable⟩
    cases visible with
    | false =>
      obtain ⟨-, rfl⟩ := returns_pure.mp hfirst
      exact ⟨hl, fun T hT x hx _ s _ ho => by cases shown hT hx ho⟩
    | true =>
      rw [if_neg (by simp)] at hfirst
      have hparent : ∀ x ∈ (if isMenu e = true then (i, Menus.node e l n) else parent).2.preorder,
          x.Fits t.config := by
        split_ifs
        · exact hm
        · exact hp
      cases hs : e.sym with
      | none =>
        simp only [hs] at hfirst
        have hq := ihl hm'.2.1 hparent hl.atRest hfirst hcnt₁
        refine ⟨hl.trans hq.later, fun T hT x hx hout s hmem ho => ?_⟩
        rcases List.mem_cons.mp hx with rfl | hx
        · simpa [Menus.sym?, hs] using ho.sym
        · obtain ⟨y, hy, rfl⟩ := List.mem_map.mp hx
          exact hq.answered T hT y hy (fun m hm => hout m (List.mem_cons_of_mem _ hm)) s hmem
            (below ho)
      | some u =>
        simp only [hs] at hfirst
        obtain ⟨w₃, w₄, hget, hfirst⟩ := returns_bind.mp hfirst
        obtain ⟨rfl, rfl⟩ := returns_getState.mp hget
        obtain ⟨⟨⟩, w₅, hwhen, hfirst⟩ := returns_bind.mp hfirst
        obtain ⟨w₆, w₇, hget, hfirst⟩ := returns_bind.mp hfirst
        obtain ⟨rfl, rfl⟩ := returns_getState.mp hget
        have hlater : w₅.confCnt ≤ w₁.confCnt :=
          (when_leads ((checkConf_leads hask hm'.2.1).2 _ hparent _) hfirst).count
        rcases returns_when.mp hwhen with ⟨-, hask'⟩ | ⟨hseen, rfl⟩
        · have := restart_count (hask _ _ hparent) hask'
          omega
        · have hseen' (T : State) (hT : Later t.config st₁ T) (hu : t.config.isChoiceValue u = false)
              (hc : symIsChangable u T = true) : T.isNew u = false := by
            rw [symIsChangable_later hmod hl.atRest hT hu (hvalid hs rfl)] at hc
            rw [hT.went.keeps.isNew]
            simpa [hc] using hseen
          have head {T : State} (hT : Later t.config st₁ T) {s} (hmem : t.config.isChoiceValue s = false)
              (ho : Open t.config T s ([], .node e l n)) : T.isNew s = false := by
            have hsym : e.sym = some s := ho.sym
            obtain rfl : u = s := Option.some.inj (hs.symm.trans hsym)
            refine hseen' T hT hmem ?_
            have hc := ho.changable
            rwa [hagain T hT] at hc
          rcases returns_when.mp hfirst with ⟨-, hall⟩ | ⟨hchoice, rfl⟩
          · have hq := ihl hm'.2.1 hparent hl.atRest hall hcnt₁
            refine ⟨hl.trans hq.later, fun T hT x hx hout s hmem ho => ?_⟩
            rcases List.mem_cons.mp hx with rfl | hx
            · exact head (hq.later.trans hT) hmem ho
            · obtain ⟨y, hy, rfl⟩ := List.mem_map.mp hx
              exact hq.answered T hT y hy (fun m hm => hout m (List.mem_cons_of_mem _ hm)) s hmem
                (below ho)
          · refine ⟨hl, fun T hT x hx hout s hmem ho => ?_⟩
            rcases List.mem_cons.mp hx with rfl | hx
            · exact head hT hmem ho
            · obtain ⟨y, hy, rfl⟩ := List.mem_map.mp hx
              have hno := hout _ List.mem_cons_self u hs
              simp [hno] at hchoice

/-- The `do` loop of `main` ends with a pass that asks nothing. -/
theorem checkLoop_quiet {w w' : World} (hw : w.st.Sound t)
    (hr : Returns (checkLoop t.config) w () w') :
    ∃ st, Quiet t.config st w'.st (rootMenu t.config).paths := by
  have hconf (i : ℕ) (m : Menus) (hm : ∀ e ∈ m.preorder, e.Fits t.config) :
      Leads (Goes t.config) (confMenu t.config i m) := confAt_leads _ i hm
  have hfits := rootMenu_fits t
  have hcheck : Leads (Goes t.config) (checkRoot t.config) :=
    (checkConf_leads hconf hfits).1 (0, rootMenu t.config) hfits 0
  -- the counter is reset in each round, so only the symbols are followed
  have hround : Leads (fun w w' => w.st.Sound t → w'.st.Sound t) (do
      modifyState fun w => { w with confCnt := 0 }
      checkRoot t.config
      let w ← getState
      pure (if w.confCnt = 0 then some () else none)) := by
    intro w a w' hr hw
    obtain ⟨⟨⟩, w₁, hreset, hr⟩ := returns_bind.mp hr
    obtain rfl := returns_modifyState.mp hreset
    obtain ⟨⟨⟩, w₂, hpass, hr⟩ := returns_bind.mp hr
    obtain ⟨w₃, w₄, hget, hr⟩ := returns_bind.mp hr
    obtain ⟨rfl, rfl⟩ := returns_getState.mp hget
    obtain ⟨-, rfl⟩ := returns_pure.mp hr
    exact (hcheck hpass).sound ord hw
  obtain ⟨w₀, hagain, hlast⟩ := hr.of_loop
  have hw₀ : w₀.st.Sound t := by
    have : IsPreorder World fun w w' => w.st.Sound t → w'.st.Sound t :=
      { refl := fun _ h => h, trans := fun _ _ _ h h' hw => h' (h hw) }
    exact hround.again hagain hw
  obtain ⟨⟨⟩, w₁, hreset, hlast⟩ := returns_bind.mp hlast
  obtain rfl := returns_modifyState.mp hreset
  obtain ⟨⟨⟩, w₂, hpass, hlast⟩ := returns_bind.mp hlast
  obtain ⟨w₃, w₄, hget, hlast⟩ := returns_bind.mp hlast
  obtain ⟨rfl, rfl⟩ := returns_getState.mp hget
  obtain ⟨hcnt, rfl⟩ := returns_pure.mp hlast
  have hall : Returns (checkAll t.config (confMenu t.config) (rootMenu t.config)
      (0, rootMenu t.config) 0) { w₀ with confCnt := 0 } () w₂ := by
    rw [rootMenu, checkAll]
    refine returns_bind.mpr ⟨(), w₂, hpass, ?_⟩
    rw [checkAll]
    exact returns_pure.mpr ⟨rfl, rfl⟩
  have hrest : State.AtRest t.config ({ w₀ with confCnt := 0 } : World).st := hw₀.rest
  refine ⟨_, checkAll_quiet ord hmod hconf hfits hfits hrest hall ?_⟩
  by_contra hne
  rw [if_neg hne] at hcnt
  cases hcnt

end Quiet

section Example

/-- A choice whose first member has two options below it, and one option outside it. -/
def nestedTree : ParsedTree where
  block := .choice 0 [.prompt ['c'] none]
    (boolOption ['A'] [] (boolOption ['P'] [.config nameA] (boolOption ['Q'] [.config nameA]
      (boolOption ['B'] [] .nil nameB.free))) nameA.free) (boolOption ['R'] [] .nil)
  choices_nodup := by decide
  named := by decide

/-- What `conf_read` makes of an empty file. -/
def readEmpty (t : ParsedTree) : State :=
  match confRead t.config [] State.initial with
  | .ok st => st
  | .error _ => .initial

/-- `conf` is started. -/
def World.start (inputMode : InputMode) (stdin : Text) (st : State) : World where
  st := st
  inputMode := inputMode
  validStdin := true
  stdin := stdin
  random _ := 0
  confCnt := 0
  rootEntry := none

theorem confRead_readEmpty (t : ParsedTree) :
    confRead t.config [] State.initial = .ok (readEmpty t) := rfl

theorem nestedTree_regular : nestedTree.Regular :=
  ParsedTree.regular_of_symbols
    (fun s => if s.isStatic then 0 else if s.isChoice then 1
      else if s = named ['A'] ∨ s = named ['B'] then 2 else 3)
    (by decide +kernel) (by decide +kernel) (by decide +kernel) (by decide +kernel)

end Example

end Conf

end Grasshopper.Kconfig
