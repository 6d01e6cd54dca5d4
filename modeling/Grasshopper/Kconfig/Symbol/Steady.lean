import Grasshopper.Kconfig.Symbol.Evaluate
import Grasshopper.Kconfig.Symbol.Keep

/-! # Visibilities that are final

In a tree without cycles the visibility of a symbol that is marked `SYMBOL_VALID` agrees with the
values it was computed from, and goes on doing so whatever is evaluated next. This asks less of a
tree than an evaluation with one result.
-/

namespace Grasshopper.Kconfig

/-- The trees in which a visibility is final. -/
structure Orderly (cfg : Config) : Prop where
  acyclic : Dependency.Acyclic cfg.uses
  table : ∀ s, ∀ x ∈ cfg.uses s, x.isStatic = true ∨ x ∈ cfg.symbols
  listed : ∀ s, cfg.type s ≠ .unknown → s ∈ cfg.symbols
  dynamic : ∀ s ∈ cfg.symbols, s.isStatic = false
  typed : ∀ s, s.isChoice = true → cfg.type s ≠ .unknown →
    ∀ m ∈ cfg.candidates s, cfg.type m ≠ .unknown

/-- A field that `sym_calc_visibility` computes. -/
inductive Fact where
  | prompt (u : Sym) (p : Property)
  | visible (u : Sym)
  | reverse (u : Sym)

namespace Fact
variable (cfg : Config)

def sym : Fact → Sym
  | prompt u _ | visible u | reverse u => u

/-- The symbols whose values it is computed from. -/
def syms : Fact → List Sym
  | prompt _ p => optSyms p.visible
  | visible u => cfg.promptSyms u
  | reverse u => cfg.visSyms u

/-- The property is a prompt of the symbol. -/
def Proper : Fact → Prop
  | prompt u p => p ∈ cfg.prompts u
  | _ => True

/-- The field agrees with the current values. What depends on `modules_val` is asked for only where
`MODULES` has no type, and `rev_dep.tri` only of symbols that are no choice members. -/
def Holds (st : State) : Fact → Prop
  | prompt u p => st.promptTri u p = conditionTri cfg st.curr p
  | visible u => cfg.type modulesSym = .unknown → st.visible u = visibleTri cfg st.data st.curr u
  | reverse u => cfg.type modulesSym = .unknown → cfg.isChoiceValue u = false →
      st.revTri u = reverseTri cfg st.data st.curr u

/-- The field is final: nothing it is computed from is in `P`. -/
structure Known (P : Set Sym) (st : State) (f : Fact) : Prop where
  closed : ∀ x ∈ f.syms cfg, st.valid x = true ∧ x ∉ P
  holds : f.Holds cfg st

/-- What is computed for a symbol and does not depend on those of `P`. -/
def of (P : Set Sym) (u : Sym) : Set Fact :=
  {f | f.sym = u ∧ f.Proper cfg ∧ ∀ x ∈ f.syms cfg, x ∉ P}

end Fact

section Definitions
variable (cfg : Config)

/-- The invariant of the evaluation while the symbols of `P` are being computed: the fields in `Q`
are final, and so are those of the symbols that are done. -/
structure Steady (P : Set Sym) (Q : Set Fact) (st : State) : Prop where
  known : ∀ f : Fact, f ∈ Q ∨ (f.Proper cfg ∧ cfg.type f.sym ≠ .unknown ∧
    st.valid f.sym = true ∧ f.sym ∉ P) → f.Known cfg P st
  static : ∀ u, u.isStatic = true → st.valid u = true
  remembered : st.data.Candidates cfg

/-- `modules_val` stays where `MODULES` has no type, and so do the fields of a symbol without a
type. -/
structure Untouched (st st' : State) : Prop where
  modulesVal : cfg.type modulesSym = .unknown → st'.modulesVal = st.modulesVal
  prompt : ∀ u, cfg.type u = .unknown → st'.promptTri u = st.promptTri u
  visible : ∀ u, cfg.type u = .unknown → st'.visible u = st.visible u
  reverse : ∀ u, cfg.type u = .unknown → st'.revTri u = st.revTri u

/-- Some symbols may be evaluated. -/
structure Able (P : Set Sym) (Q : Set Fact) (n : ℕ) (st : State) (xs : List Sym) : Prop where
  steady : Steady cfg P Q st
  evaluable : ∀ x ∈ xs, Evaluable cfg P st x
  fuel : remaining cfg st ≤ n

/-- Some symbols were evaluated. -/
structure Went (P : Set Sym) (Q : Set Fact) (st : State) (xs : List Sym) (st' : State) :
    Prop where
  steady : Steady cfg P Q st'
  keeps : Keeps ∅ st st'
  untouched : Untouched cfg st st'
  computed : st'.Computed xs

/-- What is expected of a nested call. -/
structure Steadies (n : ℕ) (eval : Sym → State → State) : Prop where
  keeps : ∀ A, KeepsMarked A eval
  went : ∀ P Q st x, Able cfg P Q n st [x] → Went cfg P Q st [x] (eval x st)

end Definitions

variable {cfg : Config} {P : Set Sym} {Q Q' : Set Fact} {n : ℕ} {st st' st'' : State}
  {xs ys : List Sym}

theorem Untouched.refl (st : State) : Untouched cfg st st := ⟨fun _ => rfl, fun _ _ => rfl,
  fun _ _ => rfl, fun _ _ => rfl⟩

theorem Untouched.trans (h : Untouched cfg st st') (h' : Untouched cfg st' st'') :
    Untouched cfg st st'' where
  modulesVal hm := (h'.modulesVal hm).trans (h.modulesVal hm)
  prompt u hu := (h'.prompt u hu).trans (h.prompt u hu)
  visible u hu := (h'.visible u hu).trans (h.visible u hu)
  reverse u hu := (h'.reverse u hu).trans (h.reverse u hu)

theorem visibleTri_of_modulesVal {D D' : UserData} (h : D.modulesVal = D'.modulesVal)
    (ρ : Sym → SymbolValue) (u : Sym) : visibleTri cfg D ρ u = visibleTri cfg D' ρ u := by
  simp only [visibleTri, h]

theorem reverseTri_of_modulesVal {D D' : UserData} (h : D.modulesVal = D'.modulesVal)
    (ρ : Sym → SymbolValue) (u : Sym) : reverseTri cfg D ρ u = reverseTri cfg D' ρ u := by
  have hk : knownType cfg D ρ u = knownType cfg D' ρ u := by
    rw [knownType, knownType, visibleTri_of_modulesVal h, h]
  unfold reverseTri
  rw [hk]

/-! ## Steps that leave the visibilities alone -/

/-- A step that changes no field of a visibility and no value one is computed from. -/
theorem Fact.Known.keep {P' : Set Sym} {f : Fact} (h : f.Known cfg P st)
    (hP : ∀ x ∈ f.syms cfg, x ∉ P') (hv : ∀ u, st.valid u = true → st'.valid u = true)
    (hc : ∀ x ∈ f.syms cfg, st'.curr x = st.curr x)
    (hm : cfg.type modulesSym = .unknown → st'.modulesVal = st.modulesVal)
    (hf : st'.promptTri f.sym = st.promptTri f.sym ∧ st'.visible f.sym = st.visible f.sym ∧
      st'.revTri f.sym = st.revTri f.sym) : f.Known cfg P' st' := by
  refine ⟨fun x hx => ⟨hv x (h.closed x hx).1, hP x hx⟩, ?_⟩
  have hh := h.holds
  cases f with
  | prompt u p =>
    have hcond : conditionTri cfg st.curr p = conditionTri cfg st'.curr p :=
      conditionTri_congr fun x hx => (hc x hx).symm
    exact ((congrFun hf.1 p).trans hh).trans hcond
  | visible u =>
    intro hun
    have hvis : visibleTri cfg st.data st.curr u = visibleTri cfg st.data st'.curr u :=
      visibleTri_congr fun x hx => (hc x hx).symm
    exact ((hf.2.1.trans (hh hun)).trans hvis).trans
      (visibleTri_of_modulesVal (hm hun).symm _ _)
  | reverse u =>
    intro hun hmem
    have hrev : reverseTri cfg st.data st.curr u = reverseTri cfg st.data st'.curr u :=
      reverseTri_congr fun x hx => (hc x hx).symm
    exact ((hf.2.2.trans (hh hun hmem)).trans hrev).trans
      (reverseTri_of_modulesVal (hm hun).symm _ _)

theorem Steady.static_of_keeps (h : Steady cfg P Q st) (hk : Keeps ∅ st st') :
    ∀ u, u.isStatic = true → st'.valid u = true := fun u hu => hk.valid u (h.static u hu)

theorem Steady.remembered_of_keeps (h : Steady cfg P Q st) (hk : Keeps ∅ st st') :
    st'.data.Candidates cfg := fun s hs m hm => h.remembered s hs m (by
  have hu : st'.data.user = st.data.user := hk.user
  rwa [← hu])

theorem Steady.mono (h : Steady cfg P Q st) (hQ : Q' ⊆ Q) : Steady cfg P Q' st :=
  { h with known := fun f hf => h.known f (hf.imp_left fun hf => hQ hf) }

theorem Went.mono (h : Went cfg P Q st xs st') (hQ : Q' ⊆ Q) : Went cfg P Q' st xs st' :=
  { h with steady := h.steady.mono hQ }

/-- The step changes only the current values of symbols of `P`, and flags. -/
theorem Steady.keep (h : Steady cfg P Q st) (hk : Keeps Pᶜ st st')
    (hv : st'.valid = st.valid)
    (hm : cfg.type modulesSym = .unknown → st'.modulesVal = st.modulesVal)
    (hp : st'.promptTri = st.promptTri) (hvis : st'.visible = st.visible)
    (hr : st'.revTri = st.revTri) : Went cfg P Q st [] st' where
  steady :=
    { known := fun f hf => by
        have hf := h.known f (by rwa [hv] at hf)
        exact hf.keep (fun x hx => (hf.closed x hx).2) (fun u hu => hk.valid u hu)
          (fun x hx => hk.curr x (hf.closed x hx).2) hm ⟨by rw [hp], by rw [hvis], by rw [hr]⟩
      static := fun u hu => hk.valid u (h.static u hu)
      remembered := h.remembered_of_keeps { hk with curr := fun _ h => h.elim } }
  keeps := { hk with curr := fun _ h => h.elim }
  untouched := ⟨hm, fun u _ => by rw [hp], fun u _ => by rw [hvis], fun u _ => by rw [hr]⟩
  computed := by simp [State.Computed]

theorem Steady.setCurr (h : Steady cfg P Q st) {s : Sym} (hs : s ∈ P) (v : SymbolValue) :
    Went cfg P Q st [] (st.setCurr s v) :=
  h.keep (.setCurr (fun hn : s ∈ Pᶜ => hn hs) v) rfl (fun _ => rfl) rfl rfl rfl

theorem Steady.setWrite (h : Steady cfg P Q st) (s : Sym) (b : Bool) :
    Went cfg P Q st [] (st.setWrite s b) :=
  h.keep (.setWrite s b) rfl (fun _ => rfl) rfl rfl rfl

theorem Steady.writeMembers (h : Steady cfg P Q st) (s : Sym) :
    Went cfg P Q st [] (writeMembers cfg s st) := by
  refine h.keep (.writeMembers cfg s) ?_ (fun _ => ?_) ?_ ?_ ?_ <;>
    (unfold Kconfig.writeMembers; split_ifs <;> rfl)

theorem Steady.setModules (h : Steady cfg P Q st) {s : Sym} (hs : cfg.type s ≠ .unknown) :
    Went cfg P Q st [] (setModules s st) := by
  refine h.keep (.setModules s) ?_ (fun hm => ?_) ?_ ?_ ?_
  · unfold Kconfig.setModules; split_ifs <;> rfl
  · unfold Kconfig.setModules
    rw [if_neg fun heq : s = modulesSym => hs (heq ▸ hm)]
  all_goals unfold Kconfig.setModules; split_ifs <;> rfl

/-! ## Evaluating several symbols -/

theorem Steady.went_nil (h : Steady cfg P Q st) : Went cfg P Q st [] st :=
  ⟨h, .refl st, .refl st, by simp [State.Computed]⟩

theorem Able.again (h : Able cfg P Q n st xs) (hw : Went cfg P Q' st ys st') :
    Able cfg P Q' n st' xs where
  steady := hw.steady
  evaluable x hx := (h.evaluable x hx).imp_left (hw.keeps.valid x)
  fuel := (remaining_le_of_valid hw.keeps.valid).trans h.fuel

theorem Able.mono (h : Able cfg P Q n st ys) (hs : ∀ x ∈ xs, x ∈ ys) : Able cfg P Q n st xs :=
  ⟨h.steady, fun x hx => h.evaluable x (hs x hx), h.fuel⟩

theorem Went.then (h : Went cfg P Q st xs st') (h' : Went cfg P Q' st' ys st'') :
    Went cfg P Q' st (xs ++ ys) st'' where
  steady := h'.steady
  keeps := h.keeps.trans h'.keeps
  untouched := h.untouched.trans h'.untouched
  computed x hx := by
    rcases List.mem_append.mp hx with hx | hx
    · exact h'.keeps.valid x (h.computed x hx)
    · exact h'.computed x hx

theorem Went.nil (h : Went cfg P Q st xs st') : Went cfg P Q st [] st' :=
  { h with computed := by simp [State.Computed] }

/-- Steps after which nothing has to be known of what was evaluated. -/
theorem Went.trans (h : Went cfg P Q st xs st') (h' : Went cfg P Q st' ys st'') :
    Went cfg P Q st [] st'' := (h.then h').nil

/-! ## Expressions and properties -/

section Expressions
variable {eval : Sym → State → State} (call : Steadies cfg n eval)
include call

theorem exprCalcValue_went (e : Expr) (h : Able cfg P Q n st e.syms) :
    Went cfg P Q st e.syms (exprCalcValue cfg eval e st).2 ∧
      (exprCalcValue cfg eval e st).1 =
        e.value cfg.type (exprCalcValue cfg eval e st).2.curr := by
  induction e generalizing st with
  | symbol s => exact ⟨call.went P Q st s h, rfl⟩
  | not e ih =>
    obtain ⟨hw, hv⟩ := ih h
    exact ⟨hw, by simp only [exprCalcValue, Expr.value, hv]⟩
  | and l r ihl ihr | or l r ihl ihr =>
    obtain ⟨hl, hvl⟩ := ihl (h.mono fun x hx => List.mem_append_left _ hx)
    obtain ⟨hr, hvr⟩ := ihr ((h.again hl).mono fun x hx => List.mem_append_right _ hx)
    have hk : Keeps {s | s ∈ l.syms} (exprCalcValue cfg eval l st).2
        (exprCalcValue cfg eval r (exprCalcValue cfg eval l st).2).2 :=
      exprCalcValue_keeps (call.keeps _) r hl.computed
    refine ⟨hl.then hr, ?_⟩
    simp only [exprCalcValue, Expr.value]
    rw [hvr, hvl, Expr.value_congr l fun a ha => (hk.curr a ha).symm]
  | equal a b | unequal a b =>
    have ha := call.went P Q st a (h.mono (by simp [Expr.syms]))
    have hb := call.went P Q _ b ((h.again ha).mono (by simp [Expr.syms]))
    exact ⟨ha.then hb, rfl⟩

theorem optCalcValue_went (e : Option Expr) (h : Able cfg P Q n st (optSyms e)) :
    Went cfg P Q st (optSyms e) (optCalcValue cfg eval e st).2 ∧
      (optCalcValue cfg eval e st).1 =
        optValue cfg.type (optCalcValue cfg eval e st).2.curr e := by
  cases e with
  | none => exact ⟨h.steady.went_nil, rfl⟩
  | some e => exact exprCalcValue_went call e h

theorem firstActive_went (ps : List Property) (hps : ∀ p ∈ ps, ∀ x ∈ optSyms p.visible, x ∈ xs)
    (h : Able cfg P Q n st xs) : Went cfg P Q st [] (firstActive cfg eval ps st).2 := by
  induction ps generalizing st with
  | nil => exact h.steady.went_nil
  | cons p ps ih =>
    rw [List.forall_mem_cons] at hps
    have hp := (optCalcValue_went call p.visible (h.mono hps.1)).1
    simp only [firstActive]
    split_ifs
    · exact hp.nil
    · exact hp.trans (ih hps.2 (h.again hp))

end Expressions

/-! ## Visibility -/

section Setters
variable {m : Sym}

theorem Steady.setPromptTri (h : Steady cfg P Q st) (hm : cfg.type m ≠ .unknown) {p : Property}
    (hp : p ∈ cfg.prompts m) (hx : st.Computed (optSyms p.visible)) :
    Went cfg P (Q ∪ {f | f = .prompt m p ∧ ∀ x ∈ optSyms p.visible, x ∉ P}) st []
      (st.setPromptTri m p (conditionTri cfg st.curr p)) where
  steady :=
    { h with
      known := fun f hf => by
        have old (hf : f ∈ Q ∨ (f.Proper cfg ∧ cfg.type f.sym ≠ .unknown ∧
            st.valid f.sym = true ∧ f.sym ∉ P)) :
            f.Known cfg P (st.setPromptTri m p (conditionTri cfg st.curr p)) := by
          have hk := h.known f hf
          refine ⟨hk.closed, ?_⟩
          cases f with
          | visible u => exact hk.holds
          | reverse u => exact hk.holds
          | prompt u q =>
            have hold : st.promptTri u q = conditionTri cfg st.curr q := hk.holds
            change (st.setPromptTri m p _).promptTri u q = conditionTri cfg st.curr q
            by_cases hu : u = m ∧ q = p
            · obtain ⟨rfl, rfl⟩ := hu
              simp [State.setPromptTri]
            · rw [← hold]
              simp only [State.setPromptTri, Function.update_apply]
              split_ifs <;> simp_all
        rcases hf with (hf | ⟨rfl, hP⟩) | hf
        · exact old (.inl hf)
        · exact ⟨fun x hxp => ⟨hx x hxp, hP x hxp⟩, by simp [Fact.Holds, State.setPromptTri]⟩
        · exact old (.inr hf) }
  keeps := .setPromptTri m p _
  untouched := by
    refine ⟨fun _ => rfl, fun u hu => ?_, fun _ _ => rfl, fun _ _ => rfl⟩
    have hne : u ≠ m := by rintro rfl; exact hm hu
    simp [State.setPromptTri, hne]
  computed := by simp [State.Computed]

theorem Steady.setVisible (h : Steady cfg P Q st) (hm : cfg.type m ≠ .unknown)
    (hx : st.Computed (cfg.promptSyms m)) :
    Went cfg P (Q ∪ {f | f = .visible m ∧ ∀ x ∈ cfg.promptSyms m, x ∉ P}) st []
      (st.setVisible m (visibleTri cfg st.data st.curr m)) where
  steady :=
    { h with
      known := fun f hf => by
        have old (hf : f ∈ Q ∨ (f.Proper cfg ∧ cfg.type f.sym ≠ .unknown ∧
            st.valid f.sym = true ∧ f.sym ∉ P)) :
            f.Known cfg P (st.setVisible m (visibleTri cfg st.data st.curr m)) := by
          have hk := h.known f hf
          refine ⟨hk.closed, ?_⟩
          cases f with
          | prompt u q => exact hk.holds
          | reverse u => exact hk.holds
          | visible u =>
            intro hun
            by_cases hu : u = m
            · subst hu
              simp [State.setVisible]
              rfl
            · have hold := hk.holds hun
              rw [← show st.visible u = visibleTri cfg
                (st.setVisible m (visibleTri cfg st.data st.curr m)).data
                (st.setVisible m (visibleTri cfg st.data st.curr m)).curr u from hold]
              simp [State.setVisible, hu]
        rcases hf with (hf | ⟨rfl, hP⟩) | hf
        · exact old (.inl hf)
        · refine ⟨fun x hxp => ⟨hx x hxp, hP x hxp⟩, fun _ => ?_⟩
          simp only [State.setVisible, Function.update_self]
          rfl
        · exact old (.inr hf) }
  keeps := .setVisible m _
  untouched := by
    refine ⟨fun _ => rfl, fun _ _ => rfl, fun u hu => ?_, fun _ _ => rfl⟩
    have hne : u ≠ m := by rintro rfl; exact hm hu
    simp [State.setVisible, hne]
  computed := by simp [State.Computed]

/-- The value matters only where the field is final. -/
theorem Steady.setRevTri (h : Steady cfg P Q st) (hm : cfg.type m ≠ .unknown) {t : Tristate}
    (hx : st.Computed (cfg.visSyms m))
    (ht : (∀ x ∈ cfg.visSyms m, x ∉ P) → cfg.type modulesSym = .unknown →
      cfg.isChoiceValue m = false → t = reverseTri cfg st.data st.curr m) :
    Went cfg P (Q ∪ {f | f = .reverse m ∧ ∀ x ∈ cfg.visSyms m, x ∉ P}) st []
      (st.setRevTri m t) where
  steady :=
    { h with
      known := fun f hf => by
        have new (hP : ∀ x ∈ cfg.visSyms m, x ∉ P) :
            (Fact.reverse m).Known cfg P (st.setRevTri m t) := by
          refine ⟨fun x hxp => ⟨hx x hxp, hP x hxp⟩, fun hun hmem => ?_⟩
          simp only [State.setRevTri, Function.update_self]
          exact ht hP hun hmem
        have old (hf : f ∈ Q ∨ (f.Proper cfg ∧ cfg.type f.sym ≠ .unknown ∧
            st.valid f.sym = true ∧ f.sym ∉ P)) : f.Known cfg P (st.setRevTri m t) := by
          have hk := h.known f hf
          cases f with
          | prompt u q => exact ⟨hk.closed, hk.holds⟩
          | visible u => exact ⟨hk.closed, hk.holds⟩
          | reverse u =>
            by_cases hu : u = m
            · subst hu
              exact new fun x hx => (hk.closed x hx).2
            · refine ⟨hk.closed, fun hun hmem => ?_⟩
              rw [show (st.setRevTri m t).revTri u = st.revTri u by simp [State.setRevTri, hu]]
              exact hk.holds hun hmem
        rcases hf with (hf | ⟨rfl, hP⟩) | hf
        · exact old (.inl hf)
        · exact new hP
        · exact old (.inr hf) }
  keeps := .setRevTri m _
  untouched := by
    refine ⟨fun _ => rfl, fun _ _ => rfl, fun _ _ => rfl, fun u hu => ?_⟩
    have hne : u ≠ m := by rintro rfl; exact hm hu
    simp [State.setRevTri, hne]
  computed := by simp [State.Computed]

end Setters

section Visibility
variable {eval : Sym → State → State} (call : Steadies cfg n eval) {m : Sym}
  (hm : cfg.type m ≠ .unknown)
include call hm

theorem calcPrompts_went (ps : List Property) (hps : ∀ p ∈ ps, p ∈ cfg.prompts m) (tri : Tristate)
    (h : Able cfg P Q n st (ps.flatMap fun p => optSyms p.visible)) :
    Went cfg P (Q ∪ {f | ∃ p ∈ ps, f = .prompt m p ∧ ∀ x ∈ optSyms p.visible, x ∉ P}) st
        (ps.flatMap fun p => optSyms p.visible) (calcPrompts cfg eval m ps tri st).2 ∧
      (calcPrompts cfg eval m ps tri st).1 =
        max tri (maxValue (ps.map (conditionTri cfg (calcPrompts cfg eval m ps tri st).2.curr))) := by
  induction ps generalizing Q tri st with
  | nil => exact ⟨by simpa [calcPrompts] using h.steady.went_nil, by simp [calcPrompts]⟩
  | cons p ps ih =>
    rw [List.forall_mem_cons] at hps
    obtain ⟨hp, hv⟩ := optCalcValue_went call p.visible
      (h.mono fun x hx => List.mem_append_left _ hx)
    have hset := hp.then (hp.steady.setPromptTri hm hps.1 hp.computed)
    rw [List.append_nil] at hset
    have hcond : conditionTri cfg (optCalcValue cfg eval p.visible st).2.curr p =
        (optCalcValue cfg eval p.visible st).1 := hv.symm
    rw [hcond] at hset
    obtain ⟨hr, hmax⟩ := ih hps.2 (max tri (optCalcValue cfg eval p.visible st).1)
      ((h.again hset).mono fun x hx => List.mem_append_right _ hx)
    have hk : Keeps {x | x ∈ optSyms p.visible}
        ((optCalcValue cfg eval p.visible st).2.setPromptTri m p
          (optCalcValue cfg eval p.visible st).1)
        (calcPrompts cfg eval m (p :: ps) tri st).2 :=
      calcPrompts_keeps (call.keeps _) m ps _ hset.computed
    refine ⟨(hset.then hr).mono ?_, ?_⟩
    · rintro f (hf | ⟨q, hq, rfl, hP⟩)
      · exact .inl (.inl hf)
      · rcases List.mem_cons.mp hq with rfl | hq
        · exact .inl (.inr ⟨rfl, hP⟩)
        · exact .inr ⟨q, hq, rfl, hP⟩
    · have hlast : conditionTri cfg (calcPrompts cfg eval m (p :: ps) tri st).2.curr p =
          (optCalcValue cfg eval p.visible st).1 :=
        (conditionTri_congr fun x hx => hk.curr x hx).trans hcond
      rw [List.map_cons, maxValue_cons, ← max_assoc, hlast]
      exact hmax

theorem calcRevDep_went (hmem : cfg.isChoiceValue m = false)
    (h : Able cfg P Q n st (optSyms (cfg.revDep m))) (hx : st.Computed (cfg.promptSyms m))
    (hvis : (∀ x ∈ cfg.promptSyms m, x ∉ P) → Fact.visible m ∈ Q) :
    Went cfg P (Q ∪ {f | f = .reverse m ∧ ∀ x ∈ cfg.visSyms m, x ∉ P}) st (optSyms (cfg.revDep m))
      (calcRevDep cfg eval m st) := by
  have main (tri : Tristate) {st' : State} (hw : Went cfg P Q st (optSyms (cfg.revDep m)) st')
      (htri : tri = revValue cfg.type st'.curr (cfg.revDep m)) :
      Went cfg P (Q ∪ {f | f = .reverse m ∧ ∀ x ∈ cfg.visSyms m, x ∉ P}) st
        (optSyms (cfg.revDep m)) (st'.setRevTri m
          (if tri = .mod ∧ cfg.symGetType st' m = .boolean then .yes else tri)) := by
    have hcomp : st'.Computed (cfg.visSyms m) := by
      intro x hxm
      rcases List.mem_append.mp hxm with hxm | hxm
      · exact hw.keeps.valid x (hx x hxm)
      · exact hw.computed x (by simpa [hmem] using hxm)
    have ht : (∀ x ∈ cfg.visSyms m, x ∉ P) → cfg.type modulesSym = .unknown →
        cfg.isChoiceValue m = false →
        (if tri = .mod ∧ cfg.symGetType st' m = .boolean then Tristate.yes else tri) =
          reverseTri cfg st'.data st'.curr m := by
      intro hP hun _
      have hin := hvis fun x hx => hP x (cfg.mem_visSyms_of_prompt hx)
      have hk : cfg.symGetType st' m = knownType cfg st'.data st'.curr m :=
        congrArg (cfg.getType · st'.modulesVal m) ((hw.steady.known _ (.inl hin)).holds hun)
      rw [htri, hk]
      exact (if_neg (by simp [hmem])).symm
    have hset := hw.then (hw.steady.setRevTri hm hcomp ht)
    rwa [List.append_nil] at hset
  unfold calcRevDep
  cases he : cfg.revDep m with
  | none =>
    rw [he] at main h
    exact main .no h.steady.went_nil rfl
  | some e =>
    rw [he] at main h
    obtain ⟨hw, hv⟩ := exprCalcValue_went call e h
    exact main _ hw hv

theorem symCalcVisibility_went (h : Able cfg P Q n st (cfg.visSyms m)) :
    Went cfg P (Q ∪ Fact.of cfg P m) st (cfg.visSyms m) (symCalcVisibility cfg eval m st) := by
  obtain ⟨hp, hmax⟩ := calcPrompts_went call hm (cfg.prompts m) (fun _ hp => hp) .no
    (h.mono fun x hx => List.mem_append_left _ hx)
  rw [Tristate.max_no_left] at hmax
  have hset := hp.then (hp.steady.setVisible hm hp.computed)
  rw [List.append_nil] at hset
  have hval : (if (calcPrompts cfg eval m (cfg.prompts m) .no st).1 = .mod ∧
        (cfg.type m ≠ .tristate ∨
          (calcPrompts cfg eval m (cfg.prompts m) .no st).2.modulesVal = .no)
      then Tristate.yes else (calcPrompts cfg eval m (cfg.prompts m) .no st).1) =
      visibleTri cfg (calcPrompts cfg eval m (cfg.prompts m) .no st).2.data
        (calcPrompts cfg eval m (cfg.prompts m) .no st).2.curr m := by
    simp only [visibleTri, hmax]
    rfl
  unfold symCalcVisibility
  dsimp only
  rw [hval]
  generalize (calcPrompts cfg eval m (cfg.prompts m) .no st).2 = st' at *
  split_ifs with hc
  · have hsyms : cfg.visSyms m = cfg.promptSyms m := by simp [Config.visSyms, hc]
    have hrev := hset.steady.known
    rw [hsyms]
    refine { hset with steady := { hset.steady with known := fun f hf => ?_ } }
    rcases hf with (hf | ⟨hu, hproper, hP⟩) | hf
    · exact hrev f (.inl (.inl (.inl hf)))
    · cases f with
      | prompt u p =>
        obtain rfl : u = m := hu
        exact hrev _ (.inl (.inl (.inr ⟨p, hproper, rfl, hP⟩)))
      | visible u =>
        obtain rfl : u = m := hu
        exact hrev _ (.inl (.inr ⟨rfl, hP⟩))
      | reverse u =>
        obtain rfl : u = m := hu
        have hcomp : ∀ x ∈ cfg.visSyms u, st'.valid x = true := by
          rw [hsyms]
          exact hset.computed
        refine ⟨fun x hx => ⟨hcomp x hx, hP x hx⟩, fun _ hmem => ?_⟩
        rw [hc] at hmem
        cases hmem
    · exact hrev f (.inr hf)
  · replace hc : cfg.isChoiceValue m = false := by simpa using hc
    have hsyms : cfg.visSyms m = cfg.promptSyms m ++ optSyms (cfg.revDep m) := by
      simp [Config.visSyms, hc]
    have hrev := calcRevDep_went call hm hc
      ((h.again hset).mono fun x hx => hsyms ▸ List.mem_append_right _ hx) hset.computed
      fun hP => .inr ⟨rfl, hP⟩
    rw [hsyms]
    refine (hset.then hrev).mono ?_
    rintro f (hf | ⟨hu, hproper, hP⟩)
    · exact .inl (.inl (.inl hf))
    · cases f with
      | prompt u p =>
        obtain rfl : u = m := hu
        exact .inl (.inl (.inr ⟨p, hproper, rfl, hP⟩))
      | visible u =>
        obtain rfl : u = m := hu
        exact .inl (.inr ⟨rfl, hP⟩)
      | reverse u =>
        obtain rfl : u = m := hu
        exact .inr ⟨rfl, hP⟩

end Visibility

/-! ## The member of a choice -/

section Choice
variable {eval : Sym → State → State} (call : Steadies cfg n eval)
include call

theorem firstVisible_went (ms : List Sym)
    (hms : ∀ m ∈ ms, cfg.type m ≠ .unknown ∧ ∀ x ∈ cfg.visSyms m, x ∈ xs)
    (h : Able cfg P Q n st xs) : Went cfg P Q st [] (firstVisible cfg eval ms st).2 := by
  induction ms generalizing st with
  | nil => exact h.steady.went_nil
  | cons m ms ih =>
    rw [List.forall_mem_cons] at hms
    have hm := (symCalcVisibility_went call hms.1.1 (h.mono hms.1.2)).mono
      (Set.subset_union_left (t := Fact.of cfg P m))
    simp only [firstVisible]
    split_ifs
    · exact hm.nil
    · exact hm.trans (ih hms.2 (h.again hm))

theorem firstVisibleDefault_went (ps : List Property)
    (hps : ∀ p ∈ ps, (∀ x ∈ optSyms p.visible, x ∈ xs) ∧ ∀ m, p.getSymbol = some m →
      cfg.type m ≠ .unknown ∧ ∀ x ∈ cfg.visSyms m, x ∈ xs) (h : Able cfg P Q n st xs) :
    Went cfg P Q st [] (firstVisibleDefault cfg eval ps st).2 := by
  induction ps generalizing st with
  | nil => exact h.steady.went_nil
  | cons p ps ih =>
    rw [List.forall_mem_cons] at hps
    have hp := (optCalcValue_went call p.visible (h.mono hps.1.1)).1
    have hnext := hp.trans (ih hps.2 (h.again hp))
    simp only [firstVisibleDefault]
    split_ifs
    · exact hnext
    · cases hg : p.getSymbol with
      | none => exact hnext
      | some m =>
        obtain ⟨hty, hxs⟩ := hps.1.2 m hg
        have hm := hp.trans ((symCalcVisibility_went call hty ((h.again hp).mono hxs)).mono
          (Set.subset_union_left (t := Fact.of cfg P m)))
        simp only
        split_ifs
        · exact hm
        · exact hm.trans (ih hps.2 (h.again hm))

theorem symCalcChoice_went (ord : Orderly cfg) {s : Sym} (hs : s.isChoice = true)
    (hty : cfg.type s ≠ .unknown)
    (hcand : ∀ m ∈ cfg.candidates s, ∀ x ∈ cfg.visSyms m, x ∈ xs)
    (hdef : ∀ p ∈ cfg.defaults s, ∀ x ∈ optSyms p.visible, x ∈ xs)
    (h : Able cfg P Q n st xs) : Went cfg P Q st [] (symCalcChoice cfg eval s st).2 := by
  have typed {m : Sym} (hm : m ∈ cfg.candidates s) :
      cfg.type m ≠ .unknown ∧ ∀ x ∈ cfg.visSyms m, x ∈ xs :=
    ⟨ord.typed s hs hty m hm, hcand m hm⟩
  have h1 := firstVisible_went call (userChoice (st.user s).val)
    (fun m hm => typed (h.steady.remembered s hs m hm)) h
  have h2 := firstVisibleDefault_went call (cfg.defaults s)
    (fun p hp => ⟨hdef p hp, fun m hm => typed (mem_candidates_of_default hp hm)⟩) (h.again h1)
  have h3 := firstVisible_went call (cfg.members s)
    (fun m hm => typed (List.mem_append_left _ hm)) ((h.again h1).again h2)
  unfold symCalcChoice
  cases hr1 : firstVisible cfg eval (userChoice (st.user s).val) st with
  | mk o1 st1 =>
    rw [hr1] at h1 h2 h3
    cases o1 with
    | some m => exact h1
    | none =>
      dsimp only at h1 h2 h3 ⊢
      cases hr2 : firstVisibleDefault cfg eval (cfg.defaults s) st1 with
      | mk o2 st2 =>
        rw [hr2] at h2 h3
        cases o2 with
        | some m => exact h1.trans h2
        | none => exact (h1.trans h2).trans h3

end Choice

/-! ## A symbol while it is computed -/

section Compute
variable {eval : Sym → State → State} (call : Steadies cfg n eval) {s : Sym}
  (hst : s.isStatic = false) (hty : cfg.type s ≠ .unknown)
include call hst hty

theorem symGetDefaultProp_went (h : Able cfg P Q n st (cfg.uses s)) :
    Went cfg P Q st [] (symGetDefaultProp cfg eval s st).2 :=
  firstActive_went call (cfg.defaults s)
    (fun _ hp _ hx => mem_uses_of_default hst hty hp (List.mem_append_left _ hx)) h

omit call hst hty in
theorem symGetDefaultProp_mem {p : Property}
    (hp : (symGetDefaultProp cfg eval s st).1 = some p) : p ∈ cfg.defaults s := by
  have main (ps : List Property) (st : State) (hp : (firstActive cfg eval ps st).1 = some p) :
      p ∈ ps := by
    induction ps generalizing st with
    | nil => cases hp
    | cons q ps ih =>
      simp only [firstActive] at hp
      split_ifs at hp
      · injection hp with hp
        exact hp ▸ List.mem_cons_self
      · exact List.mem_cons_of_mem _ (ih _ hp)
  exact main _ _ hp

theorem defaultTri_went (hc : s.isChoice = false) {p : Property} (hp : p ∈ cfg.defaults s)
    (h : Able cfg P Q n st (cfg.uses s)) : Went cfg P Q st [] (defaultTri cfg eval p st).2 := by
  unfold defaultTri
  cases he : p.expr with
  | expr e =>
    refine (exprCalcValue_went call e (h.mono fun x hx => ?_)).1.nil
    exact mem_uses_of_default hst hty hp (List.mem_append_right _ (by simpa [he, hc] using hx))
  | _ => exact h.steady.went_nil

theorem calcOwn_went (h : Able cfg P Q n st (cfg.uses s)) :
    Went cfg P Q st [] (calcOwn cfg eval s st).2 := by
  have hd := symGetDefaultProp_went call hst hty h
  unfold calcOwn
  split_ifs with _ hc
  · exact h.steady.went_nil
  · exact h.steady.went_nil
  · cases hr : symGetDefaultProp cfg eval s st with
    | mk p st1 =>
      rw [hr] at hd
      cases p with
      | none => exact hd
      | some p =>
        have hp : p ∈ cfg.defaults s := symGetDefaultProp_mem (by rw [hr])
        exact hd.trans (defaultTri_went call hst hty (by simpa using hc) hp (h.again hd))

theorem calcLogic_went (h : Able cfg P Q n st (cfg.uses s)) :
    Went cfg P Q st [] (calcLogic cfg eval s st).2 := by
  have hd := symGetDefaultProp_went call hst hty h
  have hw := h.steady.setWrite s true
  unfold calcLogic
  split_ifs with _ _ _ hc
  · exact h.steady.went_nil
  · exact h.steady.went_nil
  · exact hw.trans (calcOwn_went call hst hty (h.again hw))
  · exact h.steady.went_nil
  · cases hr : symGetDefaultProp cfg eval s st with
    | mk p st1 =>
      rw [hr] at hd
      cases p with
      | none => exact hd
      | some p =>
        have hp : p ∈ cfg.defaults s := symGetDefaultProp_mem (by rw [hr])
        have hd' := hd.trans (hd.steady.setWrite s true)
        exact hd'.trans (defaultTri_went call hst hty (by simpa using hc) hp (h.again hd'))

theorem calcText_went (hl : (cfg.type s).isLogic = false) (h : Able cfg P Q n st (cfg.uses s)) :
    Went cfg P Q st [] (calcText cfg eval s st).2 := by
  have h1 : Went cfg P Q st [] (if st.visible s ≠ .no then st.setWrite s true else st) := by
    split_ifs
    · exact h.steady.setWrite s true
    · exact h.steady.went_nil
  unfold calcText
  dsimp only
  generalize (if st.visible s ≠ .no then st.setWrite s true else st) = st1 at h1 ⊢
  split_ifs
  · exact h1
  have hd := h1.trans (symGetDefaultProp_went call hst hty (h.again h1))
  cases hr : symGetDefaultProp cfg eval s st1 with
  | mk p st2 =>
    rw [hr] at hd
    cases p with
    | none => exact hd
    | some p =>
      have hp : p ∈ cfg.defaults s := symGetDefaultProp_mem (by rw [hr])
      simp only
      cases hg : p.getSymbol with
      | none => exact hd
      | some ds =>
        have hw := hd.trans (hd.steady.setWrite s true)
        have hds : ds ∈ cfg.uses s := by
          refine mem_uses_of_default hst hty hp (List.mem_append_right _ ?_)
          simp [Property.getSymbol_eq_some.mp hg, hl, Expr.syms]
        have hev : Able cfg P Q n (st2.setWrite s true) [ds] :=
          (h.again hw).mono (by simpa using hds)
        exact hw.trans (call.went P Q _ ds hev)

theorem selectMember_went (ord : Orderly cfg) (hs : s ∈ P) (hv : st.valid s = true)
    (h : Able cfg P Q n st (cfg.uses s)) :
    Went cfg P Q st [] (selectMember cfg eval s st) := by
  unfold selectMember
  split_ifs with hc
  · let xs := (cfg.candidates s).flatMap cfg.visSyms ++
      (cfg.defaults s).flatMap fun p => optSyms p.visible
    have hcan : Able cfg P Q n st xs := by
      refine ⟨h.steady, fun x hx => ?_, h.fuel⟩
      by_cases hxs : x = s
      · exact .inl (hxs ▸ hv)
      refine h.evaluable x ?_
      rcases List.mem_append.mp hx with hx | hx
      · obtain ⟨m, hm, hx⟩ := List.mem_flatMap.mp hx
        exact mem_uses_of_candidate hst hty hc.1 hm hx hxs
      · obtain ⟨p, hp, hx⟩ := List.mem_flatMap.mp hx
        exact mem_uses_of_default hst hty hp (List.mem_append_left _ hx)
    have hw := symCalcChoice_went call ord hc.1 hty
      (fun m hm x hx => List.mem_append_left _ (List.mem_flatMap.mpr ⟨m, hm, hx⟩))
      (fun p hp x hx => List.mem_append_right _ (List.mem_flatMap.mpr ⟨p, hp, hx⟩)) hcan
    cases hr : symCalcChoice cfg eval s st with
    | mk o st' =>
      rw [hr] at hw
      cases o with
      | some m => exact hw.trans (hw.steady.setCurr hs _)
      | none => exact hw.trans (hw.steady.setCurr hs _)
  · exact h.steady.went_nil

theorem calcCurr_went (ord : Orderly cfg) (hs : s ∈ P) (hv : st.valid s = true)
    (h : Able cfg P Q n st (cfg.uses s)) : Went cfg P Q st [] (calcCurr cfg eval s st) := by
  unfold calcCurr
  split_ifs with hl
  · have h0 := h.steady.setCurr hs .no
    have h1 := h0.trans (calcLogic_went call hst hty (h.again h0))
    have h2 (v : SymbolValue) := h1.trans (h1.steady.setCurr hs v)
    exact (h2 _).trans (selectMember_went call hst hty ord hs ((h2 _).keeps.valid s hv)
      (h.again (h2 _)))
  · have h0 := h.steady.setCurr hs .empty
    have h1 := h0.trans (calcText_went call hst hty (by simpa using hl) (h.again h0))
    exact h1.trans (h1.steady.setCurr hs _)

end Compute

/-! ## The whole computation of a symbol -/

section Whole
variable (ord : Orderly cfg) {s : Sym}
include ord

/-- `sym_calc_value` marks the symbol. -/
theorem setValid_able (hv : st.valid s = false) (h : Able cfg P Q (n + 1) st [s]) :
    Able cfg (insert s P) Q n (st.setValid s) (cfg.uses s) := by
  have hev : s ∈ cfg.symbols ∧ ∀ p ∈ P, Dependency.Below cfg.uses p s :=
    (h.evaluable s (by simp)).resolve_left (by simp [hv])
  have hk : Keeps ∅ st (st.setValid s) := .setValid s
  refine ⟨⟨fun f hf => ?_, h.steady.static_of_keeps hk, h.steady.remembered⟩, fun x hx => ?_, ?_⟩
  · have hold : f.Known cfg P st := by
      rcases hf with hf | ⟨hproper, hty, hu, hP⟩
      · exact h.steady.known f (.inl hf)
      · rw [Set.mem_insert_iff, not_or] at hP
        exact h.steady.known f (.inr ⟨hproper, hty, by simpa [State.setValid, hP.1] using hu, hP.2⟩)
    refine hold.keep (fun x hx => ?_) hk.valid (fun _ _ => rfl) (fun _ => rfl) ⟨rfl, rfl, rfl⟩
    have hne : x ≠ s := by
      rintro rfl
      simpa [hv] using (hold.closed x hx).1
    simp [hne, (hold.closed x hx).2]
  · rcases ord.table s x hx with hs | hs
    · exact .inl (hk.valid x (h.steady.static x hs))
    · refine .inr ⟨hs, fun p hp => ?_⟩
      rcases hp with rfl | hp
      · exact .of_mem hx
      · exact (hev.2 p hp).trans (.of_mem hx)
  · have hlt := remaining_setValid hev.1 hv
    have hfuel := h.fuel
    omega

omit ord in
/-- The symbol is done. -/
theorem Steady.finish (hst : s.isStatic = false) (hty : cfg.type s ≠ .unknown)
    (h : Steady cfg (insert s P) (Q ∪ Fact.of cfg (insert s P) s) st)
    (hP : ∀ x ∈ cfg.uses s, x ∉ insert s P) : Steady cfg P Q st := by
  refine { h with known := fun f hf => ?_ }
  have weaken (hk : f.Known cfg (insert s P) st) : f.Known cfg P st :=
    ⟨fun x hx => ⟨(hk.closed x hx).1, fun hxP => (hk.closed x hx).2 (.inr hxP)⟩, hk.holds⟩
  rcases hf with hf | ⟨hproper, hu, hv, hfP⟩
  · exact weaken (h.known f (.inl (.inl hf)))
  · by_cases hs : f.sym = s
    · refine weaken (h.known f (.inl (.inr ⟨hs, hproper, fun x hx => hP x ?_⟩)))
      refine mem_uses_of_visSyms hst hty ?_
      cases f with
      | prompt u p =>
        obtain rfl : u = s := hs
        exact cfg.mem_visSyms_of_prompt (cfg.mem_promptSyms hproper hx)
      | visible u =>
        obtain rfl : u = s := hs
        exact cfg.mem_visSyms_of_prompt hx
      | reverse u =>
        obtain rfl : u = s := hs
        exact hx
    · refine weaken (h.known f (.inr ⟨hproper, hu, hv, ?_⟩))
      simp [hs, hfP]

/-- `sym_calc_value` keeps the invariant, and the symbol is marked. -/
theorem symCalcValueAux_steadies (n : ℕ) : Steadies cfg n (symCalcValueAux cfg n) := by
  induction n with
  | zero =>
    refine ⟨fun A => symCalcValueAux_keepsMarked 0, fun P Q st x h => ?_⟩
    have hv : st.valid x = true := by
      have hzero := List.countP_eq_zero.mp (Nat.le_zero.mp h.fuel)
      rcases h.evaluable x (by simp) with hv | hx
      · exact hv
      · simpa using hzero x hx.1
    exact { h.steady.went_nil with
      computed := by simpa [State.Computed, symCalcValueAux] using hv }
  | succ n ih =>
    refine ⟨fun A => symCalcValueAux_keepsMarked (n + 1), fun P Q st x h => ?_⟩
    have hkeeps : Keeps ∅ st (symCalcValueAux cfg (n + 1) x st) :=
      symCalcValueAux_keepsMarked (n + 1) x st fun _ h => h.elim
    unfold symCalcValueAux at hkeeps ⊢
    split_ifs at hkeeps ⊢ with hv
    · exact { h.steady.went_nil with computed := by simpa [State.Computed] using hv }
    replace hv : st.valid x = false := by simpa using hv
    have hst : x.isStatic = false := by
      by_contra hs
      simp [h.steady.static x (by simpa using hs)] at hv
    have hable := setValid_able ord hv h
    have hself : (st.setValid x).valid x = true := Function.update_self ..
    suffices hmain : Went cfg P Q (st.setValid x) [] (calcInvalid cfg (symCalcValueAux cfg n) x st) from
      { steady := hmain.steady, keeps := hkeeps, untouched := { hmain.untouched with }
        computed := by simpa [State.Computed] using hmain.keeps.valid x hself }
    by_cases hty : cfg.type x = .unknown
    · obtain ⟨v, hv⟩ := calcInvalid_unknown (symCalcValueAux cfg n) st hty
      rw [hv]
      have hw := hable.steady.setCurr (Set.mem_insert x P) v
      refine { hw with steady := { hw.steady with known := fun f hf => ?_ } }
      have hk : f.Known cfg (insert x P) ((st.setValid x).setCurr x v) := by
        refine hw.steady.known f (hf.imp_right ?_)
        rintro ⟨hproper, hu, hv, hfP⟩
        have hne : f.sym ≠ x := fun heq => hu (heq ▸ hty)
        exact ⟨hproper, hu, hv, by simp [hne, hfP]⟩
      exact ⟨fun y hy => ⟨(hk.closed y hy).1, fun hP => (hk.closed y hy).2 (.inr hP)⟩, hk.holds⟩
    · unfold calcInvalid
      dsimp only
      rw [if_neg hty]
      have hP : ∀ y ∈ cfg.uses x, y ∉ insert x P := by
        have hev := (h.evaluable x (by simp)).resolve_left (by simp [hv])
        rintro y hy (rfl | hyP)
        · exact ord.acyclic y (Dependency.Below.of_mem hy)
        · exact ord.acyclic y ((hev.2 y hyP).trans (.of_mem hy))
      have hstart : Went cfg (insert x P) Q (st.setValid x) []
          (if cfg.isChoiceValue x then st.setValid x else (st.setValid x).setWrite x false) := by
        split_ifs
        · exact hable.steady.went_nil
        · exact hable.steady.setWrite x false
      have hvis := symCalcVisibility_went ih hty
        ((hable.again hstart).mono fun y hy => mem_uses_of_visSyms hst hty hy)
      have hw := hstart.then hvis
      have hcurr := hw.then (calcCurr_went ih hst hty ord (Set.mem_insert x P)
        (hw.keeps.valid x hself) (hable.again hw))
      have hmod := hcurr.then (hcurr.steady.setModules hty)
      have hend := hmod.then (hmod.steady.writeMembers x)
      exact { hend.nil with steady := hend.steady.finish hst hty hP }

theorem symCalcValue_steadies : Steadies cfg cfg.symbols.length (symCalcValue cfg) :=
  symCalcValueAux_steadies ord cfg.symbols.length

end Whole

end Grasshopper.Kconfig
