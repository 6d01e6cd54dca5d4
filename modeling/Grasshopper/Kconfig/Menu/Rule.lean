import Grasshopper.Kconfig.Menu.Finalize

/-! # The rule for `menu_finalize`

`menu_finalize` computes the conditions of an entry once, from the condition of what it is
written under, and then only moves entries. So what relates a parsed entry, in the context of the
entries around it, to its final form is proved for one entry, and holds of the whole tree.
-/

namespace Grasshopper.Kconfig

/-- Types that grow keep growing. -/
theorem TypesGrow.refl (τ : Sym → SymType) : TypesGrow τ τ := fun _ _ => rfl

theorem TypesGrow.trans {τ₁ τ₂ τ₃ : Sym → SymType} (h : TypesGrow τ₁ τ₂) (h' : TypesGrow τ₂ τ₃) :
    TypesGrow τ₁ τ₃ := by
  intro s hs
  have h2 := h s hs
  rw [h' s (by rw [h2]; exact hs), h2]

theorem menuSetType_grows (τ : Sym → SymType) (s : Sym) (t : SymType) :
    TypesGrow τ (menuSetType τ s t) := by
  intro x hx
  unfold menuSetType
  split_ifs with h
  · rw [Function.update_of_ne]
    rintro rfl
    exact hx h
  · rfl

section Grows

@[simp] theorem FinState.addRevDep_type (σ : FinState) (s : Sym) (e : Option Expr) :
    (σ.addRevDep s e).type = σ.type := rfl

theorem setChoiceType_grows (sym : Option Sym) (list : Menus) (σ : FinState) :
    TypesGrow σ.type (setChoiceType sym list σ).type := by
  unfold setChoiceType
  split
  · dsimp only
    split_ifs
    · exact (menuSetType_grows _ _ _).trans (menuSetType_grows _ _ _)
    · exact .refl _
  · exact .refl _

theorem addChoiceValue_grows (sym : Option Sym) (e : Entry) (σ : FinState) :
    TypesGrow σ.type (addChoiceValue sym e σ).type := by
  unfold addChoiceValue
  split
  · split_ifs
    · exact menuSetType_grows _ _ _
    · exact .refl _
  · exact .refl _

@[simp] theorem addSelect_type (sym : Option Sym) (σ : FinState) (p : Property) :
    (addSelect sym σ p).type = σ.type := by
  unfold addSelect
  split <;> rfl

@[simp] theorem finalizeEntry_type (d : Option Expr) (e : Entry) (σ : FinState) :
    (finalizeEntry d e σ).2.type = σ.type := by
  have h (ps : List Property) (σ : FinState) : (ps.foldl (addSelect e.sym) σ).type = σ.type := by
    induction ps generalizing σ with
    | nil => rfl
    | cons p ps ih => rw [List.foldl_cons, ih, addSelect_type]
  exact h _ σ

@[simp] theorem addChoiceRevDep_type (optional : ℕ → Bool) (e : Entry) (σ : FinState) :
    (addChoiceRevDep optional e σ).type = σ.type := by
  unfold addChoiceRevDep
  split
  · split_ifs <;> rfl
  · rfl

end Grows

/-- A property of states that held before every step if it holds after it, such as that nothing
exceeds its final value. -/
structure Backward (optional : ℕ → Bool) (V : FinState → Prop) : Prop where
  choiceType : ∀ {sym list σ}, V (setChoiceType sym list σ) → V σ
  entry : ∀ {d e σ}, V (finalizeEntry d e σ).2 → V σ
  choiceValue : ∀ {sym e σ}, V (addChoiceValue sym e σ) → V σ
  revDep : ∀ {e σ}, V (addChoiceRevDep optional e σ) → V σ

/-- No step changes a type once it is given. -/
theorem backward_typesGrow (optional : ℕ → Bool) (typeF : Sym → SymType) :
    Backward optional fun σ => TypesGrow σ.type typeF where
  choiceType h := (setChoiceType_grows _ _ _).trans h
  entry h := by rwa [finalizeEntry_type] at h
  choiceValue h := (addChoiceValue_grows _ _ _).trans h
  revDep h := by rwa [addChoiceRevDep_type] at h

namespace Backward
variable {optional : ℕ → Bool} {V : FinState → Prop} (back : Backward optional V)
include back

theorem entries {d : Option Expr} {m : Menus} {σ : FinState}
    (h : V (finalizeEntries d m σ).2) : V σ := by
  induction m generalizing σ with
  | nil => exact h
  | node e l n ihl ihn => exact back.entry (ihn h)

theorem lift {sym : Option Sym} {m : Menus} {σ : FinState} (h : V (liftEntries sym m σ).2) :
    V σ := by
  induction m generalizing σ with
  | nil => exact h
  | node e l n ihl ihn =>
    unfold liftEntries at h
    split at h
    · exact back.choiceValue (ihn h)
    · exact back.choiceValue (ihl (ihn h))

theorem calls (fuel : ℕ) :
    (∀ m σ, V (menuFinalize optional fuel m σ).2 → V σ) ∧
    (∀ m σ, V (finalizeList optional fuel m σ).2 → V σ) ∧
    (∀ s b m σ, V (nestEntries optional fuel s b m σ).2 → V σ) := by
  induction fuel with
  | zero => exact ⟨fun _ _ h => h, fun _ _ h => h, fun _ _ _ _ h => h⟩
  | succ fuel ih =>
    obtain ⟨ihm, ihl, ihn⟩ := ih
    refine ⟨fun m σ h => ?_, fun m σ h => ?_, fun s b m σ h => ?_⟩
    · match m with
      | .nil => exact h
      | .node e (.node e' l' n') n =>
        simp only [menuFinalize] at h
        exact back.choiceType (back.entries (ihl _ _ (back.lift (back.revDep h))))
      | .node e .nil n =>
        simp only [menuFinalize] at h
        split at h
        · exact h
        · exact ihn _ _ _ _ (back.lift (back.revDep h))
    · have h1 := ihm m σ
      simp only [finalizeList] at h
      split at h
      · rename_i hm; rw [hm] at h1; exact h1 h
      · rename_i hm; rw [hm] at h1; exact h1 (ihl _ _ h)
    · match m with
      | .nil => exact h
      | .node e l n =>
        simp only [nestEntries] at h
        split_ifs at h
        · have h1 := ihm (.node e l n) σ
          split at h
          · rename_i hm; rw [hm] at h1; exact h1 h
          · rename_i hm; rw [hm] at h1; exact h1 (ihn _ _ _ _ h)
        · exact h

theorem menu {fuel : ℕ} {m : Menus} {σ : FinState} (h : V (menuFinalize optional fuel m σ).2) :
    V σ :=
  (back.calls fuel).1 m σ h

theorem list {fuel : ℕ} {m : Menus} {σ : FinState} (h : V (finalizeList optional fuel m σ).2) :
    V σ :=
  (back.calls fuel).2.1 m σ h

theorem nest {fuel : ℕ} {s : Sym} {b : Expr} {m : Menus} {σ : FinState}
    (h : V (nestEntries optional fuel s b m σ).2) : V σ :=
  (back.calls fuel).2.2 s b m σ h

end Backward

/-! ## Parsed entries in their contexts -/

section Rule
variable {Γ : Type}

/-- The parsed entries in preorder, each in the context `child` makes of what it is under. -/
def Menus.contexts (child : Γ → Entry → Γ) : Γ → Menus → List (Γ × Entry)
  | _, .nil => []
  | γ, .node e l n => (γ, e) :: (contexts child (child γ e) l ++ contexts child γ n)

theorem Menus.contexts_append (child : Γ → Entry → Γ) (γ : Γ) (m m' : Menus) :
    (m.append m').contexts child γ = m.contexts child γ ++ m'.contexts child γ := by
  induction m with
  | nil => rfl
  | node e l n ihl ihn => simp [append, contexts, ihn]

/-- `D` relates every entry of a tree to every entry under it. -/
def Menus.Nested (D : Entry → Entry → Prop) : Menus → Prop
  | .nil => True
  | .node e l n => (∀ x ∈ l.preorder, D e x) ∧ l.Nested D ∧ n.Nested D

theorem Menus.Nested.append {D : Entry → Entry → Prop} {m m' : Menus} (h : m.Nested D)
    (h' : m'.Nested D) : (m.append m').Nested D := by
  induction m with
  | nil => exact h'
  | node e l n ihl ihn => exact ⟨h.1, h.2.1, ihn h.2.2⟩

/-- What has to be known of single entries. In the context `γ`, the condition `d` that an entry
inherits satisfies `I γ d`, and `R γ e e'` relates a parsed entry `e` to its final form `e'`; `U`
is an invariant of the state, and `D` relates an entry to those that end up under it. -/
structure FinalizeRule (optional : ℕ → Bool) (V : FinState → Prop) (valid : Γ → Entry → Prop)
    (child : Γ → Entry → Γ) (I : Γ → Option Expr → Prop) (R : Γ → Entry → Entry → Prop)
    (U : FinState → Prop) (D : Entry → Entry → Prop) : Prop extends Backward optional V where
  final : ∀ {γ d e σ}, valid γ e → I γ d → V (finalizeEntry d e σ).2 → U σ →
    R γ e (finalizeEntry d e σ).1 ∧ U (finalizeEntry d e σ).2
  below : ∀ {γ e e'}, valid γ e → R γ e e' → I (child γ e) (parentDep e')
  setType : ∀ {γ e e' σ} {l : Menus}, valid γ e → R γ e e' →
    (∀ x ∈ l.contexts child (child γ e), valid x.1 x.2) → U σ → U (setChoiceType e'.sym l σ)
  addValue : ∀ {γ e e' γ' x x' σ}, valid γ e → R γ e e' → valid γ' x → R γ' x x' → D e' x' →
    U σ → U (addChoiceValue e'.sym x' σ)
  addRevDep : ∀ {γ e e' σ}, valid γ e → R γ e e' → U σ → U (addChoiceRevDep optional e' σ)
  under : ∀ {γ e e' γ' x x'} {l : Menus}, valid γ e → R γ e e' → (γ', x) ∈ l.contexts child (child γ e) →
    valid γ' x → R γ' x x' → D e' x'
  nest : ∀ {γ e e' s y y' τ b}, valid γ e → R γ e e' → e'.sym = some s → valid γ y → R γ y y' →
    nests τ s b y'.condition = true → ∀ x', D e' x'

/-- The entries of a chain have their final conditions, and what is under them is parsed. -/
inductive Ready (R : Γ → Entry → Entry → Prop) (γ : Γ) : Menus → Menus → Prop
  | nil : Ready R γ .nil .nil
  | node {e e' l n n'} : R γ e e' → Ready R γ n n' → Ready R γ (.node e l n) (.node e' l n')

variable {optional : ℕ → Bool} {V : FinState → Prop} {valid : Γ → Entry → Prop}
  {child : Γ → Entry → Γ} {I : Γ → Option Expr → Prop} {R : Γ → Entry → Entry → Prop}
  {U : FinState → Prop} {D : Entry → Entry → Prop}

theorem liftEntries_preorder (sym : Option Sym) (m : Menus) (σ : FinState) :
    (liftEntries sym m σ).1.preorder = m.preorder := by
  induction m generalizing σ with
  | nil => rfl
  | node e l n ihl ihn =>
    unfold liftEntries
    split
    · simp [ihn]
    · simp [ihl, ihn]

theorem liftEntries_nested (sym : Option Sym) {m : Menus} (h : m.Nested D) (σ : FinState) :
    (liftEntries sym m σ).1.Nested D := by
  induction m generalizing σ with
  | nil => exact h
  | node e l n ihl ihn =>
    unfold liftEntries
    split
    · exact ⟨h.1, h.2.1, ihn h.2.2 _⟩
    · exact ⟨by simp, trivial, (ihl h.2.1 _).append (ihn h.2.2 _)⟩

theorem liftEntries_state {sym : Option Sym} {m : Menus}
    (step : ∀ e ∈ m.preorder, ∀ σ, U σ → U (addChoiceValue sym e σ)) (σ : FinState) (hU : U σ) :
    U (liftEntries sym m σ).2 := by
  induction m generalizing σ with
  | nil => exact hU
  | node e l n ihl ihn =>
    simp only [Menus.preorder_node, List.mem_cons, List.mem_append, forall_eq_or_imp] at step
    have hn := ihn fun x hx => step.2 x (.inr hx)
    have hl := ihl fun x hx => step.2 x (.inl hx)
    unfold liftEntries
    split
    · exact hn _ (step.1 σ hU)
    · exact hn _ (hl _ (step.1 σ hU))

/-- What is written at the same place as an entry, in its context, and under it. -/
structure Finished (R : Γ → Entry → Entry → Prop) (D : Entry → Entry → Prop)
    (es : List (Γ × Entry)) (m : Menus) : Prop where
  entries : List.Forall₂ (fun x e' => R x.1 x.2 e') es m.preorder
  nested : m.Nested D

namespace FinalizeRule
variable (rule : FinalizeRule optional V valid child I R U D)
include rule

theorem ready {γ : Γ} {d : Option Expr} (hd : I γ d) (p : Menus)
    (hp : ∀ x ∈ p.contexts child γ, valid x.1 x.2) (σ : FinState)
    (hV : V (finalizeEntries d p σ).2) (hU : U σ) : Ready R γ p (finalizeEntries d p σ).1 ∧ U (finalizeEntries d p σ).2 := by
  induction p generalizing σ with
  | nil => exact ⟨.nil, hU⟩
  | node e l n ihl ihn =>
    simp only [Menus.contexts, List.mem_cons, List.mem_append, forall_eq_or_imp] at hp
    have h := rule.final hp.1 hd (rule.entries hV) hU
    have hn := ihn (fun x hx => hp.2 x (.inr hx)) (finalizeEntry d e σ).2 hV h.2
    exact ⟨.node h.1 hn.1, hn.2⟩

end FinalizeRule

section Calls
variable (optional V valid child R U D)

/-- The rule for `menu_finalize` on an entry whose own conditions are final. -/
def MenuRule (fuel : ℕ) : Prop :=
  ∀ γ e e' (l n n' : Menus) σ, 2 * (l.size + n.size) + 1 ≤ fuel → valid γ e → R γ e e' →
    (∀ x ∈ l.contexts child (child γ e) ++ n.contexts child γ, valid x.1 x.2) → Ready R γ n n' →
    V (menuFinalize optional fuel (.node e' l n') σ).2 → U σ →
    ∃ L N p₁ p₂ : Menus, (menuFinalize optional fuel (.node e' l n') σ).1 = .node e' L N ∧
      n = p₁.append p₂ ∧
      Finished R D (l.contexts child (child γ e) ++ p₁.contexts child γ) L ∧
      (∀ x ∈ L.preorder, D e' x) ∧ Ready R γ p₂ N ∧
      U (menuFinalize optional fuel (.node e' l n') σ).2

/-- The rule for `menu_finalize` on all entries of a chain. -/
def ListRule (fuel : ℕ) : Prop :=
  ∀ γ (p : Menus) m σ, 2 * p.size ≤ fuel → (∀ x ∈ p.contexts child γ, valid x.1 x.2) →
    Ready R γ p m → V (finalizeList optional fuel m σ).2 → U σ →
    Finished R D (p.contexts child γ) (finalizeList optional fuel m σ).1 ∧
      U (finalizeList optional fuel m σ).2

/-- The rule for the entries that go under an entry `e'`. -/
def NestRule (fuel : ℕ) : Prop :=
  ∀ γ e e' s b (p : Menus) m σ, 2 * p.size ≤ fuel → valid γ e → R γ e e' → e'.sym = some s →
    (∀ x ∈ p.contexts child γ, valid x.1 x.2) → Ready R γ p m →
    V (nestEntries optional fuel s b m σ).2 → U σ →
    ∃ p₁ p₂ : Menus, p = p₁.append p₂ ∧
      Finished R D (p₁.contexts child γ) (nestEntries optional fuel s b m σ).1.1 ∧
      (∀ x ∈ (nestEntries optional fuel s b m σ).1.1.preorder, D e' x) ∧
      Ready R γ p₂ (nestEntries optional fuel s b m σ).1.2 ∧
      U (nestEntries optional fuel s b m σ).2

end Calls

theorem Menus.size_append (m m' : Menus) : (m.append m').size = m.size + m'.size := by
  induction m with
  | nil => simp [append]
  | node e l n ihl ihn => simp [append, ihn]; omega

theorem Menus.append_assoc (m₁ m₂ m₃ : Menus) :
    (m₁.append m₂).append m₃ = m₁.append (m₂.append m₃) := by
  induction m₁ with
  | nil => rfl
  | node e l n ihl ihn => simp [append, ihn]

theorem Finished.nil : Finished R D [] .nil := ⟨.nil, trivial⟩

theorem Finished.lift {es : List (Γ × Entry)} {m : Menus} (h : Finished R D es m)
    (sym : Option Sym) (σ : FinState) : Finished R D es (liftEntries sym m σ).1 :=
  ⟨by rw [liftEntries_preorder]; exact h.entries, liftEntries_nested sym h.nested σ⟩

/-- An entry, what is under it, and the entries after it. -/
theorem Finished.node {γ : Γ} {e e' : Entry} {es es' : List (Γ × Entry)} {l n : Menus}
    (he : R γ e e') (hl : Finished R D es l) (hD : ∀ x ∈ l.preorder, D e' x)
    (hn : Finished R D es' n) : Finished R D ((γ, e) :: (es ++ es')) (.node e' l n) :=
  ⟨.cons he (List.rel_append hl.entries hn.entries), hD, hl.nested, hn.nested⟩

/-- Every final entry comes from a parsed one. -/
theorem Finished.exists_of_mem {es : List (Γ × Entry)} {m : Menus} (h : Finished R D es m) :
    ∀ e' ∈ m.preorder, ∃ x ∈ es, R x.1 x.2 e' := by
  have main {es : List (Γ × Entry)} {l : List Entry}
      (h : List.Forall₂ (fun x e' => R x.1 x.2 e') es l) : ∀ e' ∈ l, ∃ x ∈ es, R x.1 x.2 e' := by
    induction h with
    | nil => simp
    | cons hx _ ih =>
      intro e' he'
      rcases List.mem_cons.mp he' with rfl | he'
      · exact ⟨_, List.mem_cons_self, hx⟩
      · obtain ⟨x, hmem, hx⟩ := ih e' he'
        exact ⟨x, List.mem_cons_of_mem _ hmem, hx⟩
  exact main h.entries

namespace FinalizeRule
variable (rule : FinalizeRule optional V valid child I R U D)
include rule

/-- Entries that were written under an entry. -/
theorem under_finished {γ : Γ} {e e' : Entry} {l L : Menus} (hv : valid γ e) (he : R γ e e')
    (hl : ∀ x ∈ l.contexts child (child γ e), valid x.1 x.2)
    (hL : Finished R D (l.contexts child (child γ e)) L) : ∀ x ∈ L.preorder, D e' x := by
  intro x' hx'
  obtain ⟨x, hx, hR⟩ := hL.exists_of_mem x' hx'
  exact rule.under hv he hx (hl x hx) hR

/-- The members that an entry gets. -/
theorem lift_state {γ : Γ} {e e' : Entry} {es : List (Γ × Entry)} {m : Menus} (hv : valid γ e)
    (he : R γ e e') (hes : ∀ x ∈ es, valid x.1 x.2) (hm : Finished R D es m)
    (hD : ∀ x ∈ m.preorder, D e' x) (σ : FinState) (hU : U σ) :
    U (liftEntries e'.sym m σ).2 := by
  refine liftEntries_state (fun x' hx' σ hU => ?_) σ hU
  obtain ⟨x, hx, hR⟩ := hm.exists_of_mem x' hx'
  exact rule.addValue hv he (hes x hx) hR (hD x' hx') hU

theorem listRule_succ {fuel : ℕ} (ihm : MenuRule optional V valid child R U D fuel)
    (ihl : ListRule optional V valid child R U D fuel) :
    ListRule optional V valid child R U D (fuel + 1) := by
  intro γ p m σ hf hp hr hV hU
  cases hr with
  | nil => cases fuel <;> exact ⟨.nil, hU⟩
  | @node e e' l n n' he hn =>
    simp only [Menus.contexts, List.mem_cons, forall_eq_or_imp] at hp
    simp only [Menus.size_node] at hf
    simp only [finalizeList] at hV ⊢
    have hmenu := ihm γ e e' l n n' σ (by omega) hp.1 he hp.2 hn
    generalize menuFinalize optional fuel (.node e' l n') σ = out at hmenu hV ⊢
    obtain ⟨M, σ'⟩ := out
    cases M with
    | nil =>
      obtain ⟨L, N, p₁, p₂, h, _⟩ := hmenu hV hU
      simp at h
    | node e₁ L₁ N₁ =>
      obtain ⟨L, N, p₁, p₂, h, rfl, hL, hD, hN, hU'⟩ :=
        hmenu (rule.list hV) hU
      obtain ⟨rfl, rfl, rfl⟩ := Menus.node.inj h
      simp only [Menus.size_append] at hf
      have hp₂ : ∀ x ∈ p₂.contexts child γ, valid x.1 x.2 := fun x hx =>
        hp.2 x (by simp [Menus.contexts_append, hx])
      obtain ⟨hfin, hU''⟩ := ihl γ p₂ N₁ σ' (by omega) hp₂ hN hV hU'
      refine ⟨?_, hU''⟩
      rw [Menus.contexts, Menus.contexts_append, ← List.append_assoc]
      exact .node he hL hD hfin

theorem nestRule_succ {fuel : ℕ} (ihm : MenuRule optional V valid child R U D fuel)
    (ihn : NestRule optional V valid child R U D fuel) :
    NestRule optional V valid child R U D (fuel + 1) := by
  intro γ e e' s b p m σ hf hv he hs hp hr hV hU
  cases hr with
  | nil => exact ⟨.nil, .nil, rfl, .nil, by simp [nestEntries], .nil, hU⟩
  | @node y y' l n n' hy hn =>
    have hp' := hp
    simp only [Menus.contexts, List.mem_cons, forall_eq_or_imp] at hp
    simp only [Menus.size_node] at hf
    simp only [nestEntries] at hV ⊢
    split_ifs at hV ⊢ with hnest
    · have hmenu := ihm γ y y' l n n' σ (by omega) hp.1 hy hp.2 hn
      have hD' := rule.nest hv he hs hp.1 hy hnest
      generalize menuFinalize optional fuel (.node y' l n') σ = out at hmenu hV ⊢
      obtain ⟨M, σ'⟩ := out
      cases M with
      | nil =>
        obtain ⟨L, N, p₁, p₂, h, _⟩ := hmenu hV hU
        simp at h
      | node e₁ L₁ N₁ =>
        obtain ⟨L, N, p₁, p₂, h, rfl, hL, hD, hN, hU'⟩ :=
          hmenu (rule.toBackward.nest hV) hU
        obtain ⟨rfl, rfl, rfl⟩ := Menus.node.inj h
        simp only [Menus.size_append] at hf
        have hp₂ : ∀ x ∈ p₂.contexts child γ, valid x.1 x.2 := fun x hx =>
          hp.2 x (by simp [Menus.contexts_append, hx])
        obtain ⟨q₁, q₂, rfl, hfin, _, hready, hU''⟩ :=
          ihn γ e e' s b p₂ N₁ σ' (by omega) hv he hs hp₂ hN hV hU'
        refine ⟨.node y l (p₁.append q₁), q₂, ?_, ?_, fun x _ => hD' x, hready, hU''⟩
        · simp only [Menus.append, Menus.append_assoc]
        · rw [Menus.contexts, Menus.contexts_append, ← List.append_assoc]
          exact .node hy hL hD hfin
    · exact ⟨.nil, .node y l n, rfl, .nil, by simp, .node hy hn, hU⟩

theorem menuRule_succ {fuel : ℕ} (ihl : ListRule optional V valid child R U D fuel)
    (ihn : NestRule optional V valid child R U D fuel) :
    MenuRule optional V valid child R U D (fuel + 1) := by
  intro γ e e' l n n' σ hf hv he hp hn hV hU
  have hpl : ∀ x ∈ l.contexts child (child γ e), valid x.1 x.2 := fun x hx =>
    hp x (List.mem_append_left _ hx)
  have hpn : ∀ x ∈ n.contexts child γ, valid x.1 x.2 := fun x hx =>
    hp x (List.mem_append_right _ hx)
  match l with
  | .node e₁ l₁ n₁ =>
    simp only [menuFinalize] at hV ⊢
    have hd := rule.below hv he
    have hU₁ := rule.setType hv he hpl hU
    generalize setChoiceType e'.sym (.node e₁ l₁ n₁) σ = σ₁ at hV hU₁ ⊢
    have hready := rule.ready hd _ hpl σ₁
    generalize finalizeEntries (parentDep e') (.node e₁ l₁ n₁) σ₁ = r₂ at hV hready ⊢
    have hlist := ihl (child γ e) (.node e₁ l₁ n₁) r₂.1 r₂.2 (by omega) hpl
    have hback : V (finalizeList optional fuel r₂.1 r₂.2).2 → V r₂.2 := rule.list
    generalize finalizeList optional fuel r₂.1 r₂.2 = r₃ at hV hlist hback ⊢
    have hV₃ := rule.lift (rule.revDep hV)
    obtain ⟨hr, hU₂⟩ := hready (hback hV₃) hU₁
    obtain ⟨hfin, hU₃⟩ := hlist hr hV₃ hU₂
    have hlift := hfin.lift e'.sym r₃.2
    have hD := rule.under_finished hv he hpl hlift
    refine ⟨_, n', .nil, n, rfl, rfl, ?_, hD, hn, ?_⟩
    · simpa [Menus.contexts] using hlift
    · rw [liftEntries_preorder] at hD
      exact rule.addRevDep hv he (rule.lift_state hv he hpl hfin hD r₃.2 hU₃)
  | .nil =>
    simp only [menuFinalize] at hV ⊢
    cases hs : e'.sym with
    | none =>
      simp only [hs] at hV ⊢
      exact ⟨.nil, n', .nil, n, rfl, rfl, .nil, by simp, hn, hU⟩
    | some s =>
      simp only [hs] at hV ⊢
      have hnest := ihn γ e e' s (comparedDep σ.type (e'.prompt.bind (·.visible))) n n' σ
        (by simp at hf; omega) hv he hs hpn hn
      generalize nestEntries optional fuel s (comparedDep σ.type (e'.prompt.bind (·.visible))) n' σ
        = r at hV hnest ⊢
      obtain ⟨p₁, p₂, rfl, hfin, hD, hready, hU₁⟩ :=
        hnest (rule.lift (rule.revDep hV)) hU
      refine ⟨_, r.1.2, p₁, p₂, rfl, rfl, ?_, ?_, hready, ?_⟩
      · simpa [Menus.contexts] using hfin.lift (some s) r.2
      · rw [liftEntries_preorder]; exact hD
      · have hp₁ : ∀ x ∈ p₁.contexts child γ, valid x.1 x.2 := fun x hx =>
          hpn x (by simp [Menus.contexts_append, hx])
        exact rule.addRevDep hv he (hs ▸ rule.lift_state hv he hp₁ hfin hD r.2 hU₁)

/-- The rule for all calls. -/
theorem allCalls (fuel : ℕ) : MenuRule optional V valid child R U D fuel ∧
    ListRule optional V valid child R U D fuel ∧
    NestRule optional V valid child R U D fuel := by
  induction fuel with
  | zero =>
    refine ⟨fun _ _ _ _ _ _ _ hf => by omega, ?_, ?_⟩
    · intro γ p m σ hf _ hr _ hU
      cases hr with
      | nil => exact ⟨.nil, hU⟩
      | node _ _ => simp at hf
    · intro γ e e' s b p m σ hf _ _ _ _ hr _ hU
      cases hr with
      | nil => exact ⟨.nil, .nil, rfl, .nil, by simp [nestEntries], .nil, hU⟩
      | node _ _ => simp at hf
  | succ fuel ih =>
    exact ⟨rule.menuRule_succ ih.2.1 ih.2.2, rule.listRule_succ ih.1 ih.2.1,
      rule.nestRule_succ ih.1 ih.2.2⟩

/-- The rule for `menu_finalize(&rootmenu)`. -/
theorem root {γ : Γ} (hγ : I γ none) (p : Menus) (hp : ∀ x ∈ p.contexts child γ, valid x.1 x.2)
    (σ : FinState) (hU : U σ) (M : Menus × FinState)
    (hM : M = liftEntries none
      (finalizeList optional (2 * p.size) (finalizeEntries none p σ).1 (finalizeEntries none p σ).2).1
      (finalizeList optional (2 * p.size) (finalizeEntries none p σ).1 (finalizeEntries none p σ).2).2)
    (hV : V M.2) : Finished R D (p.contexts child γ) M.1 ∧ U M.2 := by
  subst hM
  have hready := rule.ready hγ p hp σ
  generalize finalizeEntries none p σ = r at hV hready ⊢
  have hlist := (rule.allCalls (2 * p.size)).2.1 γ p r.1 r.2 le_rfl hp
  have hback : V (finalizeList optional (2 * p.size) r.1 r.2).2 → V r.2 := rule.list
  generalize finalizeList optional (2 * p.size) r.1 r.2 = r' at hV hlist hback ⊢
  have hV' := rule.lift hV
  obtain ⟨hr, hU₁⟩ := hready (hback hV') hU
  obtain ⟨hfin, hU₂⟩ := hlist hr hV' hU₁
  exact ⟨hfin.lift none r'.2, liftEntries_state (fun _ _ _ hU => hU) r'.2 hU₂⟩

omit rule in
/-- The rule for the whole tree. -/
theorem finalized {t : ParsedTree} (rule : FinalizeRule t.optional V valid child I R U D) {γ : Γ}
    (hγ : I γ none) (hv : ∀ x ∈ t.block.menus.contexts child γ, valid x.1 x.2)
    (hV : V t.finalized.2) (hU : U t.initial) :
    Finished R D (t.block.menus.contexts child γ) t.finalized.1 ∧ U t.finalized.2 :=
  rule.root hγ _ hv _ hU _ rfl hV

end FinalizeRule
end Rule

end Grasshopper.Kconfig
