import Grasshopper.Kconfig.Menu.Structure

/-! # A choice in a choice

A choice that is a member of another one is written inside it, so `sym_lookup` makes it later, and
it comes first in its bucket of the symbol table.
-/

namespace Grasshopper.Kconfig

/-- The choices around what is under an entry, the nearest first. -/
def aroundChoices (γ : List ℕ) (e : Entry) : List ℕ :=
  match e.sym with
  | some (.choice k) => k :: γ
  | _ => γ

def nearestOf (γ : List ℕ) : Option Sym := γ.head?.map .choice

theorem nearestOf_around (γ : List ℕ) (e : Entry) :
    nearestOf (aroundChoices γ e) = nearestChoice (nearestOf γ) e := by
  unfold aroundChoices nearestChoice
  cases e.sym with
  | none => rfl
  | some s => cases s <;> rfl

theorem subset_around (γ : List ℕ) (e : Entry) : γ ⊆ aroundChoices γ e := by
  unfold aroundChoices
  split
  · exact List.subset_cons_self _ γ
  · exact List.Subset.refl γ

theorem mem_around {γ : List ℕ} {e : Entry} {k : ℕ} (h : e.sym = some (.choice k)) :
    k ∈ aroundChoices γ e := by
  simp [aroundChoices, h]

/-- What is around a tree is around each of its entries. -/
theorem Menus.subset_contexts {γ : List ℕ} {m : Menus} :
    ∀ x ∈ m.contexts aroundChoices γ, γ ⊆ x.1 := by
  induction m generalizing γ with
  | nil => exact List.forall_mem_nil _
  | node e l n ihl ihn =>
    simp only [contexts, List.forall_mem_cons, List.forall_mem_append]
    exact ⟨List.Subset.refl γ, fun x hx => List.Subset.trans (subset_around γ e) (ihl x hx), ihn⟩

/-- The choices under the entries of a tree are in a list, each after those around it. -/
def Menus.Ordered (γ : List ℕ) (m : Menus) (ks : List ℕ) : Prop :=
  ∀ x ∈ m.contexts aroundChoices γ, ∀ k, x.2.sym = some (.choice k) →
    k ∈ ks ∧ ∀ j ∈ x.1, j ∈ γ ∨ [j, k].Sublist ks

theorem Menus.Ordered.nil (γ ks : List ℕ) : Menus.nil.Ordered γ ks := List.forall_mem_nil _

theorem Menus.Ordered.node {γ left right : List ℕ} {e : Entry} {l n : Menus}
    (he : ∀ k, e.sym ≠ some (.choice k)) (hl : l.Ordered γ left) (hn : n.Ordered γ right) :
    (Menus.node e l n).Ordered γ (left ++ right) := by
  have haround : aroundChoices γ e = γ := by
    unfold aroundChoices
    split
    · rename_i k hk
      exact absurd hk (he k)
    · rfl
  unfold Ordered
  simp only [contexts, haround, List.forall_mem_cons, List.forall_mem_append]
  refine ⟨fun k hk => absurd hk (he k), fun x hx k hk => ?_, fun x hx k hk => ?_⟩
  · obtain ⟨hmem, hj⟩ := hl x hx k hk
    exact ⟨List.mem_append_left _ hmem, fun j hjx =>
      (hj j hjx).imp_right fun hs => hs.trans (List.sublist_append_left left right)⟩
  · obtain ⟨hmem, hj⟩ := hn x hx k hk
    exact ⟨List.mem_append_right _ hmem, fun j hjx =>
      (hj j hjx).imp_right fun hs => hs.trans (List.sublist_append_right left right)⟩

/-- The choices around a choice are written before it. -/
theorem Block.ordered (b : Block) (γ : List ℕ) : b.menus.Ordered γ b.choices := by
  induction b generalizing γ with
  | nil => exact .nil γ []
  | config name menuconfig options next ih =>
    exact .node (by simp) (.nil γ []) (ih γ)
  | comment text deps next ih =>
    exact .node (by simp [commentEntry]) (.nil γ []) (ih γ)
  | menu text deps body next ihb ihn => exact .node (by simp [menuEntry]) (ihb γ) (ihn γ)
  | cond dep body next ihb ihn =>
    exact .node (by simp [condEntry, menuAddDep]) (ihb γ) (ihn γ)
  | choice k₀ options body next ihb ihn =>
    have hsym := choiceEntry_sym menuCheckDep k₀ options
    have haround : aroundChoices γ (choiceEntry menuCheckDep k₀ options) = k₀ :: γ := by
      simp [aroundChoices]
    change ∀ x ∈ (Menus.node (choiceEntry menuCheckDep k₀ options) body.menus next.menus).contexts
      aroundChoices γ, _
    simp only [Menus.contexts, haround, List.forall_mem_cons, List.forall_mem_append, choices]
    refine ⟨fun k hk => ?_, fun x hx k hk => ?_, fun x hx k hk => ?_⟩
    · obtain rfl : k₀ = k := by simpa [hsym] using hk
      exact ⟨List.mem_cons_self, fun j hj => .inl hj⟩
    · obtain ⟨hmem, hj⟩ := ihb (k₀ :: γ) x hx k hk
      refine ⟨by simp [hmem], fun j hjx => ?_⟩
      rcases hj j hjx with hj | hj
      · rcases List.mem_cons.mp hj with rfl | hj
        · refine .inr (List.Sublist.cons_cons j ?_)
          exact List.singleton_sublist.mpr (List.mem_append_left _ hmem)
        · exact .inl hj
      · exact .inr ((hj.trans (List.sublist_append_left _ _)).cons k₀)
    · obtain ⟨hmem, hj⟩ := ihn γ x hx k hk
      exact ⟨by simp [hmem], fun j hjx => (hj j hjx).imp_right fun hs =>
        (hs.trans (List.sublist_append_right _ _)).cons k₀⟩

/-! ## The lists of the choices -/

namespace ParsedTree
variable (t : ParsedTree)

/-- A choice is written before another one. -/
def Before (j k : ℕ) : Prop := t.block.choices.idxOf j < t.block.choices.idxOf k

/-- A member of a choice that is a choice is written after it. -/
def MembersAfter (σ : FinState) : Prop :=
  ∀ j k, Sym.choice k ∈ σ.members (.choice j) → t.Before j k

theorem before_of_sublist {j k : ℕ} (h : [j, k].Sublist t.block.choices) : t.Before j k := by
  have hpair : t.block.choices.Pairwise fun x y =>
      t.block.choices.idxOf x < t.block.choices.idxOf y := by
    refine List.pairwise_iff_getElem.mpr fun i i' hi hi' hlt => ?_
    rwa [t.choices_nodup.idxOf_getElem, t.choices_nodup.idxOf_getElem]
  simpa [Before] using hpair.sublist h

variable {t}

theorem MembersAfter.of_members {σ σ' : FinState} (h : t.MembersAfter σ)
    (heq : σ'.members = σ.members) : t.MembersAfter σ' := by
  intro j k hk
  rw [heq] at hk
  exact h j k hk

theorem MembersAfter.addMember {σ : FinState} (h : t.MembersAfter σ) {c m : Sym}
    (hcm : ∀ j k, c = .choice j → m = .choice k → t.Before j k) :
    t.MembersAfter (σ.addMember c m) := by
  intro j k hk
  by_cases hc : .choice j = c
  · subst hc
    simp only [FinState.addMember, Function.update_self, List.mem_append,
      List.mem_singleton] at hk
    rcases hk with hk | rfl
    · exact h j k hk
    · exact hcm j k rfl rfl
  · simp only [FinState.addMember, Function.update_of_ne hc] at hk
    exact h j k hk

theorem foldl_addSelect_members (sym : Option Sym) (ps : List Property) (σ : FinState) :
    (ps.foldl (addSelect sym) σ).members = σ.members := by
  induction ps generalizing σ with
  | nil => rfl
  | cons p ps ih =>
    rw [List.foldl_cons, ih]
    unfold addSelect
    split <;> rfl

theorem finalizeRule_after (t : ParsedTree) :
    FinalizeRule t.optional (fun σ => TypesGrow σ.type t.config.type)
      (fun γ e => (e.Over fun x => True ∧ x.isChoice = false) ∧
        ∀ k, e.sym = some (.choice k) → ∀ j ∈ γ, t.Before j k)
      aroundChoices (fun γ => Inside (fun _ => True) (nearestOf γ))
      (fun γ => Placed (fun _ => True) (nearestOf γ)) t.MembersAfter
      (fun e x => ∀ j k, e.sym = some (.choice j) → x.sym = some (.choice k) → t.Before j k) where
  toBackward := backward_typesGrow t.optional _
  final {γ d e σ} hv hd hV hU := by
    have hno : (σ.type .no).isLogic = false := by
      rw [finalizeEntry_type] at hV
      by_cases hty : σ.type .no = .unknown
      · rw [hty]; rfl
      · rw [← hV .no hty, t.type_const rfl]; rfl
    exact ⟨finalizeEntry_placed (fun _ _ => trivial) hd hv.1 hno,
      hU.of_members (foldl_addSelect_members _ _ _)⟩
  below hv hR := by
    rw [nearestOf_around]
    exact hR.parentDep fun _ _ => trivial
  setType {γ e e' σ l} hv hR hl hU := by
    unfold setChoiceType
    split
    · dsimp only
      split_ifs
      · exact hU.of_members rfl
      · exact hU
    · exact hU
  addValue {γ e e' γ' x x' σ} hv hR hx hRx hD hU := by
    unfold addChoiceValue
    split
    · rename_i s m hs hm
      split_ifs
      · exact MembersAfter.addMember (hU.of_members rfl) fun j k hj hk =>
          hD j k (hj ▸ hs) (hk ▸ hm)
      · exact hU
    · exact hU
  addRevDep {γ e e' σ} hv hR hU := by
    unfold addChoiceRevDep
    split
    · split_ifs
      · exact hU
      · exact hU.of_members rfl
    · exact hU
  under {γ e e' γ' x x' l} hv hR hx hxv hRx j k hj hk := by
    rw [hR.sym] at hj
    rw [hRx.sym] at hk
    exact hxv.2 k hk j (Menus.subset_contexts _ hx (mem_around hj))
  nest {γ e e' s y y' τ b} hv hR hs hy hRy hnest x' j k hj hk := by
    -- what follows a choice does not depend on it
    obtain rfl : s = .choice j := Option.some.inj (hs.symm.trans hj)
    have hmem : Sym.choice j ∈ optSyms y'.condition := by
      unfold nests at hnest
      split at hnest
      · cases hnest
      · rename_i d hd
        rw [Bool.and_eq_true] at hnest
        exact of_decide_eq_true hnest.1
    have hnear := (hRy.condition.syms _ hmem).2 rfl
    have hjγ : j ∈ γ := by
      unfold nearestOf at hnear
      cases γ with
      | nil => simp at hnear
      | cons i γ => simp_all
    exact absurd (hv.2 j (hR.sym ▸ hj) j hjγ) (lt_irrefl _)

/-- A choice that is a member of a choice is written after it. -/
theorem before_of_member (t : ParsedTree) {j k : ℕ}
    (h : Sym.choice k ∈ t.config.members (.choice j)) : t.Before j k := by
  have hover := t.block.entry_over (Q := fun x => True ∧ x.isChoice = false) ⟨trivial, rfl⟩
    fun x hx => ⟨trivial, t.named x hx⟩
  have hfin := t.finalizeRule_after.finalized (γ := []) ⟨by simp [optSyms], by simp [nearestOf]⟩
    (fun x hx => ⟨hover _ (Menus.mem_preorder_of_contexts hx), fun k hk j hj => ?_⟩)
    (.refl _) (fun j k hk => by simp [initial] at hk)
  · exact hfin.2 j k h
  · rcases (t.block.ordered [] x hx k hk).2 j hj with hj | hs
    · cases hj
    · exact t.before_of_sublist hs

/-! ## The order of the symbol table -/

theorem isChoice_lookup (name : Text) (isconst : Bool) :
    (Sym.lookup name isconst).isChoice = false := by
  unfold Sym.lookup
  split_ifs <;> rfl

theorem initSyms_not_choice {sym : Sym} (hsym : sym.isChoice = false) (value : Option Text) :
    ∀ s ∈ initSyms sym value, s.isChoice = false := by
  cases value with
  | none => simpa [initSyms] using hsym
  | some value => simpa [initSyms, isChoice_lookup] using hsym

/-- The choices are looked up last. -/
theorem lookups_eq (t : ParsedTree) : ∃ named, t.lookups = named ++ t.block.choices.map .choice ∧
    ∀ s ∈ named, s.isChoice = false := by
  refine ⟨_, rfl, ?_⟩
  simp only [List.forall_mem_append, List.forall_mem_singleton]
  exact ⟨⟨⟨initSyms_not_choice rfl _, initSyms_not_choice rfl _⟩, rfl⟩, t.named⟩

/-- After a choice only choices follow that were written before it. -/
theorem choices_reversed (t : ParsedTree) : t.config.symbols.Pairwise fun a b =>
    ∀ j, a = .choice j → ∃ k, b = .choice k ∧ t.Before k j := by
  have hlookups : t.lookups.Pairwise fun a b =>
      ∀ j k, a = .choice j → b = .choice k → t.Before j k := by
    obtain ⟨named, hl, hnamed⟩ := t.lookups_eq
    rw [hl, List.pairwise_append]
    refine ⟨List.pairwise_of_forall_mem_list fun a ha b _ j k hj _ => ?_, ?_, fun a ha b _ j k hj _ => ?_⟩
    · cases hj ▸ hnamed a ha
    · refine List.pairwise_map.mpr (List.pairwise_iff_getElem.mpr fun i i' hi hi' hlt j k hj hk => ?_)
      rw [Before, ← Sym.choice.inj hj, ← Sym.choice.inj hk, t.choices_nodup.idxOf_getElem,
        t.choices_nodup.idxOf_getElem]
      exact hlt
    · cases hj ▸ hnamed a ha
  have hnewest : t.newest.Pairwise fun a b => ∀ j k, a = .choice j → b = .choice k → t.Before k j := by
    refine ((List.pairwise_reverse.mpr ?_).sublist (List.dedup_sublist _)).filter _
    exact hlookups.imp fun h j k hj hk => h k j hk hj
  have hhash {a : Sym} {j : ℕ} (ha : a = .choice j) : a.hash = 256 := by rw [ha]; rfl
  refine List.pairwise_flatMap.mpr ⟨fun i _ => ?_, ?_⟩
  · refine ((hnewest.filter _).imp_of_mem fun {a b} ha hb h j hj => ?_)
    simp only [List.mem_filter, decide_eq_true_eq] at ha hb
    have hb256 : b.hash = 256 := hb.2.trans (ha.2.symm.trans (hhash hj))
    cases b with
    | choice k => exact ⟨k, rfl, h j k hj rfl⟩
    | _ => exact absurd hb256 (Sym.hash_lt_of_named rfl).ne
  · refine List.pairwise_lt_range.imp_of_mem fun {i i'} hi hi' hlt a ha b hb j hj => ?_
    simp only [List.mem_filter, decide_eq_true_eq] at ha
    rw [List.mem_range] at hi'
    have := ha.2.symm.trans (hhash hj)
    omega

/-- The members of a choice come before it. -/
theorem member_before_choice (t : ParsedTree) {l l' : List Sym} {c m : Sym} (hc : c.isChoice = true)
    (hl : t.config.symbols = l ++ c :: l') (hm : m ∈ t.config.members c) : m ∈ l := by
  have hin := t.mem_symbols_of_member hm
  have hpair := t.choices_reversed
  rw [hl] at hin hpair
  cases c with
  | choice j =>
    have hafter {k : ℕ} (hk : m = .choice k) : t.Before j k := t.before_of_member (hk ▸ hm)
    rcases List.mem_append.mp hin with hin | hin
    · exact hin
    rcases List.mem_cons.mp hin with rfl | hin
    · exact absurd (hafter rfl) (lt_irrefl _)
    · rw [List.pairwise_append, List.pairwise_cons] at hpair
      obtain ⟨k, hk, hbefore⟩ := hpair.2.1.1 m hin j rfl
      exact absurd (hafter hk) (lt_asymm hbefore)
  | _ => simp [Sym.isChoice] at hc

end ParsedTree

end Grasshopper.Kconfig
