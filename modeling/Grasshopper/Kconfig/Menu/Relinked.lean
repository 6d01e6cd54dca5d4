import Grasshopper.Library.Program
import Grasshopper.Kconfig.Menu.Built
import Grasshopper.Kconfig.Menu.Rule

/-! # `menu_finalize` keeps the entries in order

On entries that are linked into a forest `menu_finalize` does what it does on the menu tree: it
returns, the entries are linked again, in the same preorder, and each of them was finalized once.
-/

namespace Grasshopper.Kconfig

open Links (Heap Forest)

@[simp] theorem menusOf_append (h : Heap Entry) (f g : Forest) :
    menusOf h (f.append g) = (menusOf h f).append (menusOf h g) := by
  induction f with
  | nil => rfl
  | node i l n _ ih => simp [Menus.append, ih]

/-- The last loop over two chains, one after the other. -/
theorem liftEntries_append (sym : Option Sym) (m m' : Menus) (σ : FinState) :
    liftEntries sym (m.append m') σ =
      (((liftEntries sym m σ).1.append (liftEntries sym m' (liftEntries sym m σ).2).1),
        (liftEntries sym m' (liftEntries sym m σ).2).2) := by
  induction m generalizing σ with
  | nil => rfl
  | node e l n ihl ihn =>
    cases hprompt : e.prompt with
    | some p => simp only [Menus.append, liftEntries, hprompt, ihn]
    | none => simp only [Menus.append, liftEntries, hprompt, ihn, Menus.append_assoc]

/-! ## What a part of the run does -/

/-- From one state to the other the entries of a forest are linked into another forest with the
same preorder, and `menu_finalize` was called on some of them. -/
structure Relinked (st st' : EntryState) (f f' : Forest) (calls : List ℕ) : Prop where
  preorder : f'.preorder = f.preorder
  called : st'.called = st.called ++ calls
  frame : ∀ i ∉ f.preorder, st'.menus i = st.menus i

namespace Relinked

variable {st st' st'' : EntryState} {f f' f'' g : Forest} {calls calls' : List ℕ}

theorem refl (st : EntryState) (f : Forest) : Relinked st st f f [] :=
  ⟨rfl, (List.append_nil _).symm, fun _ _ => rfl⟩

theorem trans (h : Relinked st st' f f' calls) (h' : Relinked st' st'' f' f'' calls') :
    Relinked st st'' f f'' (calls ++ calls') where
  preorder := h'.preorder.trans h.preorder
  called := by rw [h'.called, h.called, List.append_assoc]
  frame i hi := (h'.frame i (h.preorder ▸ hi)).trans (h.frame i hi)

/-- What is linked apart from the forest stays. -/
theorem linked (h : Relinked st st' f f' calls) {above : ℕ} {p q : Option ℕ}
    (hg : Links.Linked st.menus above p g q) (hdisjoint : ∀ i ∈ g.preorder, i ∉ f.preorder) :
    Links.Linked st'.menus above p g q :=
  hg.congr fun i hi => h.frame i (hdisjoint i hi)

theorem menusOf (h : Relinked st st' f f' calls)
    (hdisjoint : ∀ i ∈ g.preorder, i ∉ f.preorder) :
    menusOf st'.menus g = menusOf st.menus g :=
  menusOf_congr fun i hi => congrArg Links.Node.data (h.frame i (hdisjoint i hi))

end Relinked

/-! ## The loops -/

theorem firstSymbolAt_terminates {h : Heap Entry} {above : ℕ} {p : Option ℕ} {f : Forest}
    (hf : Links.Linked h above p f none) :
    Terminates (fun fuel => firstSymbolAt h fuel p) (firstSymbol (menusOf h f)) := by
  induction f generalizing p with
  | nil =>
    obtain rfl : p = none := hf
    exact .of_succ (fun _ => rfl) (.pure none)
  | node i l n _ ih =>
    obtain ⟨rfl, -, -, hn⟩ := hf
    have hrest := ih hn
    rw [menusOf_node, firstSymbol]
    cases hsym : (h i).data.sym with
    | some s => exact .of_succ (fun _ => by rw [firstSymbolAt, hsym]) (.pure (some s))
    | none => exact .of_succ (fun _ => by rw [firstSymbolAt, hsym]) hrest

theorem setChoiceTypeAt_terminates {st : EntryState} {above : ℕ} {p : Option ℕ} {f : Forest}
    (hf : Links.Linked st.menus above p f none) (sym : Option Sym) :
    Terminates (fun fuel => setChoiceTypeAt fuel sym p st)
      { st with fin := setChoiceType sym (menusOf st.menus f) st.fin } := by
  have hfirst := firstSymbolAt_terminates hf
  cases sym with
  | none => exact .pure st
  | some s =>
    by_cases hs : s.isChoice
    · cases hm : firstSymbol (menusOf st.menus f) with
      | none =>
        rw [hm] at hfirst
        simp only [setChoiceTypeAt, hs, if_true, setChoiceType, hm]
        exact hfirst.bind (.pure st)
      | some m =>
        rw [hm] at hfirst
        simp only [setChoiceTypeAt, hs, if_true, setChoiceType, hm]
        exact hfirst.bind (.pure _)
    · have hkeep : setChoiceType (some s) (menusOf st.menus f) st.fin = st.fin := by
        cases hm : firstSymbol (menusOf st.menus f) with
        | none => simp only [setChoiceType, hm]
        | some m => simp only [setChoiceType, hm, hs, Bool.false_eq_true, if_false]
      rw [hkeep]
      simp only [setChoiceTypeAt, hs]
      exact .pure st

theorem exists_finalizeEntriesAt (parentdep : Option Expr) {st : EntryState} {above : ℕ}
    {p : Option ℕ} {f : Forest} (hf : Links.Linked st.menus above p f none)
    (hnodup : f.preorder.Nodup) :
    ∃ st', Terminates (fun fuel => finalizeEntriesAt parentdep fuel p st) st' ∧
      finalizeEntries parentdep (menusOf st.menus f) st.fin = (menusOf st'.menus f, st'.fin) ∧
      (∀ i, (st.menus i).SamePointers (st'.menus i)) ∧
      (∀ i ∉ f.chain, st'.menus i = st.menus i) ∧ st'.called = st.called := by
  induction f generalizing p st with
  | nil =>
    obtain rfl : p = none := hf
    exact ⟨st, .of_succ (fun _ => rfl) (.pure st), rfl, fun _ => .of_eq rfl, fun _ _ => rfl, rfl⟩
  | node i l n _ ih =>
    obtain ⟨rfl, -, -, hn⟩ := hf
    rw [Forest.preorder_node, List.nodup_cons, List.mem_append, not_or] at hnodup
    obtain ⟨⟨hil, hin⟩, hln⟩ := hnodup
    obtain ⟨-, hnodupn, hdisjoint⟩ := List.nodup_append.mp hln
    rcases he : finalizeEntry parentdep (st.menus i).data st.fin with ⟨e, σ⟩
    let st₁ : EntryState := { st with menus := st.menus.setData i e, fin := σ }
    have hpointers : ∀ j, (st.menus j).SamePointers (st₁.menus j) := fun j =>
      st.menus.samePointers_setData i j e
    have hne : ∀ j ≠ i, st₁.menus j = st.menus j := fun j hj => st.menus.setData_of_ne i j e hj
    have hn₁ : Links.Linked st₁.menus above (st₁.menus i).next n none := by
      rw [(hpointers i).next]
      exact hn.of_samePointers fun j _ => hpointers j
    have hmenusn : menusOf st₁.menus n = menusOf st.menus n := by
      apply menusOf_congr
      intro j hj
      rw [hne j (fun heq => hin (heq ▸ hj))]
    obtain ⟨st', hsettles, hfunc, hpointers', hframe, hcalled⟩ := ih hn₁ hnodupn
    -- the entries under this one are not on the chain
    have hunder : ∀ j ∈ l.preorder, st'.menus j = st.menus j := by
      intro j hj
      rw [hframe j (fun hjn => hdisjoint j hj j (n.chain_subset_preorder hjn) rfl)]
      exact hne j (fun heq => hil (heq ▸ hj))
    have hi : (st'.menus i).data = e := by
      rw [hframe i (fun hjn => hin (n.chain_subset_preorder hjn))]
      exact congrArg Links.Node.data (st.menus.setData_self i e)
    refine ⟨st', .of_succ (fun fuel => ?_) hsettles, ?_, ?_, ?_, hcalled⟩
    · rw [finalizeEntriesAt, he]
    · rw [hmenusn] at hfunc
      have hfunc' : finalizeEntries parentdep (menusOf st.menus n) σ =
          (menusOf st'.menus n, st'.fin) := hfunc
      rw [menusOf_node, finalizeEntries, he, menusOf_node, hi]
      simp only [hfunc']
      rw [menusOf_congr fun j hj => congrArg Links.Node.data (hunder j hj)]
    · exact fun j => (hpointers j).trans (hpointers' j)
    · intro j hj
      rw [Forest.chain_node, List.mem_cons, not_or] at hj
      rw [hframe j hj.2, hne j hj.1]

theorem exists_setParents (parent : ℕ) {h : Heap Entry} {above i : ℕ} {l n : Forest}
    (hf : Links.Linked h above (some i) (.node i l n) none)
    (hnodup : (Forest.node i l n).preorder.Nodup) :
    ∃ h' lastMenu, Terminates (fun fuel => setParents parent fuel i h) (h', lastMenu) ∧
      (Forest.node i l n).last? = some lastMenu ∧
      Links.Linked h' parent (some i) (.node i l n) none ∧
      (∀ j, (h' j).data = (h j).data) ∧ ∀ j ∉ (Forest.node i l n).chain, h' j = h j := by
  induction n generalizing i l h with
  | nil =>
    obtain ⟨-, -, hl, hn⟩ := hf
    rw [Forest.preorder_node, List.nodup_cons, Forest.preorder_nil, List.append_nil] at hnodup
    have hself : h.setParent i (some parent) i = { h i with parent := some parent } :=
      h.setParent_self i _
    have hnext : (h.setParent i (some parent) i).next = none := by
      rw [hself]
      exact hn
    refine ⟨h.setParent i (some parent), i, .of_succ (fun fuel => ?_) (.pure _), rfl, ?_, ?_, ?_⟩
    · rw [setParents]
      simp only [hnext]
    · apply Links.Linked.node
      · rw [hself]
      · rw [hself]
        exact hl.congr fun j hj => h.setParent_of_ne i j _ (fun heq => hnodup.1 (heq ▸ hj))
      · exact hnext
    · exact fun j => Heap.field_update h i j Links.Node.data rfl
    · intro j hj
      exact h.setParent_of_ne i j _ (fun heq => hj (heq ▸ List.mem_cons_self))
  | node k l' n' _ ih =>
    obtain ⟨-, -, hl, hn⟩ := hf
    rw [Forest.preorder_node, List.nodup_cons, List.mem_append, not_or] at hnodup
    obtain ⟨⟨hil, hik⟩, hln⟩ := hnodup
    obtain ⟨-, hnodupn, hdisjoint⟩ := List.nodup_append.mp hln
    have hself : h.setParent i (some parent) i = { h i with parent := some parent } :=
      h.setParent_self i _
    have hne : ∀ j ≠ i, h.setParent i (some parent) j = h j := fun j hj =>
      h.setParent_of_ne i j _ hj
    have hnext : (h i).next = some k := hn.1
    have hn₁ : Links.Linked (h.setParent i (some parent)) above (some k) (.node k l' n') none :=
      (hnext ▸ hn).congr fun j hj => hne j (fun heq => hik (heq ▸ hj))
    obtain ⟨h', lastMenu, hsettles, hlast, hlinked, hdata, hframe⟩ := ih hn₁ hnodupn
    have hi : h' i = { h i with parent := some parent } := by
      rw [hframe i (fun hj => hik (Forest.chain_subset_preorder _ hj)), hself]
    refine ⟨h', lastMenu, .of_succ (fun fuel => ?_) hsettles, ?_, ?_, ?_, ?_⟩
    · rw [setParents]
      simp only [hself, hnext]
    · rw [Forest.last?_node, hlast]
      rfl
    · apply Links.Linked.node
      · rw [hi]
      · rw [hi]
        apply hl.congr
        intro j hj
        have hchain : j ∉ (Forest.node k l' n').chain := fun hjn =>
          hdisjoint j hj j (Forest.chain_subset_preorder _ hjn) rfl
        rw [hframe j hchain, hne j (fun heq => hil (heq ▸ hj))]
      · rw [hi]
        exact hnext ▸ hlinked
    · intro j
      rw [hdata j]
      exact Heap.field_update h i j Links.Node.data rfl
    · intro j hj
      rw [Forest.chain_node, List.mem_cons, not_or] at hj
      rw [hframe j hj.2, hne j hj.1]

theorem spliceAfter_of_ne {h : Heap Entry} {i lastMenu j : ℕ} (hi : j ≠ i) (hlast : j ≠ lastMenu) :
    spliceAfter i lastMenu h j = h j := by
  simp only [spliceAfter]
  rw [Heap.setList_of_ne _ _ _ _ hi, Heap.setNext_of_ne _ _ _ _ hi, Heap.setNext_of_ne _ _ _ _ hlast]

@[simp] theorem spliceAfter_data (h : Heap Entry) (i lastMenu j : ℕ) :
    (spliceAfter i lastMenu h j).data = (h j).data := by
  simp only [spliceAfter, Heap.setList_data, Heap.setNext_data]

/-- The chain under an entry becomes the first part of what comes after it. -/
theorem linked_spliceAfter {h : Heap Entry} {parent i lastMenu : ℕ} {first : Option ℕ}
    {l n : Forest} (hnodup : (Forest.node i l n).preorder.Nodup) (hlist : (h i).list = first)
    (hl : Links.Linked h parent first l none) (hn : Links.Linked h parent (h i).next n none)
    (hlast : l.last? = some lastMenu) :
    spliceAfter i lastMenu h i = { h i with list := none, next := first } ∧
      Links.Linked (spliceAfter i lastMenu h) parent first (l.append n) none := by
  rw [Forest.preorder_node, List.nodup_cons, List.mem_append, not_or] at hnodup
  obtain ⟨⟨hil, hin⟩, hln⟩ := hnodup
  obtain ⟨hnodupl, -, hdisjoint⟩ := List.nodup_append.mp hln
  have hmem : lastMenu ∈ l.preorder := l.chain_subset_preorder (List.mem_of_getLast? hlast)
  have hne : i ≠ lastMenu := fun heq => hil (heq ▸ hmem)
  have hother : ∀ j ≠ i, spliceAfter i lastMenu h j = h.setNext lastMenu (h i).next j := by
    intro j hj
    simp only [spliceAfter]
    rw [Heap.setList_of_ne _ _ _ _ hj, Heap.setNext_of_ne _ _ _ _ hj]
  constructor
  · simp only [spliceAfter, Heap.setList_self, Heap.setNext_self,
      Heap.setNext_of_ne _ _ _ _ hne, hlist]
  · apply Links.Linked.append
    · apply (hl.setNext_last hnodupl hlast).congr
      exact fun j hj => hother j (fun heq => hil (heq ▸ hj))
    · apply hn.congr
      intro j hj
      rw [hother j (fun heq => hin (heq ▸ hj))]
      exact h.setNext_of_ne _ _ _ (fun heq => hdisjoint lastMenu hmem j hj heq.symm)

/-- The last loop returns on a chain, where it does what `liftEntries` does. -/
def Lifts (sym : Option Sym) (parent : ℕ) (p : Option ℕ) (st : EntryState) (f : Forest) : Prop :=
  ∃ st' f', Terminates (fun fuel => liftEntriesAt sym parent fuel p st) st' ∧
    Links.Linked st'.menus parent p f' none ∧
    liftEntries sym (menusOf st.menus f) st.fin = (menusOf st'.menus f', st'.fin) ∧
    Relinked st st' f f' []

section Lifts
variable {sym : Option Sym} {parent i : ℕ} {st : EntryState} {l n : Forest}

theorem Lifts.nil (sym : Option Sym) (parent : ℕ) (st : EntryState) :
    Lifts sym parent none st .nil :=
  ⟨st, .nil, .of_succ (fun _ => rfl) (.pure st), rfl, rfl, .refl st _⟩

/-- An entry that stays as it is. -/
theorem Lifts.keep (hf : Links.Linked st.menus parent (some i) (.node i l n) none)
    (hnodup : (Forest.node i l n).preorder.Nodup)
    (hkeep : (st.menus i).list = none ∨ (st.menus i).data.prompt ≠ none)
    (hrest : Lifts sym parent (st.menus i).next
      { st with fin := addChoiceValue sym (st.menus i).data st.fin } n) :
    Lifts sym parent (some i) st (.node i l n) := by
  obtain ⟨-, hp, hl, -⟩ := hf
  rw [Forest.preorder_node, List.nodup_cons, List.mem_append, not_or] at hnodup
  obtain ⟨⟨-, hin⟩, hln⟩ := hnodup
  have hdisjoint : ∀ j ∈ l.preorder, j ∉ n.preorder := fun j hj hjn =>
    (List.nodup_append.mp hln).2.2 j hj j hjn rfl
  obtain ⟨st', n', hsettles, hlinked, hfunc, hrel⟩ := hrest
  have hi : st'.menus i = st.menus i := hrel.frame i hin
  refine ⟨st', .node i l n', .of_succ (fun fuel => ?_) hsettles, ?_, ?_, ?_, hrel.called, ?_⟩
  · rw [liftEntriesAt]
    rcases hkeep with hlist | hprompt
    · simp only [hlist]
    · cases hprompt' : (st.menus i).data.prompt with
      | none => exact absurd hprompt' hprompt
      | some q =>
        split
        · contradiction
        · rfl
  · apply Links.Linked.node
    · rw [hi, hp]
    · rw [hi]
      exact hrel.linked hl hdisjoint
    · rw [hi]
      exact hlinked
  · have hmenusl : menusOf st'.menus l = menusOf st.menus l := hrel.menusOf hdisjoint
    have hfunc' : liftEntries sym (menusOf st.menus n)
        (addChoiceValue sym (st.menus i).data st.fin) = (menusOf st'.menus n', st'.fin) := hfunc
    rw [menusOf_node, menusOf_node, hi, hmenusl, liftEntries]
    rcases hkeep with hlist | hprompt
    · rw [hlist] at hl
      rw [hl.eq_nil, menusOf_nil]
      split <;> simp only [hfunc', liftEntries, Menus.append]
    · cases hprompt' : (st.menus i).data.prompt with
      | none => exact absurd hprompt' hprompt
      | some q => simp only [hfunc']
  · rw [Forest.preorder_node, Forest.preorder_node, hrel.preorder]
  · intro j hj
    rw [Forest.preorder_node, List.mem_cons, List.mem_append, not_or, not_or] at hj
    exact hrel.frame j hj.2.2

/-- An entry without a prompt that has others under it. -/
theorem Lifts.splice {first : ℕ}
    (hf : Links.Linked st.menus parent (some i) (.node i l n) none)
    (hnodup : (Forest.node i l n).preorder.Nodup) (hlist : (st.menus i).list = some first)
    (hprompt : (st.menus i).data.prompt = none)
    (hrest : ∀ st₁ : EntryState, Links.Linked st₁.menus parent (some first) (l.append n) none →
      Lifts sym parent (some first) st₁ (l.append n)) :
    Lifts sym parent (some i) st (.node i l n) := by
  have hnodupWhole := hnodup
  obtain ⟨-, hp, hl, hn⟩ := hf
  rw [Forest.preorder_node, List.nodup_cons, List.mem_append, not_or] at hnodup
  obtain ⟨⟨hil, hin⟩, hln⟩ := hnodup
  obtain ⟨hnodupl, -, hdisjoint⟩ := List.nodup_append.mp hln
  rw [hlist] at hl
  obtain ⟨l₀, n₀, hnode, -, -, -⟩ := hl.exists_node
  obtain ⟨h₁, lastMenu, hparents, hlast, hl₁, hdata₁, hframe₁⟩ :=
    exists_setParents parent (hnode ▸ hl) (hnode ▸ hnodupl)
  rw [← hnode] at hlast hl₁ hframe₁
  have hlastMem : lastMenu ∈ l.preorder := l.chain_subset_preorder (List.mem_of_getLast? hlast)
  have hout₁ : ∀ j ∉ l.preorder, h₁ j = st.menus j := fun j hj =>
    hframe₁ j (fun hjl => hj (l.chain_subset_preorder hjl))
  have hi₁ : h₁ i = st.menus i := hout₁ i hil
  have hn₁ : Links.Linked h₁ parent (h₁ i).next n none := by
    rw [hi₁]
    exact hn.congr fun j hj => hout₁ j (fun hjl => hdisjoint j hjl j hj rfl)
  have hlist₁ : (h₁ i).list = some first := by rw [hi₁, hlist]
  obtain ⟨hi₂, hchain⟩ := linked_spliceAfter hnodupWhole hlist₁ hl₁ hn₁ hlast
  -- the loop goes on with what was under the entry
  let st₁ : EntryState := { st with fin := addChoiceValue sym (st.menus i).data st.fin }
  let st₂ : EntryState := { st₁ with menus := spliceAfter i lastMenu h₁ }
  obtain ⟨st', g', hsettles, hlinked, hfunc, hrel⟩ := hrest st₂ hchain
  have hframe : ∀ j, j ∉ l.preorder → j ∉ n.preorder →
      st'.menus j = spliceAfter i lastMenu h₁ j := by
    intro j hjl hjn
    apply hrel.frame j
    rw [Forest.preorder_append, List.mem_append]
    exact not_or.mpr ⟨hjl, hjn⟩
  have hi : st'.menus i = { st.menus i with list := none, next := some first } := by
    rw [hframe i hil hin, hi₂, hi₁]
  have hgo : Terminates (fun fuel => liftEntriesAt sym parent fuel (st₂.menus i).next st₂) st' := by
    have hnext : (st₂.menus i).next = some first := congrArg Links.Node.next hi₂
    rw [hnext]
    exact hsettles
  have hround := hparents.bind (k := fun r fuel =>
    liftEntriesAt sym parent fuel (spliceAfter i r.2 r.1 i).next
      { st₁ with menus := spliceAfter i r.2 r.1 }) hgo
  refine ⟨st', .node i .nil g', .of_succ (fun fuel => ?_) hround, ?_, ?_, ?_, hrel.called, ?_⟩
  · rw [liftEntriesAt]
    simp only [hlist, hprompt]
    rfl
  · apply Links.Linked.node
    · rw [hi, hp]
    · rw [hi]
      exact .nil
    · rw [hi]
      exact hlinked
  · have hmenus : menusOf st₂.menus (l.append n) =
        (menusOf st.menus l).append (menusOf st.menus n) := by
      rw [← menusOf_append]
      apply menusOf_congr
      intro j _
      rw [spliceAfter_data, hdata₁]
    rw [hmenus, liftEntries_append] at hfunc
    obtain ⟨hfst, hsnd⟩ := Prod.mk.inj hfunc
    have hdata : (st'.menus i).data = (st.menus i).data := by rw [hi]
    rw [menusOf_node, menusOf_node, menusOf_nil, hdata, liftEntries]
    simp only [hprompt]
    rw [← hfst, ← hsnd]
  · rw [Forest.preorder_node, Forest.preorder_node, hrel.preorder, Forest.preorder_append,
      Forest.preorder_nil, List.nil_append]
  · intro j hj
    rw [Forest.preorder_node, List.mem_cons, List.mem_append, not_or, not_or] at hj
    rw [hframe j hj.2.1 hj.2.2, spliceAfter_of_ne hj.1 (fun heq => hj.2.1 (heq ▸ hlastMem)),
      hout₁ j hj.2.1]

end Lifts

/-- The last loop on any chain: the induction is on the entries it still has to look at. -/
theorem lifts (sym : Option Sym) (parent k : ℕ) {st : EntryState} {p : Option ℕ} {f : Forest}
    (hlen : f.preorder.length ≤ k) (hf : Links.Linked st.menus parent p f none)
    (hnodup : f.preorder.Nodup) : Lifts sym parent p st f := by
  induction k generalizing st p f with
  | zero =>
    cases f with
    | nil =>
      obtain rfl : p = none := hf
      exact .nil sym parent st
    | node i l n => exact absurd hlen (Nat.not_succ_le_zero _)
  | succ k ih =>
    cases f with
    | nil =>
      obtain rfl : p = none := hf
      exact .nil sym parent st
    | node i l n =>
      obtain rfl : p = some i := hf.1
      rw [Forest.preorder_node, List.length_cons, List.length_append] at hlen
      have hln : (l.preorder ++ n.preorder).Nodup := (List.nodup_cons.mp hnodup).2
      have hstay : (st.menus i).list = none ∨ (st.menus i).data.prompt ≠ none →
          Lifts sym parent (some i) st (.node i l n) := fun hkeep =>
        .keep hf hnodup hkeep (ih (by omega) hf.2.2.2 (List.nodup_append.mp hln).2.1)
      cases hlist : (st.menus i).list with
      | none => exact hstay (.inl hlist)
      | some first =>
        cases hprompt : (st.menus i).data.prompt with
        | some q => exact hstay (.inr (fun hnone => nomatch hprompt.symm.trans hnone))
        | none =>
          refine .splice hf hnodup hlist hprompt fun st₁ hchain => ih ?_ hchain ?_
          · rw [Forest.preorder_append, List.length_append]
            omega
          · rw [Forest.preorder_append]
            exact hln

/-- The entries up to `last_menu` come under the one before them. -/
theorem linked_moveUnder {h : Heap Entry} {above i lastMenu : ℕ} {q : Option ℕ} {l n : Forest}
    (hl : Links.Linked h i (h i).next l q) (hn : Links.Linked h above q n none)
    (hnodup : (Forest.node i l n).preorder.Nodup) (hlast : l.last? = some lastMenu) :
    moveUnder i lastMenu h i = { h i with list := (h i).next, next := q } ∧
      Links.Linked (moveUnder i lastMenu h) i (h i).next l none ∧
      Links.Linked (moveUnder i lastMenu h) above q n none := by
  rw [Forest.preorder_node, List.nodup_cons, List.mem_append, not_or] at hnodup
  obtain ⟨⟨hil, hin⟩, hln⟩ := hnodup
  obtain ⟨hnodupl, -, hdisjoint⟩ := List.nodup_append.mp hln
  have hmem : lastMenu ∈ l.preorder := l.chain_subset_preorder (List.mem_of_getLast? hlast)
  have hne : i ≠ lastMenu := fun heq => hil (heq ▸ hmem)
  have hother : ∀ j ≠ i, moveUnder i lastMenu h j = h.setNext lastMenu none j := by
    intro j hj
    by_cases hjlast : j = lastMenu
    · subst hjlast
      simp only [moveUnder, Heap.setNext_self]
      rw [Heap.setNext_of_ne _ _ _ _ hj, Heap.setList_of_ne _ _ _ _ hj]
    · simp only [moveUnder]
      rw [Heap.setNext_of_ne _ _ _ _ hjlast, Heap.setNext_of_ne _ _ _ _ hj,
        Heap.setList_of_ne _ _ _ _ hj, Heap.setNext_of_ne _ _ _ _ hjlast]
  refine ⟨?_, ?_, ?_⟩
  · simp only [moveUnder, Heap.setNext_of_ne _ _ _ _ hne, Heap.setNext_self, Heap.setList_self,
      Heap.setList_of_ne _ _ _ _ hne.symm, hl.next_last hlast]
  · apply (hl.setNext_last hnodupl hlast).congr
    exact fun j hj => hother j (fun heq => hil (heq ▸ hj))
  · apply hn.congr
    intro j hj
    rw [hother j (fun heq => hin (heq ▸ hj))]
    exact h.setNext_of_ne _ _ _ (fun heq => hdisjoint lastMenu hmem j hj heq.symm)

theorem moveUnder_of_ne {h : Heap Entry} {i lastMenu j : ℕ} (hi : j ≠ i) (hlast : j ≠ lastMenu) :
    moveUnder i lastMenu h j = h j := by
  simp only [moveUnder]
  rw [Heap.setNext_of_ne _ _ _ _ hlast, Heap.setNext_of_ne _ _ _ _ hi,
    Heap.setList_of_ne _ _ _ _ hi]

@[simp] theorem moveUnder_data (h : Heap Entry) (i lastMenu j : ℕ) :
    (moveUnder i lastMenu h j).data = (h j).data := by
  simp only [moveUnder, Heap.setNext_data, Heap.setList_data]

/-! ## `menu_finalize` -/

section Finalize
variable (optional : ℕ → Bool)

/-- `menu_finalize` returns on an entry, where it does what it does on the menu tree. The entries
that follow it may come under it. -/
def FinalizesEntry (fuel above i : ℕ) (st : EntryState) (l n : Forest) : Prop :=
  ∃ st' l' n', Terminates (fun fuel => menuFinalizeAt optional fuel i st) st' ∧
    Links.Linked st'.menus i (st'.menus i).list l' none ∧
    Links.Linked st'.menus above (st'.menus i).next n' none ∧
    (st'.menus i).parent = (st.menus i).parent ∧
    menuFinalize optional fuel (menusOf st.menus (.node i l n)) st.fin =
      (menusOf st'.menus (.node i l' n'), st'.fin) ∧
    Relinked st st' (.node i l n) (.node i l' n') (i :: l'.preorder)

def FinalizesList (fuel above : ℕ) (p : Option ℕ) (st : EntryState) (f : Forest) : Prop :=
  ∃ st' f', Terminates (fun fuel => finalizeListAt optional fuel p st) st' ∧
    Links.Linked st'.menus above p f' none ∧
    finalizeList optional fuel (menusOf st.menus f) st.fin = (menusOf st'.menus f', st'.fin) ∧
    Relinked st st' f f' f.preorder

/-- The entries before a pointer come under `parent`, those from there on do not. -/
def FinalizesNested (fuel above parent : ℕ) (sym : Sym) (basedep : Expr) (p lastMenu : Option ℕ)
    (st : EntryState) (f : Forest) : Prop :=
  ∃ st' l n q,
    Terminates (fun fuel => nestEntriesAt optional fuel parent sym basedep p lastMenu st)
      (st', l.last?.or lastMenu) ∧
    Links.Linked st'.menus parent p l q ∧ Links.Linked st'.menus above q n none ∧
    nestEntries optional fuel sym basedep (menusOf st.menus f) st.fin =
      ((menusOf st'.menus l, menusOf st'.menus n), st'.fin) ∧
    Relinked st st' f (l.append n) l.preorder

variable {optional : ℕ → Bool} {fuel above parent i : ℕ} {st : EntryState} {l n : Forest}

/-- One round of the loop over a chain. -/
theorem FinalizesList.cons (hi : (st.menus i).parent = some above)
    (hnodup : (Forest.node i l n).preorder.Nodup)
    (hentry : FinalizesEntry optional fuel above i st l n)
    (hrest : ∀ st₁ n₁, Links.Linked st₁.menus above (st₁.menus i).next n₁ none →
      n₁.preorder.Nodup → n₁.preorder.length ≤ l.preorder.length + n.preorder.length →
      FinalizesList optional fuel above (st₁.menus i).next st₁ n₁) :
    FinalizesList optional (fuel + 1) above (some i) st (.node i l n) := by
  obtain ⟨st₁, l₁, n₁, hsettles₁, hl₁, hn₁, hparent₁, hfunc₁, hrel₁⟩ := hentry
  have hpre : l₁.preorder ++ n₁.preorder = l.preorder ++ n.preorder :=
    (List.cons.inj hrel₁.preorder).2
  rw [Forest.preorder_node, ← hpre, List.nodup_cons, List.mem_append, not_or] at hnodup
  obtain ⟨⟨-, hin⟩, hln⟩ := hnodup
  obtain ⟨-, hnodupn, hdisjoint⟩ := List.nodup_append.mp hln
  have hlen : n₁.preorder.length ≤ l.preorder.length + n.preorder.length := by
    rw [← List.length_append, ← hpre, List.length_append]
    exact Nat.le_add_left _ _
  obtain ⟨st', n', hsettles', hn', hfunc', hrel'⟩ := hrest st₁ n₁ hn₁ hnodupn hlen
  have hsame : st'.menus i = st₁.menus i := hrel'.frame i hin
  have hunder : ∀ j ∈ l₁.preorder, j ∉ n₁.preorder := fun j hj hjn => hdisjoint j hj j hjn rfl
  refine ⟨st', .node i l₁ n', .of_succ (fun _ => rfl) (hsettles₁.bind hsettles'), ?_, ?_, ?_, ?_, ?_⟩
  · apply Links.Linked.node
    · rw [hsame, hparent₁, hi]
    · rw [hsame]
      exact hrel'.linked hl₁ hunder
    · rw [hsame]
      exact hn'
  · rw [finalizeList, hfunc₁, menusOf_node, menusOf_node]
    simp only [hfunc', hsame, hrel'.menusOf hunder]
  · rw [Forest.preorder_node, hrel'.preorder, hpre, Forest.preorder_node]
  · rw [hrel'.called, hrel₁.called, List.append_assoc, List.cons_append, hpre, Forest.preorder_node]
  · intro j hj
    have hj₁ : j ∉ (Forest.node i l₁ n₁).preorder := hrel₁.preorder ▸ hj
    rw [Forest.preorder_node, List.mem_cons, List.mem_append, not_or, not_or] at hj₁
    rw [hrel'.frame j hj₁.2.2, hrel₁.frame j hj]

/-- An entry that does not come under `parent`, and those after it. -/
theorem FinalizesNested.stop {sym : Sym} {basedep : Expr} {lastMenu : Option ℕ}
    (hf : Links.Linked st.menus above (some i) (.node i l n) none)
    (hnests : ¬ nests st.fin.type sym basedep (st.menus i).data.condition) :
    FinalizesNested optional (fuel + 1) above parent sym basedep (some i) lastMenu st
      (.node i l n) := by
  refine ⟨st, .nil, .node i l n, some i, .of_succ (fun fuel => ?_) (.pure _), rfl, hf, ?_,
    .refl st _⟩
  · rw [nestEntriesAt, if_neg hnests, Forest.last?_nil, Option.none_or]
  · rw [menusOf_node, nestEntries, if_neg hnests, menusOf_nil]

/-- An entry that comes under `parent`, and what the loop does with those after it. -/
theorem FinalizesNested.cons {sym : Sym} {basedep : Expr} {lastMenu : Option ℕ}
    (hnodup : (Forest.node i l n).preorder.Nodup)
    (hnests : nests st.fin.type sym basedep (st.menus i).data.condition)
    (hentry : FinalizesEntry optional fuel above i st l n)
    (hrest : ∀ st₁ n₁, Links.Linked st₁.menus above (st₁.menus i).next n₁ none →
      n₁.preorder.Nodup → n₁.preorder.length ≤ l.preorder.length + n.preorder.length →
      FinalizesNested optional fuel above parent sym basedep (st₁.menus i).next (some i) st₁ n₁) :
    FinalizesNested optional (fuel + 1) above parent sym basedep (some i) lastMenu st
      (.node i l n) := by
  obtain ⟨st₁, l₁, n₁, hsettles₁, hl₁, hn₁, -, hfunc₁, hrel₁⟩ := hentry
  have hpre : l₁.preorder ++ n₁.preorder = l.preorder ++ n.preorder :=
    (List.cons.inj hrel₁.preorder).2
  rw [Forest.preorder_node, ← hpre, List.nodup_cons, List.mem_append, not_or] at hnodup
  obtain ⟨⟨hil, hin⟩, hln⟩ := hnodup
  obtain ⟨-, hnodupn, hdisjoint⟩ := List.nodup_append.mp hln
  have hlen : n₁.preorder.length ≤ l.preorder.length + n.preorder.length := by
    rw [← List.length_append, ← hpre, List.length_append]
    exact Nat.le_add_left _ _
  -- the entry gets its new parent
  let st₂ : EntryState := { st₁ with menus := st₁.menus.setParent i (some parent) }
  have hself : st₂.menus i = { st₁.menus i with parent := some parent } :=
    st₁.menus.setParent_self i _
  have hne : ∀ j ≠ i, st₂.menus j = st₁.menus j := fun j hj => st₁.menus.setParent_of_ne i j _ hj
  have hnel : ∀ j ∈ l₁.preorder, st₂.menus j = st₁.menus j := fun j hj =>
    hne j (fun heq => hil (heq ▸ hj))
  have hnen : ∀ j ∈ n₁.preorder, st₂.menus j = st₁.menus j := fun j hj =>
    hne j (fun heq => hin (heq ▸ hj))
  have hn₂ : Links.Linked st₂.menus above (st₂.menus i).next n₁ none := by
    rw [hself]
    exact hn₁.congr hnen
  obtain ⟨st', l', n', q, hsettles', hl', hn', hfunc', hrel'⟩ := hrest st₂ n₁ hn₂ hnodupn hlen
  have hsame : st'.menus i = st₂.menus i := hrel'.frame i hin
  have hunder : ∀ j ∈ l₁.preorder, j ∉ n₁.preorder := fun j hj hjn => hdisjoint j hj j hjn rfl
  have hlast : (Forest.node i l₁ l').last?.or lastMenu = l'.last?.or (some i) := by
    rw [Forest.last?_node]
    cases l'.last? <;> rfl
  have hpre' : l'.preorder ++ n'.preorder = n₁.preorder := by
    rw [← Forest.preorder_append, hrel'.preorder]
  have hround := hsettles₁.bind (k := fun st fuel =>
    nestEntriesAt optional fuel parent sym basedep (st.menus.setParent i (some parent) i).next
      (some i) { st with menus := st.menus.setParent i (some parent) }) hsettles'
  refine ⟨st', .node i l₁ l', n', q, ?_, ?_, hn', ?_, ?_, ?_, ?_⟩
  · rw [hlast]
    refine .of_succ (fun fuel => ?_) hround
    rw [nestEntriesAt, if_pos hnests]
    rfl
  · apply Links.Linked.node
    · rw [hsame, hself]
    · rw [hsame, hself]
      exact hrel'.linked (hl₁.congr hnel) hunder
    · rw [hsame]
      exact hl'
  · have hmenusn : menusOf st₂.menus n₁ = menusOf st₁.menus n₁ :=
      menusOf_congr fun j hj => congrArg Links.Node.data (hnen j hj)
    have hmenusl : menusOf st'.menus l₁ = menusOf st₁.menus l₁ := by
      rw [hrel'.menusOf hunder]
      exact menusOf_congr fun j hj => congrArg Links.Node.data (hnel j hj)
    have hdata : (st'.menus i).data = (st₁.menus i).data := by rw [hsame, hself]
    rw [hmenusn] at hfunc'
    have hfunc'' : nestEntries optional fuel sym basedep (menusOf st₁.menus n₁) st₁.fin =
        ((menusOf st'.menus l', menusOf st'.menus n'), st'.fin) := hfunc'
    rw [menusOf_node] at hfunc₁
    rw [menusOf_node, nestEntries, if_pos hnests, hfunc₁, menusOf_node, menusOf_node]
    simp only [hfunc'', hdata, hmenusl]
  · rw [Forest.node_append, Forest.preorder_node, Forest.preorder_append, hpre', hpre,
      Forest.preorder_node]
  · have hcalled : st₂.called = st₁.called := rfl
    rw [hrel'.called, hcalled, hrel₁.called, List.append_assoc, List.cons_append,
      Forest.preorder_node]
  · intro j hj
    have hj₁ : j ∉ (Forest.node i l₁ n₁).preorder := hrel₁.preorder ▸ hj
    rw [Forest.preorder_node, List.mem_cons, List.mem_append, not_or, not_or] at hj₁
    rw [hrel'.frame j hj₁.2.2, hne j hj₁.1, hrel₁.frame j hj]

theorem menuFinalize_of_ne_nil {e : Entry} {m m' : Menus} {σ : FinState} (hm : m ≠ .nil) :
    menuFinalize optional (fuel + 1) (.node e m m') σ =
      let entries := finalizeEntries (parentDep e) m (setChoiceType e.sym m σ)
      let list := finalizeList optional fuel entries.1 entries.2
      let lifted := liftEntries e.sym list.1 list.2
      (.node e lifted.1 m', addChoiceRevDep optional e lifted.2) := by
  cases m with
  | nil => exact absurd rfl hm
  | node e' l' n' => rw [menuFinalize]

/-- `menu_finalize` on an entry that has others under it. -/
theorem FinalizesEntry.menu {first : ℕ} (hlist : (st.menus i).list = some first)
    (hl : Links.Linked st.menus i (some first) l none)
    (hn : Links.Linked st.menus above (st.menus i).next n none)
    (hnodup : (Forest.node i l n).preorder.Nodup)
    (hrest : ∀ st₁ : EntryState, Links.Linked st₁.menus i (some first) l none →
      FinalizesList optional fuel i (some first) st₁ l) :
    FinalizesEntry optional (fuel + 1) above i st l n := by
  rw [Forest.preorder_node, List.nodup_cons, List.mem_append, not_or] at hnodup
  obtain ⟨⟨hil, -⟩, hln⟩ := hnodup
  obtain ⟨hnodupl, -, hdisjoint⟩ := List.nodup_append.mp hln
  have hafter : ∀ j ∈ n.preorder, j ∉ l.preorder := fun j hj hjl => hdisjoint j hjl j hj rfl
  let e := (st.menus i).data
  let st₀ : EntryState := { st with called := st.called ++ [i] }
  have hl₀ : Links.Linked st₀.menus i (some first) l none := hl
  have hchoice := setChoiceTypeAt_terminates hl₀ e.sym
  let st₁ : EntryState := { st₀ with fin := setChoiceType e.sym (menusOf st.menus l) st.fin }
  have hl₁ : Links.Linked st₁.menus i (some first) l none := hl
  obtain ⟨st₂, hentries, hfunc₂, hpointers₂, hframe₂, hcalled₂⟩ :=
    exists_finalizeEntriesAt (parentDep e) hl₁ hnodupl
  have hout₂ : ∀ j ∉ l.preorder, st₂.menus j = st.menus j := fun j hj =>
    hframe₂ j (fun hjl => hj (l.chain_subset_preorder hjl))
  have hl₂ : Links.Linked st₂.menus i (some first) l none :=
    hl.of_samePointers fun j _ => hpointers₂ j
  obtain ⟨st₃, l₃, hsettles₃, hl₃, hfunc₃, hrel₃⟩ := hrest st₂ hl₂
  have hnodup₃ : l₃.preorder.Nodup := hrel₃.preorder ▸ hnodupl
  obtain ⟨st₄, l₄, hsettles₄, hl₄, hfunc₄, hrel₄⟩ := lifts e.sym i _ le_rfl hl₃ hnodup₃
  have hpre : l₄.preorder = l.preorder := hrel₄.preorder.trans hrel₃.preorder
  -- nothing but the entries under this one has changed
  have hout₃ : ∀ j ∉ l.preorder, st₃.menus j = st.menus j := fun j hj =>
    (hrel₃.frame j hj).trans (hout₂ j hj)
  have hout₄ : ∀ j ∉ l.preorder, st₄.menus j = st.menus j := fun j hj =>
    (hrel₄.frame j (hrel₃.preorder ▸ hj)).trans (hout₃ j hj)
  let st' : EntryState := { st₄ with fin := addChoiceRevDep optional (st₄.menus i).data st₄.fin }
  have hlist₂ : (st₂.menus i).list = some first := by rw [hout₂ i hil, hlist]
  have hlist₃ : (st₃.menus i).list = some first := by rw [hout₃ i hil, hlist]
  have hlist₄ : (st₄.menus i).list = some first := by rw [hout₄ i hil, hlist]
  let last : EntryState → ℕ → Option EntryState := fun st fuel =>
    (liftEntriesAt e.sym i fuel (st.menus i).list st).bind fun st =>
      some { st with fin := addChoiceRevDep optional (st.menus i).data st.fin }
  have hlast : Terminates (last st₃) st' := (hlist₃ ▸ hsettles₄).bind (.pure st')
  have hlists := (hlist₂ ▸ hsettles₃).bind (k := last) hlast
  have hrun := hchoice.bind (k := fun st fuel =>
    (finalizeEntriesAt (parentDep e) fuel (some first) st).bind fun st =>
      (finalizeListAt optional fuel (st.menus i).list st).bind fun st => last st fuel)
    (hentries.bind (k := fun st fuel =>
      (finalizeListAt optional fuel (st.menus i).list st).bind fun st => last st fuel) hlists)
  refine ⟨st', l₄, n, .of_succ (fun fuel => ?_) hrun, ?_, ?_, ?_, ?_, ?_, ?_, ?_⟩
  · rw [menuFinalizeAt]
    simp only [hlist]
    rfl
  · change Links.Linked st₄.menus i (st₄.menus i).list l₄ none
    rw [hlist₄]
    exact hl₄
  · change Links.Linked st₄.menus above (st₄.menus i).next n none
    rw [hout₄ i hil]
    exact hn.congr fun j hj => hout₄ j (hafter j hj)
  · exact congrArg Links.Node.parent (hout₄ i hil)
  · have hi : st'.menus i = st.menus i := hout₄ i hil
    have hmenusn : menusOf st'.menus n = menusOf st.menus n :=
      menusOf_congr fun j hj => congrArg Links.Node.data (hout₄ j (hafter j hj))
    obtain ⟨l₀, n₀, hnode, -, -, -⟩ := hl.exists_node
    have hfunc₂' : finalizeEntries (parentDep e) (menusOf st.menus l)
        (setChoiceType e.sym (menusOf st.menus l) st.fin) = (menusOf st₂.menus l, st₂.fin) := hfunc₂
    have hne : menusOf st.menus l ≠ .nil := by
      rw [hnode, menusOf_node]
      exact nofun
    rw [menusOf_node, menusOf_node, hi, hmenusn, menuFinalize_of_ne_nil hne, hfunc₂']
    simp only [hfunc₃]
    rw [hfunc₄]
    exact congrArg _ (congrArg (addChoiceRevDep optional · _) (congrArg _ (hout₄ i hil).symm))
  · rw [Forest.preorder_node, Forest.preorder_node, hpre]
  · change st₄.called = _
    rw [hrel₄.called, List.append_nil, hrel₃.called, hcalled₂, hpre]
    exact List.append_assoc _ _ _
  · intro j hj
    rw [Forest.preorder_node, List.mem_cons, List.mem_append, not_or, not_or] at hj
    exact hout₄ j hj.2.1

/-- `menu_finalize` on an entry without a symbol and with nothing under it. -/
theorem FinalizesEntry.plain (hlist : (st.menus i).list = none)
    (hsym : (st.menus i).data.sym = none)
    (hn : Links.Linked st.menus above (st.menus i).next n none) :
    FinalizesEntry optional (fuel + 1) above i st .nil n := by
  let st' : EntryState := { st with called := st.called ++ [i] }
  have hlifted : Terminates (fun fuel => liftEntriesAt none i fuel (st.menus i).list st') st' := by
    rw [hlist]
    exact .of_succ (fun _ => rfl) (.pure st')
  have hrevDep : ∀ σ, addChoiceRevDep optional (st.menus i).data σ = σ := fun σ => by
    simp only [addChoiceRevDep, hsym]
  let last : EntryState → ℕ → Option EntryState := fun st _ =>
    some { st with fin := addChoiceRevDep optional (st.menus i).data st.fin }
  have hlast : Terminates (last st') st' := by
    simp only [last, st', hrevDep]
    exact .pure st'
  refine ⟨st', .nil, n, .of_succ (fun fuel => ?_) (hlifted.bind (k := last) hlast), hlist, hn, rfl,
    ?_, rfl, rfl, fun _ _ => rfl⟩
  · rw [menuFinalizeAt]
    simp only [hlist, hsym]
    change (liftEntriesAt none i fuel (st.menus i).list st').bind _ = _
    rw [hlist]
  · rw [menusOf_node, menusOf_nil, menuFinalize]
    simp only [hsym]
    rfl

/-- `menu_finalize` on an entry with a symbol and with nothing under it. -/
theorem FinalizesEntry.symbol {s : Sym} (hlist : (st.menus i).list = none)
    (hsym : (st.menus i).data.sym = some s) (hnodup : (Forest.node i .nil n).preorder.Nodup)
    (hnested : FinalizesNested optional fuel above i s
      (comparedDep st.fin.type ((st.menus i).data.prompt.bind (·.visible)))
      (st.menus i).next none { st with called := st.called ++ [i] } n) :
    FinalizesEntry optional (fuel + 1) above i st .nil n := by
  obtain ⟨st₁, l₁, n₁, q, hsettles₁, hl₁, hn₁, hfunc₁, hrel₁⟩ := hnested
  rw [Option.or_none] at hsettles₁
  have hpre : l₁.preorder ++ n₁.preorder = n.preorder := by
    rw [← Forest.preorder_append, hrel₁.preorder]
  rw [Forest.preorder_node, Forest.preorder_nil, List.nil_append, ← hpre] at hnodup
  have hnodup₁ : (Forest.node i l₁ n₁).preorder.Nodup := hnodup
  obtain ⟨hout, hln⟩ := List.nodup_cons.mp hnodup
  have hi₁ : st₁.menus i = st.menus i := hrel₁.frame i (hpre ▸ hout)
  rw [List.mem_append, not_or] at hout
  obtain ⟨hnodupl, -, hdisjoint⟩ := List.nodup_append.mp hln
  -- the entries that come under this one
  let st₂ : EntryState := moveLast i l₁.last? st₁
  have hmoved : Links.Linked st₂.menus i (st₂.menus i).list l₁ none ∧
      Links.Linked st₂.menus above (st₂.menus i).next n₁ none ∧
      (st₂.menus i).parent = (st₁.menus i).parent ∧ (∀ j, (st₂.menus j).data = (st₁.menus j).data) ∧
      (∀ j ∉ (Forest.node i l₁ n₁).preorder, st₂.menus j = st₁.menus j) ∧ st₂.fin = st₁.fin ∧
      st₂.called = st₁.called := by
    cases hlast : l₁.last? with
    | none =>
      obtain rfl := Forest.eq_nil_of_last? hlast
      have hst₂ : st₂ = st₁ := rfl
      obtain rfl : (st.menus i).next = q := hl₁
      rw [hst₂, hi₁, hlist]
      exact ⟨.nil, hn₁, rfl, fun _ => rfl, fun _ _ => rfl, rfl, rfl⟩
    | some lastMenu =>
      have hst₂ : st₂ = { st₁ with menus := moveUnder i lastMenu st₁.menus } := by
        simp only [st₂, hlast, moveLast]
      rw [← hi₁] at hl₁
      obtain ⟨hi₂, hl₂, hn₂⟩ := linked_moveUnder hl₁ hn₁ hnodup₁ hlast
      have hmenus₂ : st₂.menus = moveUnder i lastMenu st₁.menus := congrArg EntryState.menus hst₂
      rw [hmenus₂, hi₂]
      refine ⟨hl₂, hn₂, rfl, moveUnder_data _ _ _, fun j hj => ?_, ?_, ?_⟩
      · rw [Forest.preorder_node, List.mem_cons, List.mem_append, not_or, not_or] at hj
        have hmem : lastMenu ∈ l₁.preorder :=
          l₁.chain_subset_preorder (List.mem_of_getLast? hlast)
        exact moveUnder_of_ne hj.1 (fun heq => hj.2.1 (heq ▸ hmem))
      · rw [hst₂]
      · rw [hst₂]
  obtain ⟨hl₂, hn₂, hparent₂, hdata₂, hframe₂, hfin₂, hcalled₂⟩ := hmoved
  obtain ⟨st₃, l₃, hsettles₃, hl₃, hfunc₃, hrel₃⟩ := lifts (some s) i _ le_rfl hl₂ hnodupl
  have hi₃ : st₃.menus i = st₂.menus i := hrel₃.frame i hout.1
  have hafter : ∀ j ∈ n₁.preorder, j ∉ l₁.preorder := fun j hj hjl => hdisjoint j hjl j hj rfl
  have hdatai : (st₃.menus i).data = (st.menus i).data := by rw [hi₃, hdata₂, hi₁]
  let last : EntryState → ℕ → Option EntryState := fun st fuel =>
    (liftEntriesAt (some s) i fuel (st.menus i).list st).bind fun st =>
      some { st with fin := addChoiceRevDep optional (st.menus i).data st.fin }
  let st' : EntryState := { st₃ with fin := addChoiceRevDep optional (st₃.menus i).data st₃.fin }
  have hlast : Terminates (last st₂) st' := hsettles₃.bind (.pure st')
  have hrun := hsettles₁.bind (k := fun r fuel => last (moveLast i r.2 r.1) fuel) hlast
  refine ⟨st', l₃, n₁, .of_succ (fun fuel => ?_) hrun, ?_, ?_, ?_, ?_, ?_, ?_, ?_⟩
  · rw [menuFinalizeAt]
    simp only [hlist, hsym]
    rfl
  · change Links.Linked st₃.menus i (st₃.menus i).list l₃ none
    rw [hi₃]
    exact hl₃
  · change Links.Linked st₃.menus above (st₃.menus i).next n₁ none
    rw [hi₃]
    exact hrel₃.linked hn₂ hafter
  · change (st₃.menus i).parent = _
    rw [hi₃, hparent₂, hi₁]
  · have hmenusn : menusOf st'.menus n₁ = menusOf st₁.menus n₁ := by
      apply menusOf_congr
      intro j hj
      rw [hrel₃.frame j (hafter j hj), hdata₂]
    have hmenusl : menusOf st₂.menus l₁ = menusOf st₁.menus l₁ :=
      menusOf_congr fun j _ => hdata₂ j
    rw [hmenusl, hfin₂] at hfunc₃
    have hfunc₁' : nestEntries optional fuel s
        (comparedDep st.fin.type ((st.menus i).data.prompt.bind (·.visible)))
        (menusOf st.menus n) st.fin =
          ((menusOf st₁.menus l₁, menusOf st₁.menus n₁), st₁.fin) := hfunc₁
    have hdata' : (st'.menus i).data = (st.menus i).data := hdatai
    rw [menusOf_node, menusOf_node, menusOf_nil, hdata', hmenusn, menuFinalize]
    simp only [hsym, hfunc₁', hfunc₃]
    change _ = (_, addChoiceRevDep optional (st₃.menus i).data st₃.fin)
    rw [hdatai]
  · rw [Forest.preorder_node, Forest.preorder_node, hrel₃.preorder, hpre, Forest.preorder_nil,
      List.nil_append]
  · change st₃.called = _
    rw [hrel₃.called, List.append_nil, hcalled₂, hrel₁.called, hrel₃.preorder]
    exact List.append_assoc _ _ _
  · intro j hj
    rw [Forest.preorder_node, Forest.preorder_nil, List.nil_append, ← hpre] at hj
    have hjn : j ∉ n.preorder := fun hm => hj (List.mem_cons_of_mem _ (hpre ▸ hm))
    have hjl : j ∉ l₁.preorder := fun hm =>
      hj (List.mem_cons_of_mem _ (List.mem_append_left _ hm))
    exact (hrel₃.frame j hjl).trans ((hframe₂ j hj).trans (hrel₁.frame j hjn))

theorem FinalizesList.nil (fuel above : ℕ) (st : EntryState) :
    FinalizesList optional fuel above none st .nil := by
  refine ⟨st, .nil, .of_succ (fun _ => rfl) (.pure st), rfl, ?_, .refl st _⟩
  cases fuel with
  | zero => rfl
  | succ fuel => cases fuel <;> rfl

theorem FinalizesNested.nil (fuel above parent : ℕ) (sym : Sym) (basedep : Expr)
    (lastMenu : Option ℕ) (st : EntryState) :
    FinalizesNested optional fuel above parent sym basedep none lastMenu st .nil := by
  refine ⟨st, .nil, .nil, none, .of_succ (fun _ => rfl) (.pure _), rfl, rfl, ?_, .refl st _⟩
  cases fuel <;> rfl

/-- Every call of `menu_finalize` and every run of its loops, by induction on the fuel with which
they run on the menu tree. -/
theorem finalizes (optional : ℕ → Bool) (fuel : ℕ) :
    (∀ above i st l n, Links.Linked st.menus i (st.menus i).list l none →
      Links.Linked st.menus above (st.menus i).next n none →
      (Forest.node i l n).preorder.Nodup → 2 * (l.preorder.length + n.preorder.length) + 1 ≤ fuel →
      FinalizesEntry optional fuel above i st l n) ∧
    (∀ above p st f, Links.Linked st.menus above p f none → f.preorder.Nodup →
      2 * f.preorder.length ≤ fuel → FinalizesList optional fuel above p st f) ∧
    ∀ above parent sym basedep p lastMenu st f, Links.Linked st.menus above p f none →
      f.preorder.Nodup → 2 * f.preorder.length ≤ fuel →
      FinalizesNested optional fuel above parent sym basedep p lastMenu st f := by
  induction fuel with
  | zero =>
    have hnil : ∀ f : Forest, 2 * f.preorder.length ≤ 0 → f = .nil := by
      intro f hlen
      cases f with
      | nil => rfl
      | node i l n => simp at hlen
    refine ⟨fun above i st l n _ _ _ hlen => absurd hlen (Nat.not_succ_le_zero _), ?_, ?_⟩
    · intro above p st f hf _ hlen
      obtain rfl := hnil f hlen
      obtain rfl : p = none := hf
      exact .nil 0 above st
    · intro above parent sym basedep p lastMenu st f hf _ hlen
      obtain rfl := hnil f hlen
      obtain rfl : p = none := hf
      exact .nil 0 above parent sym basedep lastMenu st
  | succ fuel ih =>
    obtain ⟨ihentry, ihlist, ihnested⟩ := ih
    refine ⟨?_, ?_, ?_⟩
    · intro above i st l n hl hn hnodup hlen
      have hln := List.nodup_append.mp (List.nodup_cons.mp hnodup).2
      cases hlist : (st.menus i).list with
      | some first =>
        rw [hlist] at hl
        exact .menu hlist hl hn hnodup fun st₁ hl₁ => ihlist _ _ st₁ l hl₁ hln.1 (by omega)
      | none =>
        rw [hlist] at hl
        obtain rfl := hl.eq_nil
        cases hsym : (st.menus i).data.sym with
        | none => exact .plain hlist hsym hn
        | some s =>
          apply FinalizesEntry.symbol hlist hsym hnodup
          exact ihnested _ _ _ _ _ _ _ n hn hln.2.1 (by omega)
    · intro above p st f hf hnodup hlen
      cases f with
      | nil =>
        obtain rfl : p = none := hf
        exact .nil _ above st
      | node i l n =>
        obtain ⟨rfl, hp, hl, hn⟩ := hf
        rw [Forest.preorder_node, List.length_cons, List.length_append] at hlen
        apply FinalizesList.cons hp hnodup (ihentry above i st l n hl hn hnodup (by omega))
        exact fun st₁ n₁ hn₁ hnodup₁ hlen₁ => ihlist above _ st₁ n₁ hn₁ hnodup₁ (by omega)
    · intro above parent sym basedep p lastMenu st f hf hnodup hlen
      cases f with
      | nil =>
        obtain rfl : p = none := hf
        exact .nil _ above parent sym basedep lastMenu st
      | node i l n =>
        have hwhole := hf
        obtain ⟨rfl, -, hl, hn⟩ := hf
        rw [Forest.preorder_node, List.length_cons, List.length_append] at hlen
        by_cases hnests : nests st.fin.type sym basedep (st.menus i).data.condition
        · apply FinalizesNested.cons hnodup hnests
            (ihentry above i st l n hl hn hnodup (by omega))
          exact fun st₁ n₁ hn₁ hnodup₁ hlen₁ => ihnested _ _ _ _ _ _ st₁ n₁ hn₁ hnodup₁ (by omega)
        · exact .stop hwhole hnests

end Finalize

/-! ## The whole tree -/

/-- Under every entry and `rootmenu` there is a chain that ends in NULL, with the entry as the
parent of all of it. -/
def Consistent (h : Heap Entry) (entries : List ℕ) : Prop :=
  ∀ i ∈ rootmenu :: entries, ∃ is, Links.Chain h (h i).list is ∧ ∀ j ∈ is, (h j).parent = some i

theorem consistent_of_linked {h : Heap Entry} {f : Forest}
    (hf : Links.Linked h rootmenu (h rootmenu).list f none) : Consistent h f.preorder := by
  intro i hi
  rcases List.mem_cons.mp hi with rfl | hi
  · exact ⟨f.chain, hf.chain⟩
  · exact hf.exists_chain hi

/-- The walk of `conf_write` ends, having visited the entries in preorder. -/
theorem confWriteStart_leads {h : Heap Entry} {f : Forest}
    (hf : Links.Linked h rootmenu (h rootmenu).list f none) (hnext : (h rootmenu).next = none)
    (hparent : (h rootmenu).parent = none) :
    Links.Walk.Leads h (confWriteStart h) ⟨.above none, f.preorder⟩ := by
  rw [confWriteStart]
  cases hlist : (h rootmenu).list with
  | none =>
    rw [hlist] at hf
    rw [hf.eq_nil]
    exact ⟨0, rfl⟩
  | some menu =>
    have hne : f ≠ .nil := by
      rintro rfl
      rw [hlist] at hf
      cases hf
    obtain ⟨i, hi, hleads⟩ := Links.Walk.leads_end hf hnext hparent hne
    obtain rfl : menu = i := Option.some.inj (hlist.symm.trans hi)
    exact hleads

namespace ParsedTree

/-- The menu tree that `menu_finalize(&rootmenu)` makes. -/
theorem menuFinalize_root (t : ParsedTree) :
    menuFinalize t.optional (2 * t.block.menus.size + 1)
        (.node rootEntry t.block.menus .nil) t.initial =
      (.node rootEntry t.finalized.1 .nil, t.finalized.2) := by
  cases hmenus : t.block.menus with
  | nil =>
    have hfinalized : t.finalized = (.nil, t.initial) := by
      simp only [finalized, hmenus]
      rfl
    rw [hfinalized]
    rfl
  | node e l n =>
    rw [← hmenus, menuFinalize_of_ne_nil (by rw [hmenus]; exact nofun)]
    rfl

/-- `menu_finalize(&rootmenu)` returns on every parsed tree. It is called once on every entry, in
preorder, and leaves them linked consistently in the same preorder. The walk of `conf_write` visits
each of them once, in that order. -/
theorem finalizeAt_linked (t : ParsedTree) :
    ∃ f f' st, Links.Linked t.built.menus rootmenu (t.built.menus rootmenu).list f none ∧
      f.preorder = List.range' 1 (t.built.fresh - 1) ∧
      Terminates t.finalizeAt st ∧ st.called = rootmenu :: f.preorder ∧
      Links.Linked st.menus rootmenu (st.menus rootmenu).list f' none ∧
      f'.preorder = f.preorder ∧ Consistent st.menus f.preorder ∧
      Links.Walk.Leads st.menus (confWriteStart st.menus) ⟨.above none, f.preorder⟩ ∧
      menusOf st.menus f' = t.finalized.1 ∧ st.fin = t.finalized.2 := by
  obtain ⟨f, hf, hmenus, hpre, hroot⟩ := t.exists_built
  let st₀ : EntryState := ⟨t.built.menus, t.initial, []⟩
  have hnodup : (Forest.node rootmenu f .nil).preorder.Nodup := by
    rw [Forest.preorder_node, Forest.preorder_nil, List.append_nil, hpre]
    apply List.nodup_cons.mpr ⟨?_, List.nodup_range'⟩
    rw [List.mem_range'_1]
    exact fun hmem => absurd hmem.1 (Nat.not_succ_le_zero _)
  have hnext : Links.Linked st₀.menus rootmenu (st₀.menus rootmenu).next .nil none := by
    change (t.built.menus rootmenu).next = none
    rw [hroot]
  have hlen : 2 * (f.preorder.length + (Forest.nil).preorder.length) + 1 ≤
      2 * t.block.menus.size + 1 := by
    rw [← hmenus, size_menusOf]
    exact le_rfl
  obtain ⟨st, f', n', hsettles, hf', hn', hparent, hfunc, hrel⟩ :=
    (finalizes t.optional _).1 rootmenu rootmenu st₀ f .nil hf hnext hnodup hlen
  have hdata : (t.built.menus rootmenu).data = rootEntry := by rw [hroot]
  have hfunc' : menuFinalize t.optional (2 * t.block.menus.size + 1)
      (.node rootEntry t.block.menus .nil) t.initial =
        (menusOf st.menus (.node rootmenu f' n'), st.fin) := by
    rw [← hfunc, menusOf_node, menusOf_nil, hdata, hmenus]
  rw [menuFinalize_root, menusOf_node] at hfunc'
  obtain ⟨htree, hfin⟩ := Prod.mk.inj hfunc'
  obtain ⟨-, hlist, hrest⟩ := Menus.node.inj htree
  -- nothing follows the root
  have hn'nil : n' = .nil := by
    cases n' with
    | nil => rfl
    | node i l n => cases hrest
  subst hn'nil
  have hpre' : f'.preorder = f.preorder := by
    have hall := (List.cons.inj hrel.preorder).2
    rwa [Forest.preorder_nil, List.append_nil, List.append_nil] at hall
  have hparent' : (st.menus rootmenu).parent = none := by
    rw [hparent]
    change (t.built.menus rootmenu).parent = none
    rw [hroot]
  refine ⟨f, f', st, hf, hpre, hsettles, ?_, hf', hpre', ?_, ?_, hlist.symm, hfin.symm⟩
  · rw [hrel.called, hpre']
    rfl
  · rw [← hpre']
    exact consistent_of_linked hf'
  · rw [← hpre']
    exact confWriteStart_leads hf' hn' hparent'

end ParsedTree

end Grasshopper.Kconfig
