import Mathlib.Logic.Function.Iterate
import Mathlib.Data.List.Nodup

/-! # Trees of linked nodes

A node points to the first node under it, to the one after it and to the one above it. A forest
describes the nodes on a chain of `next` pointers with everything under them, and a walk along the
three pointers visits them in preorder.
-/

namespace Links

universe u
variable {α : Type u}

/-- A node: what it holds and its pointers. -/
structure Node (α : Type u) where
  data : α
  list : Option ℕ := none
  next : Option ℕ := none
  parent : Option ℕ := none

/-- The nodes at their addresses. -/
abbrev Heap (α : Type u) := ℕ → Node α

/-- Two nodes that may differ in what they hold. -/
structure Node.SamePointers (x y : Node α) : Prop where
  list : y.list = x.list
  next : y.next = x.next
  parent : y.parent = x.parent

theorem Node.SamePointers.of_eq {x y : Node α} (h : y = x) : x.SamePointers y := by
  rw [h]
  exact ⟨rfl, rfl, rfl⟩

theorem Node.SamePointers.trans {x y z : Node α} (h : x.SamePointers y) (h' : y.SamePointers z) :
    x.SamePointers z :=
  ⟨h'.list.trans h.list, h'.next.trans h.next, h'.parent.trans h.parent⟩

/-! ## Changing a node -/

namespace Heap

def setData (h : Heap α) (i : ℕ) (a : α) : Heap α :=
  Function.update h i { h i with data := a }

def setList (h : Heap α) (i : ℕ) (p : Option ℕ) : Heap α :=
  Function.update h i { h i with list := p }

def setNext (h : Heap α) (i : ℕ) (p : Option ℕ) : Heap α :=
  Function.update h i { h i with next := p }

def setParent (h : Heap α) (i : ℕ) (p : Option ℕ) : Heap α :=
  Function.update h i { h i with parent := p }

variable (h : Heap α) (i j : ℕ) (a : α) (p : Option ℕ)

theorem setData_of_ne (hj : j ≠ i) : h.setData i a j = h j := Function.update_of_ne hj _ _
theorem setList_of_ne (hj : j ≠ i) : h.setList i p j = h j := Function.update_of_ne hj _ _
theorem setNext_of_ne (hj : j ≠ i) : h.setNext i p j = h j := Function.update_of_ne hj _ _
theorem setParent_of_ne (hj : j ≠ i) : h.setParent i p j = h j := Function.update_of_ne hj _ _

@[simp] theorem setData_self : h.setData i a i = { h i with data := a } := Function.update_self ..
@[simp] theorem setList_self : h.setList i p i = { h i with list := p } := Function.update_self ..
@[simp] theorem setNext_self : h.setNext i p i = { h i with next := p } := Function.update_self ..
@[simp] theorem setParent_self : h.setParent i p i = { h i with parent := p } :=
  Function.update_self ..

/-- A field that a change does not touch is the same at every node. -/
theorem field_update {β : Type*} (field : Node α → β) {x : Node α} (hx : field x = field (h i)) :
    field (Function.update h i x j) = field (h j) := by
  rcases eq_or_ne j i with rfl | hj
  · rw [Function.update_self, hx]
  · rw [Function.update_of_ne hj]

@[simp] theorem setList_data : (h.setList i p j).data = (h j).data :=
  field_update h i j Node.data rfl
@[simp] theorem setList_parent : (h.setList i p j).parent = (h j).parent :=
  field_update h i j Node.parent rfl
@[simp] theorem setNext_data : (h.setNext i p j).data = (h j).data :=
  field_update h i j Node.data rfl
@[simp] theorem setNext_parent : (h.setNext i p j).parent = (h j).parent :=
  field_update h i j Node.parent rfl

theorem samePointers_setData : (h j).SamePointers (h.setData i a j) :=
  ⟨field_update h i j Node.list rfl, field_update h i j Node.next rfl,
    field_update h i j Node.parent rfl⟩

end Heap

/-! ## Forests -/

/-- The nodes on a chain, each with those under it. -/
inductive Forest where
  | nil
  | node (addr : ℕ) (list next : Forest)

namespace Forest

/-- The addresses in preorder. -/
def preorder : Forest → List ℕ
  | nil => []
  | node i l n => i :: (l.preorder ++ n.preorder)

/-- The addresses on the chain itself. -/
def chain : Forest → List ℕ
  | nil => []
  | node i _ n => i :: n.chain

/-- One chain after another. -/
def append : Forest → Forest → Forest
  | nil, g => g
  | node i l n, g => node i l (n.append g)

@[simp] theorem preorder_nil : nil.preorder = [] := rfl
@[simp] theorem preorder_node (i : ℕ) (l n : Forest) :
    (node i l n).preorder = i :: (l.preorder ++ n.preorder) := rfl
@[simp] theorem nil_append (g : Forest) : nil.append g = g := rfl
@[simp] theorem node_append (i : ℕ) (l n g : Forest) :
    (node i l n).append g = node i l (n.append g) := rfl
@[simp] theorem chain_nil : nil.chain = [] := rfl
@[simp] theorem chain_node (i : ℕ) (l n : Forest) : (node i l n).chain = i :: n.chain := rfl

@[simp] theorem append_nil (f : Forest) : f.append nil = f := by
  induction f with
  | nil => rfl
  | node i l n _ ih => rw [node_append, ih]

@[simp] theorem append_assoc (f g k : Forest) : (f.append g).append k = f.append (g.append k) := by
  induction f with
  | nil => rfl
  | node i l n _ ih => rw [node_append, node_append, node_append, ih]

@[simp] theorem preorder_append (f g : Forest) :
    (f.append g).preorder = f.preorder ++ g.preorder := by
  induction f with
  | nil => rfl
  | node i l n _ ih => simp [ih]

/-- The last node of a chain. -/
def last? (f : Forest) : Option ℕ := f.chain.getLast?

@[simp] theorem last?_nil : nil.last? = none := rfl

theorem last?_node (i : ℕ) (l n : Forest) : (node i l n).last? = some (n.last?.getD i) :=
  List.getLast?_cons

theorem eq_nil_of_last? {f : Forest} (h : f.last? = none) : f = nil := by
  cases f with
  | nil => rfl
  | node i l n =>
    rw [last?_node] at h
    cases h

theorem chain_subset_preorder (f : Forest) : f.chain ⊆ f.preorder := by
  induction f with
  | nil => exact List.Subset.refl _
  | node i l n _ ih =>
    rw [chain_node, preorder_node]
    exact List.cons_subset_cons i (List.Subset.trans ih (List.subset_append_right _ _))

end Forest

/-- The nodes from one pointer on are a forest with a given node above them, up to the chain's end
in another pointer. -/
def Linked (h : Heap α) (above : ℕ) : Option ℕ → Forest → Option ℕ → Prop
  | p, .nil, q => p = q
  | p, .node i l n, q =>
    p = some i ∧ (h i).parent = some above ∧ Linked h i (h i).list l none ∧
      Linked h above (h i).next n q

namespace Linked

variable {h h' : Heap α} {above i : ℕ} {p q r : Option ℕ} {f g l n : Forest}

@[simp] theorem nil_iff : Linked h above p .nil q ↔ p = q := Iff.rfl

theorem nil : Linked h above p .nil p := rfl

theorem node (hp : (h i).parent = some above) (hl : Linked h i (h i).list l none)
    (hn : Linked h above (h i).next n q) : Linked h above (some i) (.node i l n) q :=
  ⟨rfl, hp, hl, hn⟩

/-- Only the pointers in the forest matter. -/
theorem of_samePointers (hf : Linked h above p f q)
    (hsame : ∀ i ∈ f.preorder, (h i).SamePointers (h' i)) : Linked h' above p f q := by
  induction f generalizing above p q with
  | nil => exact hf
  | node i l n ihl ihn =>
    obtain ⟨rfl, hp, hl, hn⟩ := hf
    rw [Forest.preorder_node, List.forall_mem_cons, List.forall_mem_append] at hsame
    obtain ⟨hi, hsamel, hsamen⟩ := hsame
    apply node
    · rw [hi.parent, hp]
    · rw [hi.list]
      exact ihl hl hsamel
    · rw [hi.next]
      exact ihn hn hsamen

/-- Only the nodes of the forest matter. -/
theorem congr (hf : Linked h above p f q) (heq : ∀ i ∈ f.preorder, h' i = h i) :
    Linked h' above p f q :=
  hf.of_samePointers fun i hi => .of_eq (heq i hi)

theorem append (hf : Linked h above p f q) (hg : Linked h above q g r) :
    Linked h above p (f.append g) r := by
  induction f generalizing p with
  | nil =>
    obtain rfl : p = q := hf
    exact hg
  | node i l n _ ih =>
    obtain ⟨rfl, hp, hl, hn⟩ := hf
    exact node hp hl (ih hn)

/-- A chain that begins nowhere is empty. -/
theorem eq_nil (hf : Linked h above none f none) : f = .nil := by
  cases f with
  | nil => rfl
  | node i l n => cases hf.1

/-- A chain that begins at a node has it first. -/
theorem exists_node (hf : Linked h above (some i) f none) :
    ∃ l n, f = .node i l n ∧ (h i).parent = some above ∧ Linked h i (h i).list l none ∧
      Linked h above (h i).next n none := by
  cases f with
  | nil => cases hf
  | node j l n =>
    obtain ⟨hij, hp, hl, hn⟩ := hf
    obtain rfl : i = j := Option.some.inj hij
    exact ⟨l, n, rfl, hp, hl, hn⟩

/-- The chain ends where its last node points to. -/
theorem next_last (hf : Linked h above p f q) {k : ℕ} (hk : f.last? = some k) :
    (h k).next = q := by
  induction f generalizing p with
  | nil => cases hk
  | node i l n _ ih =>
    obtain ⟨rfl, -, -, hn⟩ := hf
    rw [Forest.last?_node, Option.some_inj] at hk
    cases hlast : n.last? with
    | none =>
      rw [hlast, Option.getD_none] at hk
      rw [Forest.eq_nil_of_last? hlast] at hn
      rw [← hk]
      exact hn
    | some j =>
      rw [hlast, Option.getD_some] at hk
      exact ih hn (hlast.trans (congrArg some hk))

/-- Another end for a chain. -/
theorem setNext_last (hf : Linked h above p f q) (hnodup : f.preorder.Nodup) {k : ℕ}
    (hk : f.last? = some k) : Linked (h.setNext k r) above p f r := by
  induction f generalizing p with
  | nil => cases hk
  | node i l n _ ih =>
    obtain ⟨rfl, hp, hl, hn⟩ := hf
    rw [Forest.preorder_node, List.nodup_cons, List.mem_append, not_or] at hnodup
    obtain ⟨⟨hil, hin⟩, hln⟩ := hnodup
    obtain ⟨-, hnodupn, hdisjoint⟩ := List.nodup_append.mp hln
    have hkmem : k ∈ (Forest.node i l n).chain := List.mem_of_getLast? hk
    rw [Forest.last?_node, Option.some_inj] at hk
    -- the last node is none of those under the chain
    have hkl : ∀ j ∈ l.preorder, j ≠ k := by
      rintro j hj rfl
      rcases List.mem_cons.mp hkmem with rfl | hjn
      · exact hil hj
      · exact hdisjoint j hj j (n.chain_subset_preorder hjn) rfl
    apply node
    · rw [Heap.setNext_parent]
      exact hp
    · have hlist : (h.setNext k r i).list = (h i).list := Heap.field_update h k i Node.list rfl
      rw [hlist]
      exact hl.congr fun j hj => h.setNext_of_ne k j r (hkl j hj)
    · cases hlast : n.last? with
      | none =>
        rw [hlast, Option.getD_none] at hk
        rw [Forest.eq_nil_of_last? hlast, ← hk, Heap.setNext_self]
        exact nil
      | some j =>
        rw [hlast, Option.getD_some] at hk
        have hik : i ≠ k := by
          rintro rfl
          exact hin (n.chain_subset_preorder (List.mem_of_getLast? (hlast.trans (congrArg some hk))))
        rw [h.setNext_of_ne k i r hik]
        exact ih hn hnodupn (hlast.trans (congrArg some hk))

end Linked

/-! ## The chain under a node -/

/-- The `next` pointers lead from a pointer over the given nodes to the end. -/
def Chain (h : Heap α) : Option ℕ → List ℕ → Prop
  | p, [] => p = none
  | p, i :: is => p = some i ∧ Chain h (h i).next is

theorem Linked.chain {h : Heap α} {above : ℕ} {p : Option ℕ} {f : Forest}
    (hf : Linked h above p f none) :
    Chain h p f.chain ∧ ∀ i ∈ f.chain, (h i).parent = some above := by
  induction f generalizing p with
  | nil => exact ⟨hf, List.forall_mem_nil _⟩
  | node i l n _ ih =>
    obtain ⟨rfl, hp, -, hn⟩ := hf
    exact ⟨⟨rfl, (ih hn).1⟩, List.forall_mem_cons.mpr ⟨hp, (ih hn).2⟩⟩

/-- Under every node of a forest there is a chain that ends, and the node is above all of it. -/
theorem Linked.exists_chain {h : Heap α} {above i : ℕ} {p q : Option ℕ} {f : Forest}
    (hf : Linked h above p f q) (hi : i ∈ f.preorder) :
    ∃ is, Chain h (h i).list is ∧ ∀ j ∈ is, (h j).parent = some i := by
  induction f generalizing above p q with
  | nil => cases hi
  | node j l n ihl ihn =>
    obtain ⟨rfl, -, hl, hn⟩ := hf
    rcases List.mem_cons.mp hi with rfl | hi
    · exact ⟨l.chain, hl.chain⟩
    · rcases List.mem_append.mp hi with hi | hi
      · exact ihl hl hi
      · exact ihn hn hi

/-! ## The walk -/

/-- Where a walk is: at a node that comes next, at one above the nodes it is done with, or at its
end. -/
inductive Place where
  | visit (i : ℕ)
  | above (p : Option ℕ)
  deriving DecidableEq, Repr

/-- A walk: its place and the nodes it has visited. -/
structure Walk where
  place : Place
  visited : List ℕ

/-- From a node the walk goes to the first one under it, else to the one after it, else up until
there is one after. -/
def Walk.step (h : Heap α) (w : Walk) : Walk :=
  match w.place with
  | .visit i =>
    match (h i).list with
    | some j => ⟨.visit j, w.visited ++ [i]⟩
    | none =>
      match (h i).next with
      | some j => ⟨.visit j, w.visited ++ [i]⟩
      | none => ⟨.above (h i).parent, w.visited ++ [i]⟩
  | .above none => w
  | .above (some i) =>
    match (h i).next with
    | some j => ⟨.visit j, w.visited⟩
    | none => ⟨.above (h i).parent, w.visited⟩

/-- One place of a walk comes after another. -/
def Walk.Leads (h : Heap α) (w w' : Walk) : Prop := ∃ k, (step h)^[k] w = w'

namespace Walk

variable {h : Heap α} {w w₁ w₂ w₃ : Walk}

theorem Leads.step (hw : Walk.step h w = w₁) : Leads h w w₁ := ⟨1, hw⟩

theorem Leads.trans (h₁ : Leads h w₁ w₂) (h₂ : Leads h w₂ w₃) : Leads h w₁ w₃ := by
  obtain ⟨k₁, rfl⟩ := h₁
  obtain ⟨k₂, rfl⟩ := h₂
  exact ⟨k₂ + k₁, Function.iterate_add_apply _ _ _ _⟩

/-- After the last node of a chain a walk is at the node above. -/
theorem leads_above {above i : ℕ} {f : Forest} (hf : Linked h above (some i) f none)
    (visited : List ℕ) :
    Leads h ⟨.visit i, visited⟩ ⟨.above (some above), visited ++ f.preorder⟩ := by
  induction f generalizing above i visited with
  | nil => cases hf
  | node j l n ihl ihn =>
    obtain ⟨hij, hp, hl, hn⟩ := hf
    obtain rfl : i = j := Option.some.inj hij
    -- what comes after the nodes under this one
    have hafter : ∀ visited, Leads h ⟨.above (some i), visited⟩
        ⟨.above (some above), visited ++ n.preorder⟩ := by
      intro visited
      cases hnext : (h i).next with
      | none =>
        rw [hnext] at hn
        rw [hn.eq_nil, Forest.preorder_nil, List.append_nil]
        apply Leads.step
        simp only [Walk.step, hnext, hp]
      | some j =>
        rw [hnext] at hn
        have hfirst : Leads h ⟨.above (some i), visited⟩ ⟨.visit j, visited⟩ :=
          Leads.step (by simp only [Walk.step, hnext])
        exact hfirst.trans (ihn hn visited)
    cases hlist : (h i).list with
    | some j =>
      rw [hlist] at hl
      have hfirst : Leads h ⟨.visit i, visited⟩ ⟨.visit j, visited ++ [i]⟩ :=
        Leads.step (by simp only [Walk.step, hlist])
      have hrest := hfirst.trans ((ihl hl (visited ++ [i])).trans (hafter _))
      simpa using hrest
    | none =>
      rw [hlist] at hl
      rw [hl.eq_nil, Forest.preorder_node, Forest.preorder_nil, List.nil_append]
      cases hnext : (h i).next with
      | none =>
        rw [hnext] at hn
        rw [hn.eq_nil, Forest.preorder_nil]
        apply Leads.step
        simp only [Walk.step, hlist, hnext, hp]
      | some j =>
        rw [hnext] at hn
        have hfirst : Leads h ⟨.visit i, visited⟩ ⟨.visit j, visited ++ [i]⟩ :=
          Leads.step (by simp only [Walk.step, hlist, hnext])
        have hrest := hfirst.trans (ihn hn (visited ++ [i]))
        simpa using hrest

/-- A walk over everything under a root ends, and it has visited its nodes in preorder. -/
theorem leads_end {root : ℕ} {f : Forest} (hf : Linked h root (h root).list f none)
    (hnext : (h root).next = none) (hparent : (h root).parent = none) (hne : f ≠ .nil) :
    ∃ i, (h root).list = some i ∧ Leads h ⟨.visit i, []⟩ ⟨.above none, f.preorder⟩ := by
  cases hlist : (h root).list with
  | none =>
    rw [hlist] at hf
    exact absurd hf.eq_nil hne
  | some i =>
    rw [hlist] at hf
    refine ⟨i, rfl, (leads_above hf []).trans (Leads.step ?_)⟩
    simp only [Walk.step, hnext, hparent, List.nil_append]

end Walk

end Links
