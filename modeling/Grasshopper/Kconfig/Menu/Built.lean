import Mathlib.Data.List.Range
import Grasshopper.Kconfig.Menu.Pointers

/-! # The tree that the grammar builds

The actions of a block link its entries, numbered in the order of their statements, into a forest
with the menu tree of the block.
-/

namespace Grasshopper.Kconfig

open Links (Heap Forest)

/-- The menu tree that a forest of entries holds. -/
def menusOf (h : Heap Entry) : Forest → Menus
  | .nil => .nil
  | .node i l n => .node (h i).data (menusOf h l) (menusOf h n)

@[simp] theorem menusOf_nil (h : Heap Entry) : menusOf h .nil = .nil := rfl
@[simp] theorem menusOf_node (h : Heap Entry) (i : ℕ) (l n : Forest) :
    menusOf h (.node i l n) = .node (h i).data (menusOf h l) (menusOf h n) := rfl

/-- The menu tree depends on what its entries hold. -/
theorem menusOf_congr {h h' : Heap Entry} {f : Forest}
    (heq : ∀ i ∈ f.preorder, (h' i).data = (h i).data) : menusOf h' f = menusOf h f := by
  induction f with
  | nil => rfl
  | node i l n ihl ihn =>
    rw [Forest.preorder_node, List.forall_mem_cons, List.forall_mem_append] at heq
    rw [menusOf_node, menusOf_node, heq.1, ihl heq.2.1, ihn heq.2.2]

theorem size_menusOf (h : Heap Entry) (f : Forest) :
    (menusOf h f).size = f.preorder.length := by
  induction f with
  | nil => rfl
  | node i l n ihl ihn => simp [ihl, ihn]

/-! ## The field where the next entry goes -/

namespace EntryPtr

variable {α : Type} (ptr : EntryPtr) (h : Heap α)

@[simp] theorem store_load : ptr.store (ptr.load h) h = h := by
  cases ptr with
  | list i => exact Function.update_eq_self i h
  | next i => exact Function.update_eq_self i h

@[simp] theorem load_store (p : Option ℕ) : ptr.load (ptr.store p h) = p := by
  cases ptr with
  | list i => exact congrArg Links.Node.list (h.setList_self i p)
  | next i => exact congrArg Links.Node.next (h.setNext_self i p)

@[simp] theorem store_store (p q : Option ℕ) : ptr.store p (ptr.store q h) = ptr.store p h := by
  cases ptr with
  | list i => simp [store, Heap.setList]
  | next i => simp [store, Heap.setNext]

/-- Only the entry with the field matters. -/
theorem load_congr {h' : Heap α} (heq : h' ptr.menu = h ptr.menu) : ptr.load h' = ptr.load h := by
  cases ptr with
  | list i => exact congrArg Links.Node.list heq
  | next i => exact congrArg Links.Node.next heq

theorem store_congr {h' : Heap α} {i : ℕ} (p : Option ℕ) (heq : h' i = h i) :
    ptr.store p h' i = ptr.store p h i := by
  by_cases hi : i = ptr.menu
  · subst hi
    cases ptr with
    | list j =>
      change Heap.setList h' j p j = Heap.setList h j p j
      rw [Heap.setList_self, Heap.setList_self]
      exact congrArg (fun x => { x with list := p }) heq
    | next j =>
      change Heap.setNext h' j p j = Heap.setNext h j p j
      rw [Heap.setNext_self, Heap.setNext_self]
      exact congrArg (fun x => { x with next := p }) heq
  · rw [ptr.store_of_ne p i h' hi, ptr.store_of_ne p i h hi, heq]

/-- The field behind the last entry of a chain, or the one the chain begins with. -/
def after (ptr : EntryPtr) (f : Forest) : EntryPtr :=
  match f with
  | .nil => ptr
  | .node i _ n => (EntryPtr.next i).after n

end EntryPtr

/-! ## What a block builds -/

/-- From one builder to the other a block has linked a forest of new entries in at
`last_entry_ptr`, and nothing else has changed. -/
structure Built (b b' : MenuBuilder Entry) (f : Forest) (ms : Menus) : Prop where
  linked : Links.Linked b'.menus b.currentMenu (b.lastEntryPtr.load b'.menus) f none
  menus : menusOf b'.menus f = ms
  preorder : f.preorder = List.range' b.fresh ms.size
  fresh : b'.fresh = b.fresh + ms.size
  currentMenu : b'.currentMenu = b.currentMenu
  ptr : b'.lastEntryPtr = b.lastEntryPtr.after f
  frame : ∀ i < b.fresh,
    b'.menus i = b.lastEntryPtr.store (b.lastEntryPtr.load b'.menus) b.menus i

/-- The builder may go on: nothing is linked in at `last_entry_ptr`. -/
structure OpenEnd (b : MenuBuilder Entry) : Prop where
  load : b.lastEntryPtr.load b.menus = none
  menu : b.lastEntryPtr.menu < b.fresh

/-- A builder that has linked one entry in, with what is under it. -/
structure Entered (b b' : MenuBuilder Entry) (e : Entry) (f : Forest) (l : Menus) : Prop where
  linked : Links.Linked b'.menus b.fresh (b'.menus b.fresh).list f none
  menus : menusOf b'.menus f = l
  preorder : f.preorder = List.range' (b.fresh + 1) l.size
  fresh : b'.fresh = b.fresh + (l.size + 1)
  currentMenu : b'.currentMenu = b.currentMenu
  ptr : b'.lastEntryPtr = .next b.fresh
  data : (b'.menus b.fresh).data = e
  parent : (b'.menus b.fresh).parent = some b.currentMenu
  next : (b'.menus b.fresh).next = none
  frame : ∀ i < b.fresh, b'.menus i = b.lastEntryPtr.store (some b.fresh) b.menus i

variable {b b' b'' : MenuBuilder Entry} {e : Entry} {f g : Forest} {l n : Menus}

theorem Entered.openEnd (h : Entered b b' e f l) : OpenEnd b' where
  load := by
    rw [h.ptr]
    exact h.next
  menu := by
    rw [h.ptr, h.fresh]
    exact Nat.lt_add_of_pos_right (Nat.succ_pos _)

theorem menuAddEntry_menus (hb : OpenEnd b) (e : Entry) :
    (b.menuAddEntry e).menus b.fresh = { data := e, parent := some b.currentMenu } := by
  change b.lastEntryPtr.store (some b.fresh) _ b.fresh = _
  rw [EntryPtr.store_of_ne _ _ _ _ (Nat.ne_of_gt hb.menu), Function.update_self]

theorem menuAddEntry_frame (e : Entry) {i : ℕ} (hi : i < b.fresh) :
    (b.menuAddEntry e).menus i = b.lastEntryPtr.store (some b.fresh) b.menus i :=
  EntryPtr.store_congr _ _ _ (Function.update_of_ne (Nat.ne_of_lt hi) _ _)

/-- An entry with nothing under it. -/
theorem entered_menuAddEntry (hb : OpenEnd b) (e : Entry) :
    Entered b (b.menuAddEntry e) e .nil .nil where
  linked := congrArg Links.Node.list (menuAddEntry_menus hb e)
  menus := rfl
  preorder := rfl
  fresh := rfl
  currentMenu := rfl
  ptr := rfl
  data := congrArg Links.Node.data (menuAddEntry_menus hb e)
  parent := congrArg Links.Node.parent (menuAddEntry_menus hb e)
  next := congrArg Links.Node.next (menuAddEntry_menus hb e)
  frame _ hi := menuAddEntry_frame e hi

theorem openEnd_menuAddMenu (hb : OpenEnd b) (e : Entry) : OpenEnd (b.menuAddEntry e).menuAddMenu where
  load := congrArg Links.Node.list (menuAddEntry_menus hb e)
  menu := Nat.lt_succ_self _

/-- An entry with a body. -/
theorem entered_menuEndMenu (hb : OpenEnd b) (e : Entry)
    (hbody : Built (b.menuAddEntry e).menuAddMenu b' f l) : Entered b b'.menuEndMenu e f l := by
  -- the body changes the list of the entry and no other field of it
  have hentry : b'.menus b.fresh =
      { data := e, list := (b'.menus b.fresh).list, parent := some b.currentMenu } := by
    have hframe := hbody.frame b.fresh (Nat.lt_succ_self _)
    change b'.menus b.fresh = Heap.setList _ b.fresh (b'.menus b.fresh).list b.fresh at hframe
    rw [Heap.setList_self] at hframe
    apply hframe.trans
    exact congrArg (fun x : Links.Node Entry => { x with list := (b'.menus b.fresh).list })
      (menuAddEntry_menus hb e)
  have hparent : (b'.menus b.fresh).parent = some b.currentMenu :=
    congrArg Links.Node.parent hentry
  have hcurrent : b'.currentMenu = b.fresh := hbody.currentMenu
  exact
    { linked := hbody.linked
      menus := hbody.menus
      preorder := hbody.preorder
      fresh := by
        change b'.fresh = _
        rw [hbody.fresh]
        change b.fresh + 1 + l.size = _
        omega
      currentMenu := by
        rw [MenuBuilder.menuEndMenu, hcurrent, hparent, Option.getD_some]
      ptr := congrArg EntryPtr.next hcurrent
      data := congrArg Links.Node.data hentry
      parent := hparent
      next := congrArg Links.Node.next hentry
      frame := fun i hi => by
        have hne : i ≠ b.fresh := Nat.ne_of_lt hi
        have hframe := hbody.frame i (Nat.lt_succ_of_lt hi)
        change b'.menus i = Heap.setList _ b.fresh _ i at hframe
        rw [Heap.setList_of_ne _ _ _ _ hne] at hframe
        exact hframe.trans (menuAddEntry_frame e hi) }

/-- An entry and the rest of its chain. -/
theorem Entered.built (hb : OpenEnd b) (h : Entered b b' e f l) (hrest : Built b' b'' g n) :
    Built b b'' (.node b.fresh f g) (.node e l n) := by
  -- the rest changes what comes after the entry
  have hframe : ∀ i < b'.fresh, i ≠ b.fresh → b''.menus i = b'.menus i := by
    intro i hi hne
    have heq := hrest.frame i hi
    rw [h.ptr] at heq
    exact heq.trans (Heap.setNext_of_ne _ _ _ _ hne)
  have hlt : b.fresh < b'.fresh := by
    rw [h.fresh]
    exact Nat.lt_add_of_pos_right (Nat.succ_pos _)
  have hentry : b''.menus b.fresh =
      { b'.menus b.fresh with next := (b''.menus b.fresh).next } := by
    have heq := hrest.frame b.fresh hlt
    rw [h.ptr] at heq
    exact heq.trans (Heap.setNext_self _ _ _)
  have hunder : ∀ i ∈ f.preorder, b''.menus i = b'.menus i := by
    intro i hi
    rw [h.preorder, List.mem_range'_1] at hi
    apply hframe i
    · rw [h.fresh]
      omega
    · omega
  have hload : b.lastEntryPtr.load b''.menus = some b.fresh := by
    have hmenu : b''.menus b.lastEntryPtr.menu =
        b.lastEntryPtr.store (some b.fresh) b.menus b.lastEntryPtr.menu := by
      rw [hframe _ (Nat.lt_trans hb.menu hlt) (Nat.ne_of_lt hb.menu)]
      exact h.frame _ hb.menu
    rw [EntryPtr.load_congr _ _ hmenu, EntryPtr.load_store]
  have hlinked := hrest.linked
  rw [h.ptr, h.currentMenu] at hlinked
  exact
    { linked := by
        rw [hload]
        apply Links.Linked.node
        · rw [hentry]
          exact h.parent
        · rw [hentry]
          exact h.linked.congr hunder
        · exact hlinked
      menus := by
        have hdata : (b''.menus b.fresh).data = e := by
          rw [hentry]
          exact h.data
        have hmenus : menusOf b''.menus f = l := by
          rw [menusOf_congr fun i hi => congrArg Links.Node.data (hunder i hi), h.menus]
        rw [menusOf_node, hdata, hmenus, hrest.menus]
      preorder := by
        have hstart : b'.fresh = b.fresh + 1 + l.size := by
          rw [h.fresh]
          omega
        rw [Forest.preorder_node, h.preorder, hrest.preorder, hstart, List.range'_append_1,
          Menus.size_node, List.range'_succ]
      fresh := by
        rw [hrest.fresh, h.fresh, Menus.size_node]
        omega
      currentMenu := hrest.currentMenu.trans h.currentMenu
      ptr := by
        rw [hrest.ptr, h.ptr]
        rfl
      frame := fun i hi => by
        rw [hframe i (Nat.lt_trans hi hlt) (Nat.ne_of_lt hi), hload]
        exact h.frame i hi }

/-- A block builds its menu tree. -/
theorem Block.exists_built (block : Block) {b : MenuBuilder Entry} (hb : OpenEnd b) :
    ∃ f, Built b (block.build b) f block.menus := by
  induction block generalizing b with
  | nil =>
    refine ⟨.nil, hb.load, rfl, rfl, rfl, rfl, rfl, fun i _ => ?_⟩
    rw [Block.build, EntryPtr.store_load]
  | config name menuconfig options next ih =>
    have hentered := entered_menuAddEntry hb (configEntry menuCheckDep name menuconfig options)
    obtain ⟨g, hrest⟩ := ih hentered.openEnd
    exact ⟨_, hentered.built hb hrest⟩
  | comment text deps next ih =>
    have hentered := entered_menuAddEntry hb (commentEntry menuCheckDep text deps)
    obtain ⟨g, hrest⟩ := ih hentered.openEnd
    exact ⟨_, hentered.built hb hrest⟩
  | menu text deps body next ihbody ih =>
    obtain ⟨f, hbody⟩ := ihbody (openEnd_menuAddMenu hb (menuEntry menuCheckDep text deps))
    have hentered := entered_menuEndMenu hb _ hbody
    obtain ⟨g, hrest⟩ := ih hentered.openEnd
    exact ⟨_, hentered.built hb hrest⟩
  | cond dep body next ihbody ih =>
    obtain ⟨f, hbody⟩ := ihbody (openEnd_menuAddMenu hb (condEntry menuCheckDep dep))
    have hentered := entered_menuEndMenu hb _ hbody
    obtain ⟨g, hrest⟩ := ih hentered.openEnd
    exact ⟨_, hentered.built hb hrest⟩
  | choice k options body next ihbody ih =>
    obtain ⟨f, hbody⟩ := ihbody (openEnd_menuAddMenu hb (choiceEntry menuCheckDep k options))
    have hentered := entered_menuEndMenu hb _ hbody
    obtain ⟨g, hrest⟩ := ih hentered.openEnd
    exact ⟨_, hentered.built hb hrest⟩

/-- The tree when `conf_parse` calls `menu_finalize`: all entries, numbered in preorder. -/
theorem ParsedTree.exists_built (t : ParsedTree) :
    ∃ f, Links.Linked t.built.menus rootmenu (t.built.menus rootmenu).list f none ∧
      menusOf t.built.menus f = t.block.menus ∧
      f.preorder = List.range' 1 (t.built.fresh - 1) ∧
      t.built.menus rootmenu = { data := rootEntry, list := (t.built.menus rootmenu).list } := by
  have hopen : OpenEnd (menuInit rootEntry) := ⟨rfl, Nat.zero_lt_one⟩
  obtain ⟨f, hbuilt⟩ := t.block.exists_built hopen
  refine ⟨f, hbuilt.linked, hbuilt.menus, ?_, ?_⟩
  · have hfresh : t.built.fresh = 1 + t.block.menus.size := hbuilt.fresh
    rw [hfresh, Nat.add_sub_cancel_left]
    exact hbuilt.preorder
  · exact (hbuilt.frame rootmenu Nat.zero_lt_one).trans (Heap.setList_self _ _ _)

end Grasshopper.Kconfig
