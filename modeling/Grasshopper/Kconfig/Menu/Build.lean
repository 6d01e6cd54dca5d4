import Grasshopper.Library.Links

/-! # How `menu.c` builds the menu tree

The functions that the actions of the grammar call, on entries that are allocated one after the
other. `rootmenu` is there from the start.
-/

namespace Grasshopper.Kconfig

open Links

universe u
variable {α : Type u}

/-- The address of `rootmenu`. -/
def rootmenu : ℕ := 0

/-- The field `last_entry_ptr` points to. -/
inductive EntryPtr where
  | list (menu : ℕ)
  | next (menu : ℕ)
  deriving DecidableEq, Repr

/-- The entries so far and the variables of `menu.c`. -/
structure MenuBuilder (α : Type u) where
  menus : Heap α
  fresh : ℕ
  currentEntry : ℕ
  currentMenu : ℕ
  lastEntryPtr : EntryPtr

/-- `*ptr`. -/
def EntryPtr.load (ptr : EntryPtr) (h : Heap α) : Option ℕ :=
  match ptr with
  | list i => (h i).list
  | next i => (h i).next

/-- `*ptr = menu`. -/
def EntryPtr.store (ptr : EntryPtr) (menu : Option ℕ) (h : Heap α) : Heap α :=
  match ptr with
  | list i => h.setList i menu
  | next i => h.setNext i menu

/-- The entry whose field it is. -/
def EntryPtr.menu : EntryPtr → ℕ
  | list i => i
  | next i => i

def menuInit (root : α) : MenuBuilder α where
  menus _ := { data := root }
  fresh := rootmenu + 1
  currentEntry := rootmenu
  currentMenu := rootmenu
  lastEntryPtr := .list rootmenu

namespace MenuBuilder

/-- A new entry, with what its statement gives it. -/
def menuAddEntry (b : MenuBuilder α) (a : α) : MenuBuilder α :=
  let menu := b.fresh
  let menus := Function.update b.menus menu { data := a, parent := some b.currentMenu }
  { b with
    menus := b.lastEntryPtr.store (some menu) menus
    lastEntryPtr := .next menu
    currentEntry := menu
    fresh := menu + 1 }

def menuAddMenu (b : MenuBuilder α) : MenuBuilder α :=
  { b with currentMenu := b.currentEntry, lastEntryPtr := .list b.currentEntry }

/-- The grammar ends no menu but those it has begun, so there is one above. -/
def menuEndMenu (b : MenuBuilder α) : MenuBuilder α :=
  { b with
    lastEntryPtr := .next b.currentMenu
    currentMenu := (b.menus b.currentMenu).parent.getD rootmenu }

end MenuBuilder

/-! ## What a new entry leaves as it is -/

section Frame
variable (ptr : EntryPtr) (menu : Option ℕ) (i : ℕ) (h : Heap α)

theorem EntryPtr.store_of_ne (hi : i ≠ ptr.menu) : ptr.store menu h i = h i := by
  cases ptr with
  | list j => exact h.setList_of_ne j i _ hi
  | next j => exact h.setNext_of_ne j i _ hi

@[simp] theorem EntryPtr.store_data : (ptr.store menu h i).data = (h i).data := by
  cases ptr with
  | list j => exact h.setList_data j i _
  | next j => exact h.setNext_data j i _

@[simp] theorem EntryPtr.store_parent : (ptr.store menu h i).parent = (h i).parent := by
  cases ptr with
  | list j => exact h.setList_parent j i _
  | next j => exact h.setNext_parent j i _

end Frame

namespace MenuBuilder

variable (b : MenuBuilder α) (a : α)

@[simp] theorem menuAddEntry_data_fresh : ((b.menuAddEntry a).menus b.fresh).data = a := by
  simp [menuAddEntry]

@[simp] theorem menuAddEntry_parent_fresh :
    ((b.menuAddEntry a).menus b.fresh).parent = some b.currentMenu := by
  simp [menuAddEntry]

variable {i : ℕ}

theorem menuAddEntry_data (hi : i ≠ b.fresh) :
    ((b.menuAddEntry a).menus i).data = (b.menus i).data := by
  simp [menuAddEntry, hi]

theorem menuAddEntry_parent (hi : i ≠ b.fresh) :
    ((b.menuAddEntry a).menus i).parent = (b.menus i).parent := by
  simp [menuAddEntry, hi]

end MenuBuilder

end Grasshopper.Kconfig
