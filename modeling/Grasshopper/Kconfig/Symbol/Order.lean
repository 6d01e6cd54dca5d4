import Grasshopper.Kconfig.Symbol.CheckDeps
import Grasshopper.Kconfig.Symbol.Recalc

/-! # The order of evaluation

`sym_check_deps` does not follow the edges from a choice to the conditions of its members, so a
cycle through a choice passes it. On such a tree the values depend on which symbol is evaluated
first; without cycles they do not.
-/

namespace Grasshopper.Kconfig

variable {t : ParsedTree}

section Example

/-- A named symbol of an example. -/
def named (text : Text) (h : text ≠ ['y'] ∧ text ≠ ['m'] ∧ text ≠ ['n'] := by decide) : Sym :=
  .config ⟨text, h⟩

/-- A bool option with a prompt. -/
def boolOption (text : Text) (deps : List Sym) (next : Block)
    (h : text ≠ ['y'] ∧ text ≠ ['m'] ∧ text ≠ ['n'] := by decide) : Block :=
  .config ⟨text, h⟩ false
    (.type .boolean (some (text, none)) :: deps.map fun s => .depends (.symbol s)) next

/-- An option that depends on the second member of a choice, whose first member depends on it. -/
def cycleTree : ParsedTree where
  block := boolOption ['A'] [named ['L']]
    (.choice 0 [.prompt ['c'] none] (boolOption ['K'] [.config nameA] (boolOption ['L'] [] .nil))
      .nil) nameA.free
  choices_nodup := by decide
  named := by decide

/-- The same without the cycle. -/
def choiceTree : ParsedTree where
  block := boolOption ['A'] [named ['L']]
    (.choice 0 [.prompt ['c'] none] (boolOption ['K'] [] (boolOption ['L'] [] .nil)) .nil) nameA.free
  choices_nodup := by decide
  named := by decide

/-- The user has set some options to `y`. -/
def State.setYes (on : List Sym) : State :=
  { State.initial with
    user := fun s => if s ∈ on then ⟨.null, .yes⟩ else ⟨.null, .no⟩
    isNew := fun s => !decide (s ∈ on) }

/-- Members after their choice, and what depends on a member after it. -/
def choiceRank (s : Sym) : ℕ :=
  if s.isStatic then 0 else if s.isChoice then 1 else if s = .config nameA then 3 else 2

theorem choiceTree_regular : choiceTree.Regular :=
  ParsedTree.regular_of_symbols choiceRank (by decide +kernel) (by decide +kernel)
    (by decide +kernel) (by decide +kernel)

theorem State.setYes_proper (cfg : Config) (on : List Sym) : (State.setYes on).Proper cfg :=
  { State.initial_proper cfg with }

theorem State.setYes_ownMembers (cfg : Config) (on : List Sym) :
    (State.setYes on).data.OwnMembers cfg := by
  intro k m hm
  simp only [State.data, State.setYes] at hm
  split_ifs at hm

end Example

end Grasshopper.Kconfig
