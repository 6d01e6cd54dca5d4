import Grasshopper.Kconfig.Menu.Rule

/-! # The configuration that `conf_parse` leaves behind

The symbol table of `sym_lookup`, the property lists, and what `menu_finalize` computed. All of
it stays as it is from here on; what changes is the state of the symbols.
-/

namespace Grasshopper.Kconfig

/-- The bucket of `symbol_hash`; all nameless choices are in the last one. -/
def Sym.hash : Sym → ℕ
  | choice _ => 256
  | s => (((s.name?.getD []).map Char.toNat).sum) % 256

theorem Sym.hash_lt_of_named {s : Sym} (h : s.isChoice = false) : s.hash < 256 := by
  cases s with
  | choice k => simp [isChoice] at h
  | _ => exact Nat.mod_lt _ (by decide)

theorem Sym.hash_lt (s : Sym) : s.hash < 257 := by
  cases s with
  | choice k => simp [hash]
  | _ => exact (Nat.mod_lt _ (by decide)).trans (by decide)

/-- A parsed and finalized tree, as the evaluator, the reader and the writer see it. -/
structure Config where
  /-- The symbols in the order of `for_all_symbols`. -/
  symbols : List Sym
  type : Sym → SymType
  props : Sym → List Property
  revDep : Sym → Option Expr
  members : Sym → List Sym
  link : Sym → Option Sym
  menus : Menus

namespace ParsedTree

/-- The symbols `sym_init` makes for a variable of the environment. -/
def initSyms (sym : Sym) : Option Text → List Sym
  | none => [sym]
  | some value => [sym, .lookup value true]

/-- All calls of `sym_lookup`, in order. -/
def lookups (t : ParsedTree) : List Sym :=
  initSyms versionSym t.version ++ initSyms targetArchSym t.targetArch ++ [modulesSym] ++
    t.block.lookups ++ t.block.choices.map .choice

/-- The symbols of the table, the newest first. -/
def newest (t : ParsedTree) : List Sym := (t.lookups.reverse.dedup).filter (!·.isStatic)

/-- `for_all_symbols`: `sym_lookup` puts a new symbol at the head of its bucket. -/
def symbols (t : ParsedTree) : List Sym :=
  (List.range 257).flatMap fun i => t.newest.filter (·.hash = i)

theorem mem_symbols (t : ParsedTree) (s : Sym) :
    s ∈ t.symbols ↔ s ∈ t.lookups ∧ s.isStatic = false := by
  simp only [symbols, newest, List.mem_flatMap, List.mem_range, List.mem_filter,
    List.mem_dedup, List.mem_reverse, decide_eq_true_eq, Bool.not_eq_true']
  exact ⟨fun ⟨_, _, h, _⟩ => h, fun h => ⟨s.hash, s.hash_lt, h, rfl⟩⟩

theorem symbols_nodup (t : ParsedTree) : t.symbols.Nodup := by
  have hn : t.newest.Nodup := (List.nodup_dedup _).filter _
  refine List.nodup_flatMap.mpr ⟨fun i _ => hn.filter _, ?_⟩
  refine List.nodup_range.imp fun {i j} hij s hi hj => ?_
  simp only [List.mem_filter, decide_eq_true_eq] at hi hj
  exact hij (hi.2.symm.trans hj.2)

/-- The default that `sym_init` gives to a symbol. It belongs to no entry. -/
def initDefault (sym : Sym) : Option Text → List Property
  | none => []
  | some value => [⟨some sym, .default, none, none, .expr (.symbol (.lookup value true))⟩]

/-- The `prop` list of a symbol, without the links that choices add at its end. -/
def props (t : ParsedTree) (s : Sym) : List Property :=
  (if s = versionSym then initDefault versionSym t.version else []) ++
    (if s = targetArchSym then initDefault targetArchSym t.targetArch else []) ++
    (t.finalized.1.preorder.filter (·.sym = some s)).flatMap (·.props)

/-- What `conf_parse` leaves. -/
def config (t : ParsedTree) : Config where
  symbols := t.symbols
  type := t.finalized.2.type
  props := t.props
  revDep := t.finalized.2.revDep
  members := t.finalized.2.members
  link := t.finalized.2.link
  menus := t.finalized.1


theorem modulesSym_mem (t : ParsedTree) : modulesSym ∈ t.config.symbols :=
  (t.mem_symbols modulesSym).mpr ⟨by simp [lookups], rfl⟩

end ParsedTree

end Grasshopper.Kconfig
