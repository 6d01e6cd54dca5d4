import Grasshopper.Mklibs.Provider

/-! # The use of symbols in `mklibs.py`

Each library is asked for symbols that it has, and each needed symbol is asked of one library, if
the support for constructors and destructors does nothing. It tests the map of all libraries so
far, so that a library which comes after one with `_init` is asked for `_init` too.
-/

namespace Grasshopper.Mklibs

section Usage
variable (t : Tools)

/-- The symbol is in `provided_symbols(find_lib(library))`. -/
def Provides (library symbol : Text) : Prop :=
  ∃ path, t.findLib library = some path ∧ symbol ∈ (t.providedSymbols path).list

/-- The symbols that the fix-up is about. -/
def specials : List Text := [initSymbol, finiSymbol]

/-- The symbol is needed, weakly or not. -/
def Needed (needed : List (Text × Bool)) (symbol : Text) : Prop :=
  ∃ isWeak, (symbol, isWeak) ∈ needed

/-- Libraries are asked only for what they have, and a needed symbol is asked of one library,
which is a libc if a libc has it. -/
structure Served (libraries : List Text) (needed : List (Text × Bool)) (m : Maps) : Prop where
  provides : ∀ l ∈ libraries, ∀ s ∈ m.librarySymbolsUsed l, Provides t l s
  unique : ∀ s, Needed needed s → (∃ l ∈ libraries, Provides t l s) →
    ∃ l ∈ libraries, (∀ l' ∈ libraries, s ∈ m.librarySymbolsUsed l' ↔ l' = l) ∧
      ((∃ l' ∈ libraries, isLibc l' ∧ Provides t l' s) → isLibc l)

/-- What comes after a library with a constructor or destructor has one too; if it is needed,
nothing comes after. -/
def FixupHarmless (libraries : List Text) (needed : List (Text × Bool)) : Prop :=
  ∀ s ∈ specials,
    libraries.Pairwise (fun l l' => Provides t l s → Provides t l' s) ∧
      (Needed needed s → libraries.Pairwise fun l _ => ¬Provides t l s)

/-- In a list with the newest library first, the library or an older one provides the symbol. -/
def Follows (s : Text) : List Text → Text → Prop
  | [], _ => False
  | newest :: done, l => (l = newest ∧ ∃ l' ∈ newest :: done, Provides t l' s) ∨ Follows s done l

/-- The maps after the libraries `done`, the newest first. -/
structure Provided (done : List Text) (m : Maps) : Prop where
  none_iff : ∀ s, m.symbolProvider s = none ↔ ∀ l ∈ done, ¬Provides t l s
  ordinary : ∀ s ∉ specials, ∀ l, m.symbolProvider s = some l →
    l ∈ done ∧ Provides t l s ∧ ((∃ l' ∈ done, isLibc l' ∧ Provides t l' s) → isLibc l)
  special : ∀ s ∈ specials, ∀ l, m.symbolProvider s = some l → done.head? = some l
  used_iff : ∀ l s, s ∈ m.librarySymbolsUsed l ↔ s ∈ specials ∧ Follows t s done l

variable {t}

/-! ## The loop over the libraries -/

theorem Follows.mem {s : Text} {done : List Text} {l : Text} (h : Follows t s done l) :
    l ∈ done := by
  induction done with
  | nil => exact h.elim
  | cons newest done ih =>
    obtain ⟨rfl, -⟩ | h := h
    · exact List.mem_cons_self
    · exact List.mem_cons_of_mem _ (ih h)

theorem Provided.empty : Provided t [] .empty where
  none_iff := by simp [Maps.empty]
  ordinary := by simp [Maps.empty]
  special := by simp [Maps.empty]
  used_iff := by simp [Maps.empty, Follows]

theorem provides_iff {library path : Text} (hpath : t.findLib library = some path) (s : Text) :
    Provides t library s ↔ s ∈ (t.providedSymbols path).list := by
  simp [Provides, hpath]

theorem symbolProvider_fixups (library : Text) (m : Maps) (s : Text) :
    ((m.fixup library initSymbol).fixup library finiSymbol).symbolProvider s =
      if s ∈ specials ∧ (m.symbolProvider s).isSome then some library else m.symbolProvider s := by
  simp only [Maps.symbolProvider_fixup, specials, List.mem_cons, List.not_mem_nil, or_false]
  by_cases hinit : s = initSymbol
  · have hfini : s ≠ finiSymbol := by
      rintro rfl
      cases hinit
    simp [hinit, hinit ▸ hfini]
  · simp [hinit]

theorem mem_used_fixups (library : Text) (m : Maps) (l s : Text) :
    s ∈ ((m.fixup library initSymbol).fixup library finiSymbol).librarySymbolsUsed l ↔
      l = library ∧ s ∈ specials ∧ (m.symbolProvider s).isSome ∨ s ∈ m.librarySymbolsUsed l := by
  simp only [Maps.mem_used_fixup, Maps.symbolProvider_fixup, specials, List.mem_cons,
    List.not_mem_nil, or_false]
  by_cases hinit : s = initSymbol
  · have hfini : s ≠ finiSymbol := by
      rintro rfl
      cases hinit
    simp [hinit, hinit ▸ hfini]
  · simp [hinit]

/-- A special symbol gets the new library as its provider as soon as it has one. -/
theorem symbolProvider_special {m m' : Maps} {library : Text}
    (h : addLibrary t m library = .ok m') {s : Text} (hs : s ∈ specials) (l : Text) :
    m'.symbolProvider s = some l ↔
      l = library ∧ (Provides t library s ∨ (m.symbolProvider s).isSome) := by
  unfold addLibrary at h
  cases hpath : t.findLib library with
  | none => rw [hpath] at h; cases h
  | some path =>
    rw [hpath] at h
    cases h
    rw [symbolProvider_fixups, Maps.symbolProvider_foldl, Maps.symbolProvider_enter,
      provides_iff hpath]
    by_cases hsym : s ∈ (t.providedSymbols path).list
    · cases hold : m.symbolProvider s with
      | none => simp [hs, hsym, @eq_comm _ library]
      | some l' => cases isLibc library <;> simp [hs, hsym, @eq_comm _ library]
    · cases m.symbolProvider s <;> simp [hs, hsym, @eq_comm _ library]

/-- Another symbol gets it if it has none yet, or if it is a libc. -/
theorem symbolProvider_ordinary {m m' : Maps} {library : Text}
    (h : addLibrary t m library = .ok m') {s : Text} (hs : s ∉ specials)
    [Decidable (Provides t library s)] :
    m'.symbolProvider s =
      if Provides t library s ∧ (m.symbolProvider s = none ∨ isLibc library) then some library
      else m.symbolProvider s := by
  unfold addLibrary at h
  cases hpath : t.findLib library with
  | none => rw [hpath] at h; cases h
  | some path =>
    rw [hpath] at h
    cases h
    rw [symbolProvider_fixups, Maps.symbolProvider_foldl, Maps.symbolProvider_enter,
      if_neg fun h => hs h.1]
    simp only [provides_iff hpath]

/-- A library gets the special symbols that it or an older one has. -/
theorem mem_used_addLibrary {m m' : Maps} {library : Text} (h : addLibrary t m library = .ok m')
    (l s : Text) :
    s ∈ m'.librarySymbolsUsed l ↔
      if l = library then s ∈ specials ∧ (Provides t library s ∨ (m.symbolProvider s).isSome)
      else s ∈ m.librarySymbolsUsed l := by
  unfold addLibrary at h
  cases hpath : t.findLib library with
  | none => rw [hpath] at h; cases h
  | some path =>
    rw [hpath] at h
    cases h
    rw [mem_used_fixups, Maps.symbolProvider_foldl, Maps.symbolProvider_enter, Maps.used_foldl,
      Maps.used_enter, provides_iff hpath]
    by_cases hl : l = library
    · cases hold : m.symbolProvider s with
      | none => simp [hl]
      | some l' =>
        rw [← apply_ite some]
        simp [hl]
    · simp [hl]

theorem Provided.addLibrary {done : List Text} {m m' : Maps} {library : Text}
    (hm : Provided t done m) (h : addLibrary t m library = .ok m') (hnew : library ∉ done) :
    Provided t (library :: done) m' := by
  classical
  refine ⟨?_, ?_, ?_, ?_⟩
  · intro s
    rw [List.forall_mem_cons, ← hm.none_iff]
    by_cases hs : s ∈ specials
    · rw [Option.eq_none_iff_forall_ne_some]
      simp only [ne_eq, symbolProvider_special h hs, not_and, forall_eq, not_or,
        Option.not_isSome_iff_eq_none]
    · rw [symbolProvider_ordinary h hs]
      split_ifs with htaken
      · simp [htaken.1]
      · grind
  · intro s hs l hl
    rw [symbolProvider_ordinary h hs] at hl
    split_ifs at hl with htaken
    · cases hl
      refine ⟨List.mem_cons_self, htaken.1, ?_⟩
      rintro ⟨l', hl', hlibc, hprovides⟩
      obtain rfl | hl' := List.mem_cons.1 hl'
      · exact hlibc
      · obtain hnone | hlibc := htaken.2
        · exact absurd hprovides ((hm.none_iff s).1 hnone l' hl')
        · exact hlibc
    · obtain ⟨hmem, hprovides, hlibc⟩ := hm.ordinary s hs l hl
      refine ⟨List.mem_cons_of_mem _ hmem, hprovides, ?_⟩
      rintro ⟨l', hl', hlibc', hprovides'⟩
      obtain rfl | hl' := List.mem_cons.1 hl'
      · exact absurd ⟨hprovides', .inr hlibc'⟩ htaken
      · exact hlibc ⟨l', hl', hlibc', hprovides'⟩
  · intro s hs l hl
    rw [symbolProvider_special h hs] at hl
    rw [hl.1, List.head?_cons]
  · intro l s
    rw [mem_used_addLibrary h]
    by_cases hl : l = library
    · subst hl
      have hold : ¬Follows t s done l := fun h => hnew h.mem
      rw [if_pos rfl, Option.isSome_iff_ne_none, Ne, hm.none_iff]
      simp [Follows, hold]
    · rw [if_neg hl, hm.used_iff]
      simp [Follows, hl]

theorem Provided.addLibraries {done : List Text} {libraries : List Text} {m m' : Maps}
    (hm : Provided t done m) (h : libraries.foldlM (Mklibs.addLibrary t) m = .ok m')
    (hnew : libraries.Nodup) (hdisjoint : libraries.Disjoint done) :
    Provided t (libraries.reverse ++ done) m' := by
  induction libraries generalizing done m with
  | nil =>
    cases h
    exact hm
  | cons library libraries ih =>
    rw [List.foldlM_cons] at h
    cases hlibrary : Mklibs.addLibrary t m library with
    | error e => rw [hlibrary] at h; cases h
    | ok m₁ =>
      rw [hlibrary] at h
      obtain ⟨hlibraries, hnodup⟩ := List.nodup_cons.1 hnew
      rw [List.disjoint_cons_left] at hdisjoint
      rw [List.reverse_cons, List.append_assoc]
      refine ih (hm.addLibrary hlibrary hdisjoint.1) h hnodup ?_
      change libraries.Disjoint (library :: done)
      rw [List.disjoint_cons_right]
      exact ⟨hlibraries, hdisjoint.2⟩

/-! ## The loop over the needed symbols -/

theorem useNeeded_spec {uclibc : Bool} {m m' : Maps} {symbol : Text} {isWeak : Bool}
    (h : useNeeded uclibc m (symbol, isWeak) = .ok m') :
    m'.symbolProvider = m.symbolProvider ∧
      ∀ l s, s ∈ m'.librarySymbolsUsed l ↔
        s ∈ m.librarySymbolsUsed l ∨ s = symbol ∧ m.symbolProvider s = some l := by
  simp only [useNeeded] at h
  cases hprovider : m.symbolProvider symbol with
  | none =>
    simp only [hprovider] at h
    split_ifs at h
    cases h
    refine ⟨rfl, fun l s => ?_⟩
    grind
  | some lib =>
    simp only [hprovider] at h
    cases h
    refine ⟨rfl, fun l s => ?_⟩
    rw [Maps.mem_used_use]
    grind

theorem useNeeded_foldlM {uclibc : Bool} {needed : List (Text × Bool)} {m m' : Maps}
    (h : needed.foldlM (useNeeded uclibc) m = .ok m') (l s : Text) :
    s ∈ m'.librarySymbolsUsed l ↔
      s ∈ m.librarySymbolsUsed l ∨ Needed needed s ∧ m.symbolProvider s = some l := by
  induction needed generalizing m with
  | nil =>
    cases h
    simp [Needed]
  | cons x needed ih =>
    rw [List.foldlM_cons] at h
    cases hx : useNeeded uclibc m x with
    | error e => rw [hx] at h; cases h
    | ok m₁ =>
      rw [hx] at h
      obtain ⟨symbol, isWeak⟩ := x
      obtain ⟨hprovider, hused⟩ := useNeeded_spec hx
      rw [ih h, hprovider, hused]
      simp only [Needed, List.mem_cons, Prod.mk.injEq]
      grind

/-! ## The symbols of the fix-up -/

section Specials
variable {s : Text} {done : List Text}

/-- Only providers follow a provider exactly if every library that comes after a provider is
one. -/
theorem follows_provides_iff :
    (∀ l, Follows t s done l → Provides t l s) ↔
      done.Pairwise fun l l' => Provides t l' s → Provides t l s := by
  induction done with
  | nil => simp [Follows]
  | cons newest done ih =>
    rw [List.pairwise_cons, ← ih]
    constructor
    · intro h
      refine ⟨fun l hl hprovides => h newest (.inl ⟨rfl, l, List.mem_cons_of_mem _ hl, hprovides⟩),
        fun l hl => h l (.inr hl)⟩
    · rintro ⟨hnewest, hdone⟩ l (⟨rfl, l', hl', hprovides⟩ | hl)
      · obtain rfl | hl' := List.mem_cons.1 hl'
        · exact hprovides
        · exact hnewest l' hl' hprovides
      · exact hdone l hl

theorem exists_follows_iff :
    (∃ l, Follows t s done l) ↔ ∃ l ∈ done, Provides t l s := by
  induction done with
  | nil => simp [Follows]
  | cons newest done ih =>
    simp only [Follows, exists_or, ih, exists_eq_left, List.exists_mem_cons_iff]
    grind

/-- The newest library follows whoever provides the symbol. -/
theorem Follows.newest {newest l : Text} (hl : l ∈ newest :: done) (h : Provides t l s) :
    Follows t s (newest :: done) newest :=
  .inl ⟨rfl, l, hl, h⟩

theorem pairwise_not_provides_iff {newest : Text} (hnodup : done.Nodup) :
    ((newest :: done).Pairwise fun _ l => ¬Provides t l s) ↔ ∀ l ∈ done, ¬Provides t l s := by
  rw [List.pairwise_cons]
  refine ⟨And.left, fun h => ⟨h, ?_⟩⟩
  exact List.Pairwise.imp_of_mem (fun _ hl _ => h _ hl) hnodup

/-- One library follows whoever provides the symbol exactly if only the newest provides it. -/
theorem follows_unique_iff (hnodup : done.Nodup) :
    ((∃ l ∈ done, Provides t l s) →
      ∃ l ∈ done, (∀ l' ∈ done, Follows t s done l' ↔ l' = l) ∧
        ((∃ l' ∈ done, isLibc l' ∧ Provides t l' s) → isLibc l)) ↔
      done.Pairwise fun _ l => ¬Provides t l s := by
  cases done with
  | nil => simp
  | cons newest done =>
    obtain ⟨hnew, hnodup⟩ := List.nodup_cons.1 hnodup
    rw [pairwise_not_provides_iff hnodup]
    constructor
    · intro h l hl hprovides
      have hmem := List.mem_cons_of_mem newest hl
      obtain ⟨x, -, honly, -⟩ := h ⟨l, hmem, hprovides⟩
      -- both the newest library and one before it would be the one that follows
      have hnewest := (honly newest List.mem_cons_self).1 (.newest hmem hprovides)
      obtain ⟨y, hy⟩ := exists_follows_iff.2 ⟨l, hl, hprovides⟩
      have hold := (honly y (List.mem_cons_of_mem _ hy.mem)).1 (.inr hy)
      exact hnew (hnewest ▸ hold ▸ hy.mem)
    · rintro h ⟨l, hl, hprovides⟩
      have hnewest : ∀ l' ∈ newest :: done, Provides t l' s → l' = newest := by
        intro l' hl' hprovides'
        obtain rfl | hl' := List.mem_cons.1 hl'
        · rfl
        · exact absurd hprovides' (h l' hl')
      refine ⟨newest, List.mem_cons_self, fun l' _ => ⟨?_, ?_⟩, ?_⟩
      · rintro (⟨rfl, -⟩ | hl')
        · rfl
        · obtain ⟨y, hy, hprovides'⟩ := exists_follows_iff.1 ⟨l', hl'⟩
          exact absurd hprovides' (h y hy)
      · rintro rfl
        exact .newest hl hprovides
      · rintro ⟨l', hl', hlibc, hprovides'⟩
        rwa [← hnewest l' hl' hprovides']

end Specials

/-! ## The lists of used symbols -/

/-- What is used from the libraries at the end. -/
theorem assign_spec {uclibc : Bool} {libraries : Elems Text} {needed : Elems (Text × Bool)}
    {m : Maps} (h : assign t uclibc libraries needed = .ok m) :
    ∃ m₁, Provided t libraries.list.reverse m₁ ∧
      ∀ l s, s ∈ m.librarySymbolsUsed l ↔
        s ∈ m₁.librarySymbolsUsed l ∨
          Needed needed.list s ∧ m₁.symbolProvider s = some l := by
  unfold assign at h
  cases hlibraries : libraries.list.foldlM (addLibrary t) .empty with
  | error e => rw [hlibraries] at h; cases h
  | ok m₁ =>
    rw [hlibraries] at h
    have hprovided := Provided.empty.addLibraries hlibraries libraries.nodup
      (List.disjoint_nil_right _)
    rw [List.append_nil] at hprovided
    exact ⟨m₁, hprovided, useNeeded_foldlM h⟩

section Used
variable {done : List Text} {needed : List (Text × Bool)} {m₁ m : Maps} {s : Text}

theorem Provided.exists_provides (hm : Provided t done m) {l : Text}
    (h : m.symbolProvider s = some l) : ∃ l ∈ done, Provides t l s := by
  by_contra hno
  push Not at hno
  rw [(hm.none_iff s).2 hno] at h
  cases h

theorem Provided.exists_provider (hm : Provided t done m) (h : ∃ l ∈ done, Provides t l s) :
    ∃ l, m.symbolProvider s = some l := by
  obtain ⟨l, hl, hprovides⟩ := h
  rw [← Option.isSome_iff_exists, Option.isSome_iff_ne_none, Ne, hm.none_iff]
  exact fun hno => hno l hl hprovides

/-- A symbol of the fix-up is used from the libraries that follow a provider. -/
theorem Provided.used_special (hm : Provided t done m₁)
    (hused : ∀ l s, s ∈ m.librarySymbolsUsed l ↔
      s ∈ m₁.librarySymbolsUsed l ∨ Needed needed s ∧ m₁.symbolProvider s = some l)
    (hs : s ∈ specials) (l : Text) : s ∈ m.librarySymbolsUsed l ↔ Follows t s done l := by
  rw [hused, hm.used_iff]
  refine ⟨?_, fun h => .inl ⟨hs, h⟩⟩
  rintro (⟨-, h⟩ | ⟨-, hprovider⟩)
  · exact h
  · obtain ⟨l', hl', hprovides⟩ := hm.exists_provides hprovider
    obtain ⟨rest, rfl⟩ := List.head?_eq_some_iff.1 (hm.special s hs l hprovider)
    exact .newest hl' hprovides

/-- Another symbol is used from its provider. -/
theorem Provided.used_ordinary (hm : Provided t done m₁)
    (hused : ∀ l s, s ∈ m.librarySymbolsUsed l ↔
      s ∈ m₁.librarySymbolsUsed l ∨ Needed needed s ∧ m₁.symbolProvider s = some l)
    (hs : s ∉ specials) (l : Text) :
    s ∈ m.librarySymbolsUsed l ↔ Needed needed s ∧ m₁.symbolProvider s = some l := by
  rw [hused, hm.used_iff]
  simp [hs]

end Used

/-- After the assignment each library is asked only for symbols that it has, and each needed symbol
is asked of one library, exactly if the support for constructors and destructors is harmless. -/
theorem assign_served_iff {uclibc : Bool} {libraries : Elems Text}
    {needed : Elems (Text × Bool)} {m : Maps} (h : assign t uclibc libraries needed = .ok m) :
    Served t libraries.list needed.list m ↔ FixupHarmless t libraries.list needed.list := by
  obtain ⟨m₁, hm, hused⟩ := assign_spec h
  have hnodup := List.nodup_reverse.2 libraries.nodup
  have hspecial := fun s (hs : s ∈ specials) => hm.used_special hused hs
  have hordinary := fun s (hs : s ∉ specials) => hm.used_ordinary hused hs
  have hmem : ∀ {l}, l ∈ libraries.list.reverse ↔ l ∈ libraries.list := List.mem_reverse
  constructor
  · rintro ⟨hprovides, hunique⟩ s hs
    constructor
    · refine List.pairwise_reverse.1 (follows_provides_iff.1 fun l hl => ?_)
      exact hprovides l (hmem.1 hl.mem) s ((hspecial s hs l).2 hl)
    · intro hneeded
      have huniques := hunique s hneeded
      simp only [hspecial s hs, ← hmem] at huniques
      exact List.pairwise_reverse.1 ((follows_unique_iff hnodup).1 huniques)
  · intro hharmless
    constructor
    · intro l hl s hused
      by_cases hs : s ∈ specials
      · exact follows_provides_iff.2 (List.pairwise_reverse.2 (hharmless s hs).1) l
          ((hspecial s hs l).1 hused)
      · exact (hm.ordinary s hs l ((hordinary s hs l).1 hused).2).2.1
    · intro s hneeded hprovided
      by_cases hs : s ∈ specials
      · have huniques := (follows_unique_iff hnodup).2
          (List.pairwise_reverse.2 ((hharmless s hs).2 hneeded))
        simp only [hmem, ← hspecial s hs] at huniques
        exact huniques hprovided
      · obtain ⟨l, hprovider⟩ := hm.exists_provider (by simpa only [hmem] using hprovided)
        obtain ⟨hl, -, hlibc⟩ := hm.ordinary s hs l hprovider
        simp only [hmem] at hl hlibc
        refine ⟨l, hl, fun l' _ => ?_, hlibc⟩
        rw [hordinary s hs, hprovider, Option.some.injEq, eq_comm]
        exact and_iff_right hneeded

end Usage

/-! ## A library with a constructor -/

/-- `liba.so` has a constructor and `libc.so` has none. -/
def ctorTools : Tools where
  findLib library := some library
  providedSymbols path :=
    if path = ['l', 'i', 'b', 'a', '.', 's', 'o'] then ⟨[initSymbol], by decide⟩
    else ⟨[['p', 'u', 't', 's']], by decide⟩

def ctorFirst : Elems Text where
  list := [['l', 'i', 'b', 'a', '.', 's', 'o'], ['l', 'i', 'b', 'c', '.', 's', 'o']]
  nodup := by decide

def ctorLast : Elems Text where
  list := [['l', 'i', 'b', 'c', '.', 's', 'o'], ['l', 'i', 'b', 'a', '.', 's', 'o']]
  nodup := by decide

/-- `puts`, and `sys_siglist`, which each pass adds as a weak symbol. -/
def putsNeeded : Elems (Text × Bool) where
  list :=
    [(['p', 'u', 't', 's'], false), (['s', 'y', 's', '_', 's', 'i', 'g', 'l', 'i', 's', 't'], true)]
  nodup := by decide

/-- After the library with a constructor, the other one is asked for `_init` too. -/
theorem ctorFirst_not_served :
    ∃ m, assign ctorTools false ctorFirst putsNeeded = .ok m ∧
      ¬Served ctorTools ctorFirst.list putsNeeded.list m := by
  refine ⟨_, rfl, fun hserved => ?_⟩
  obtain ⟨path, hpath, hinit⟩ := hserved.provides ['l', 'i', 'b', 'c', '.', 's', 'o'] (by decide)
    initSymbol (by decide)
  cases hpath
  revert hinit
  decide

/-- In the other order nothing comes after it. -/
theorem ctorLast_served_iff :
    ∃ m, assign ctorTools false ctorLast putsNeeded = .ok m ∧
      (Served ctorTools ctorLast.list putsNeeded.list m ↔
        FixupHarmless ctorTools ctorLast.list putsNeeded.list) :=
  have hassign : assign ctorTools false ctorLast putsNeeded = .ok _ := rfl
  ⟨_, hassign, assign_served_iff hassign⟩

end Grasshopper.Mklibs
