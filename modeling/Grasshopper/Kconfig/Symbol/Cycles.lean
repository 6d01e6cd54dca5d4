import Grasshopper.Kconfig.Symbol.CheckDeps
import Grasshopper.Kconfig.Menu.Structure
import Grasshopper.Library.Dependency

/-! # The cycles that `sym_check_deps` finds

The search goes along the expressions of a symbol and stops at the first symbol that is on the way
to itself. Only the loop around it marks symbols as done, so a search may visit a symbol often; it
is never deeper than there are symbols.
-/

namespace Grasshopper.Kconfig

/-- A symbol `b` occurs in the reverse dependencies of `a`, in the condition of one of its
properties that is neither a choice nor a select, or in a default of a symbol that is no choice. -/
def Follows (cfg : Config) (a b : Sym) : Prop :=
  b ∈ optSyms (cfg.revDep a) ∨
    ∃ p ∈ cfg.props a, p.type ≠ .choice ∧ p.type ≠ .select ∧
      (b ∈ optSyms p.visible ∨
        p.type = .default ∧ a.isChoice = false ∧ ∃ e, p.expr = .expr e ∧ b ∈ e.syms)

/-! ## The calls of one call -/

section Calls
variable (deps : Sym → CheckState → Option Sym × CheckState)

/-- The calls for some symbols one after the other, up to the first that finds a cycle. -/
def checkSyms : List Sym → CheckState → Option Sym × CheckState
  | [], st => (none, st)
  | s :: ss, st =>
    match deps s st with
    | (some r, st) => (some r, st)
    | (none, st) => checkSyms ss st

theorem checkSyms_cons_some {s : Sym} {st : CheckState} {r : Sym} (h : (deps s st).1 = some r)
    (ss : List Sym) : checkSyms deps (s :: ss) st = deps s st := by
  rw [checkSyms]
  rcases hr : deps s st with ⟨_ | r', st'⟩
  · rw [hr] at h
    cases h
  · rfl

theorem checkSyms_cons_none {s : Sym} {st : CheckState} (h : (deps s st).1 = none)
    (ss : List Sym) : checkSyms deps (s :: ss) st = checkSyms deps ss (deps s st).2 := by
  rw [checkSyms]
  rcases hr : deps s st with ⟨_ | r', st'⟩
  · rfl
  · rw [hr] at h
    cases h

theorem checkSyms_append (ss ss' : List Sym) (st : CheckState) :
    checkSyms deps (ss ++ ss') st =
      match checkSyms deps ss st with
      | (some r, st) => (some r, st)
      | (none, st) => checkSyms deps ss' st := by
  induction ss generalizing st with
  | nil => rfl
  | cons s ss ih =>
    rw [List.cons_append, checkSyms, checkSyms]
    rcases deps s st with ⟨_ | r, st⟩
    · exact ih st
    · rfl

theorem checkSyms_single (s : Sym) (st : CheckState) : checkSyms deps [s] st = deps s st := by
  rw [checkSyms]
  rcases deps s st with ⟨_ | r, st⟩
  · rfl
  · rfl

theorem checkSyms_pair (a b : Sym) (st : CheckState) :
    checkSyms deps [a, b] st =
      match deps a st with
      | (some r, st) => (some r, st)
      | (none, st) => deps b st := by
  rw [checkSyms]
  rcases deps a st with ⟨_ | r, st⟩
  · exact checkSyms_single deps b st
  · rfl

/-- `sym_check_expr_deps` calls `sym_check_deps` for the symbols of the expression. -/
theorem symCheckExprDeps_eq (e : Expr) (st : CheckState) :
    symCheckExprDeps deps e st = checkSyms deps e.syms st := by
  induction e generalizing st with
  | symbol s => exact (checkSyms_single deps s st).symm
  | not e ih => exact ih st
  | and l r ihl ihr | or l r ihl ihr =>
    rw [symCheckExprDeps, Expr.syms, checkSyms_append, ihl]
    rcases checkSyms deps l.syms st with ⟨_ | x, st⟩
    · exact ihr st
    · rfl
  | equal a b | unequal a b => exact (checkSyms_pair deps a b st).symm

theorem checkList_eq (es : List Expr) (st : CheckState) :
    checkList deps es st = checkSyms deps (es.flatMap Expr.syms) st := by
  induction es generalizing st with
  | nil => rfl
  | cons e es ih =>
    rw [checkList, List.flatMap_cons, checkSyms_append, symCheckExprDeps_eq]
    rcases checkSyms deps e.syms st with ⟨_ | r, st⟩
    · exact ih st
    · rfl

theorem checkOpt_eq (e : Option Expr) (st : CheckState) :
    checkOpt deps e st = checkSyms deps (optSyms e) st := by
  cases e with
  | none => rfl
  | some e => exact symCheckExprDeps_eq deps e st

end Calls

/-- The symbols that `sym_check_deps` is called for, in order. -/
def followed (cfg : Config) (s : Sym) : List Sym :=
  optSyms (cfg.revDep s) ++ ((cfg.props s).flatMap (checkedExprs s)).flatMap Expr.syms

theorem mem_followed {cfg : Config} {a b : Sym} : b ∈ followed cfg a ↔ Follows cfg a b := by
  have hexprs : ∀ p : Property, (∃ e ∈ checkedExprs a p, b ∈ e.syms) ↔
      p.type ≠ .choice ∧ p.type ≠ .select ∧
        (b ∈ optSyms p.visible ∨
          p.type = .default ∧ a.isChoice = false ∧ ∃ e, p.expr = .expr e ∧ b ∈ e.syms) := by
    intro p
    by_cases hskip : p.type = .choice ∨ p.type = .select
    · rw [checkedExprs, if_pos hskip]
      simp only [List.not_mem_nil, false_and, exists_false, false_iff]
      rintro ⟨hc, hs, -⟩
      rcases hskip with h | h
      · exact hc h
      · exact hs h
    · rw [checkedExprs, if_neg hskip]
      obtain ⟨hc, hs⟩ := not_or.mp hskip
      have hvis : (∃ e ∈ p.visible.toList, b ∈ e.syms) ↔ b ∈ optSyms p.visible := by
        cases p.visible with
        | none => simp [optSyms]
        | some e => simp [optSyms]
      simp only [List.mem_append, or_and_right, exists_or, hvis, hc, hs, ne_eq,
        not_false_eq_true, true_and]
      refine or_congr Iff.rfl ?_
      cases p.expr with
      | null => simp
      | range lo hi => simp
      | expr e =>
        by_cases hd : p.type = .default
        · cases hch : a.isChoice with
          | true => simp [hd]
          | false => simp [hd]
        · simp [hd]
  simp only [followed, Follows, List.mem_append, List.mem_flatMap, ← hexprs]
  refine or_congr Iff.rfl ?_
  constructor
  · rintro ⟨e, ⟨p, hp, he⟩, hb⟩
    exact ⟨p, hp, e, he, hb⟩
  · rintro ⟨p, hp, e, he, hb⟩
    exact ⟨e, ⟨p, hp, he⟩, hb⟩

/-- `SYMBOL_CHECK` and `SYMBOL_CHECKED` are set. -/
def CheckState.enter (st : CheckState) (s : Sym) : CheckState := (st.setCheck s true).setChecked s

/-- One call of `sym_check_deps`; `deps` answers the calls it makes. -/
def checkCall (cfg : Config) (deps : Sym → CheckState → Option Sym × CheckState) (s : Sym)
    (st : CheckState) : Option Sym × CheckState :=
  if st.done s then (none, st)
  else if st.check s then (some s, { st with warned := true })
  else
    let st := st.enter s
    let (sym2, st) := match checkOpt deps (cfg.revDep s) st with
      | (some s, st) => (some s, st)
      | (none, st) => checkList deps ((cfg.props s).flatMap (checkedExprs s)) st
    (sym2, st.setCheck s false)

theorem symCheckDeps_succ (cfg : Config) (n : ℕ) :
    symCheckDeps cfg (n + 1) = checkCall cfg (symCheckDeps cfg n) := rfl

section Call
variable {cfg : Config} {deps : Sym → CheckState → Option Sym × CheckState} {s : Sym}
  {st : CheckState}

theorem checkCall_done (h : st.done s = true) : checkCall cfg deps s st = (none, st) := if_pos h

theorem checkCall_found (hd : st.done s = false) (hc : st.check s = true) :
    checkCall cfg deps s st = (some s, { st with warned := true }) := by
  rw [checkCall, if_neg (by simp [hd]), if_pos hc]

theorem checkCall_enter (hd : st.done s = false) (hc : st.check s = false) :
    checkCall cfg deps s st =
      ((checkSyms deps (followed cfg s) (st.enter s)).1,
        (checkSyms deps (followed cfg s) (st.enter s)).2.setCheck s false) := by
  rw [checkCall, if_neg (by simp [hd]), if_neg (by simp [hc])]
  simp only [checkOpt_eq, followed, checkSyms_append]
  rcases checkSyms deps (optSyms (cfg.revDep s)) (st.enter s) with ⟨_ | r, st⟩
  · simp only [checkList_eq]
  · rfl

end Call

/-! ## What a call leaves as it was -/

/-- The symbols on the way and the symbols done with are the same, and a warning stays. -/
structure CheckState.Keeps (st st' : CheckState) : Prop where
  check : st'.check = st.check
  done : st'.done = st.done
  warned : st.warned = true → st'.warned = true

theorem CheckState.Keeps.refl (st : CheckState) : st.Keeps st := ⟨rfl, rfl, id⟩

theorem CheckState.Keeps.trans {st st' st'' : CheckState} (h : st.Keeps st') (h' : st'.Keeps st'') :
    st.Keeps st'' :=
  ⟨h'.check.trans h.check, h'.done.trans h.done, h'.warned ∘ h.warned⟩

theorem checkSyms_keeps {deps : Sym → CheckState → Option Sym × CheckState}
    (hdeps : ∀ (s : Sym) (st : CheckState), st.Keeps (deps s st).2) (ss : List Sym)
    (st : CheckState) : st.Keeps (checkSyms deps ss st).2 := by
  induction ss generalizing st with
  | nil => exact .refl st
  | cons s ss ih =>
    cases hr : (deps s st).1 with
    | none =>
      rw [checkSyms_cons_none deps hr]
      exact (hdeps s st).trans (ih _)
    | some r =>
      rw [checkSyms_cons_some deps hr]
      exact hdeps s st

theorem symCheckDeps_keeps (cfg : Config) (n : ℕ) (s : Sym) (st : CheckState) :
    st.Keeps (symCheckDeps cfg n s st).2 := by
  induction n generalizing s st with
  | zero => exact .refl st
  | succ n ih =>
    rw [symCheckDeps_succ]
    cases hd : st.done s with
    | true =>
      rw [checkCall_done hd]
      exact .refl st
    | false =>
      cases hc : st.check s with
      | true =>
        rw [checkCall_found hd hc]
        exact ⟨rfl, rfl, fun _ => rfl⟩
      | false =>
        rw [checkCall_enter hd hc]
        have h := checkSyms_keeps ih (followed cfg s) (st.enter s)
        refine ⟨?_, h.done, h.warned⟩
        rw [CheckState.setCheck, h.check]
        change Function.update (Function.update st.check s true) s false = st.check
        rw [Function.update_idem, ← hc, Function.update_eq_self]

/-- A call that finds something has printed a warning. -/
theorem checkSyms_found {deps : Sym → CheckState → Option Sym × CheckState}
    (hdeps : ∀ (s : Sym) (st : CheckState) (r : Sym), (deps s st).1 = some r →
      (deps s st).2.warned = true) (ss : List Sym) (st : CheckState) (r : Sym)
    (h : (checkSyms deps ss st).1 = some r) : (checkSyms deps ss st).2.warned = true := by
  induction ss generalizing st with
  | nil => cases h
  | cons s ss ih =>
    cases hr : (deps s st).1 with
    | none =>
      rw [checkSyms_cons_none deps hr] at h ⊢
      exact ih _ h
    | some r =>
      rw [checkSyms_cons_some deps hr]
      exact hdeps s st r hr

theorem symCheckDeps_found (cfg : Config) (n : ℕ) (s : Sym) (st : CheckState) (r : Sym)
    (h : (symCheckDeps cfg n s st).1 = some r) : (symCheckDeps cfg n s st).2.warned = true := by
  induction n generalizing s st r with
  | zero => cases h
  | succ n ih =>
    rw [symCheckDeps_succ] at h ⊢
    cases hd : st.done s with
    | true =>
      rw [checkCall_done hd] at h
      cases h
    | false =>
      cases hc : st.check s with
      | true => rw [checkCall_found hd hc]
      | false =>
        rw [checkCall_enter hd hc] at h ⊢
        exact checkSyms_found ih _ _ r h

/-! ## The depth of the search -/

section Depth
variable {cfg : Config} {table : List Sym}

/-- The symbols of the table that are not on the way. -/
def unchecked (table : List Sym) (st : CheckState) : ℕ := (table.filter fun s => !st.check s).length

theorem unchecked_enter {s : Sym} {st : CheckState} (hs : s ∈ table) (hc : st.check s = false) :
    unchecked table (st.enter s) < unchecked table st := by
  have hfilter : table.filter (fun x => !(st.enter s).check x) =
      (table.filter fun x => !st.check x).filter fun x => !decide (x = s) := by
    rw [List.filter_filter]
    apply List.filter_congr
    intro x hx
    by_cases hxs : x = s
    · simp [CheckState.enter, CheckState.setCheck, CheckState.setChecked, hxs]
    · simp [CheckState.enter, CheckState.setCheck, CheckState.setChecked, hxs]
  rw [unchecked, hfilter]
  exact List.length_filter_lt_length_iff_exists.mpr ⟨s, by simp [hs, hc], by simp⟩

/-- Answers of the calls that are only asked for on the way do not matter otherwise. -/
theorem checkSyms_congr {deps deps' : Sym → CheckState → Option Sym × CheckState}
    {ss : List Sym} {st : CheckState}
    (hdeps : ∀ s ∈ ss, ∀ st' : CheckState, st'.check = st.check → deps s st' = deps' s st')
    (hkeeps : ∀ (s : Sym) (st : CheckState), st.Keeps (deps' s st).2) :
    checkSyms deps ss st = checkSyms deps' ss st := by
  induction ss generalizing st with
  | nil => rfl
  | cons s ss ih =>
    have hs := hdeps s List.mem_cons_self st rfl
    cases hr : (deps' s st).1 with
    | none =>
      rw [checkSyms_cons_none deps (hs ▸ hr), checkSyms_cons_none deps' hr, hs]
      refine ih fun x hx st' hst' => ?_
      exact hdeps x (List.mem_cons_of_mem s hx) st' (hst'.trans (hkeeps s st).check)
    | some r => rw [checkSyms_cons_some deps (hs ▸ hr), checkSyms_cons_some deps' hr, hs]

/-- The search is never deeper than there are symbols off the way: what calls below that depth
would answer does not matter. -/
theorem checkCall_iterate (htable : ∀ a ∈ table, ∀ b ∈ followed cfg a, b ∈ table)
    (deps : Sym → CheckState → Option Sym × CheckState) {n : ℕ} {s : Sym} {st : CheckState}
    (hs : s ∈ table) (hn : unchecked table st < n) :
    (checkCall cfg)^[n] deps s st = symCheckDeps cfg n s st := by
  induction n generalizing s st with
  | zero => exact absurd hn (Nat.not_lt_zero _)
  | succ n ih =>
    rw [Function.iterate_succ_apply', symCheckDeps_succ]
    cases hd : st.done s with
    | true => rw [checkCall_done hd, checkCall_done hd]
    | false =>
      cases hc : st.check s with
      | true => rw [checkCall_found hd hc, checkCall_found hd hc]
      | false =>
        rw [checkCall_enter hd hc, checkCall_enter hd hc]
        have hlt := unchecked_enter hs hc
        rw [checkSyms_congr (fun x hx st' hst' => ih (htable s hs x hx) ?_)
          (symCheckDeps_keeps cfg n)]
        rw [unchecked, hst']
        change unchecked table (st.enter s) < n
        omega

end Depth

/-! ## What the search finds -/

section Search
variable {cfg : Config} {table : List Sym}

/-- A symbol of the table leads to a symbol that leads to itself. -/
def CycleReached (cfg : Config) (table : List Sym) : Prop :=
  ∃ r ∈ table, ∃ a, Relation.ReflTransGen (Follows cfg) r a ∧ Relation.TransGen (Follows cfg) a a

/-- If a call warns only of a cycle, so do calls one after the other. -/
theorem checkSyms_sound {deps : Sym → CheckState → Option Sym × CheckState}
    {P : Sym → (Sym → Bool) → Prop} {C : Prop}
    (hdeps : ∀ (s : Sym) (st : CheckState), P s st.check → (deps s st).2.warned = true →
      st.warned = true ∨ C)
    (hkeeps : ∀ (s : Sym) (st : CheckState), st.Keeps (deps s st).2)
    {ss : List Sym} {st : CheckState} (hss : ∀ s ∈ ss, P s st.check)
    (h : (checkSyms deps ss st).2.warned = true) : st.warned = true ∨ C := by
  induction ss generalizing st with
  | nil => exact .inl h
  | cons s ss ih =>
    cases hr : (deps s st).1 with
    | none =>
      rw [checkSyms_cons_none deps hr] at h
      have hrest : ∀ x ∈ ss, P x (deps s st).2.check := by
        intro x hx
        rw [(hkeeps s st).check]
        exact hss x (List.mem_cons_of_mem s hx)
      rcases ih hrest h with h | h
      · exact hdeps s st (hss s List.mem_cons_self) h
      · exact .inr h
    | some r =>
      rw [checkSyms_cons_some deps hr] at h
      exact hdeps s st (hss s List.mem_cons_self) h

/-- A symbol that the search comes to: a symbol of the table leads to it, and so do all symbols on
the way. -/
def OnWay (cfg : Config) (table : List Sym) (s : Sym) (check : Sym → Bool) : Prop :=
  (∃ r ∈ table, Relation.ReflTransGen (Follows cfg) r s) ∧
    ∀ c, check c = true → Relation.TransGen (Follows cfg) c s

theorem OnWay.enter {s x : Sym} {st : CheckState} (h : OnWay cfg table s st.check)
    (hx : Follows cfg s x) : OnWay cfg table x (st.enter s).check := by
  obtain ⟨⟨r, hr, hrs⟩, hway⟩ := h
  refine ⟨⟨r, hr, hrs.tail hx⟩, fun c hc => ?_⟩
  by_cases hcs : c = s
  · exact hcs ▸ .single hx
  · refine (hway c ?_).tail hx
    simpa [CheckState.enter, CheckState.setCheck, CheckState.setChecked, hcs] using hc

/-- A warning is printed only if a symbol is on a cycle. -/
theorem symCheckDeps_sound (n : ℕ) {s : Sym} {st : CheckState} (hs : OnWay cfg table s st.check)
    (h : (symCheckDeps cfg n s st).2.warned = true) :
    st.warned = true ∨ CycleReached cfg table := by
  induction n generalizing s st with
  | zero => exact .inl h
  | succ n ih =>
    rw [symCheckDeps_succ] at h
    cases hd : st.done s with
    | true =>
      rw [checkCall_done hd] at h
      exact .inl h
    | false =>
      cases hc : st.check s with
      | true =>
        obtain ⟨⟨r, hr, hrs⟩, hway⟩ := hs
        exact .inr ⟨r, hr, s, hrs, hway s hc⟩
      | false =>
        rw [checkCall_enter hd hc] at h
        have hcalls : ∀ (x : Sym) (st' : CheckState), OnWay cfg table x st'.check →
            (symCheckDeps cfg n x st').2.warned = true →
              st'.warned = true ∨ CycleReached cfg table := fun x st' hx => ih hx
        have hw : (st.enter s).warned = true ∨ CycleReached cfg table :=
          checkSyms_sound hcalls (symCheckDeps_keeps cfg n)
            (fun x hx => hs.enter (mem_followed.mp hx)) h
        exact hw

/-- Nothing leads from here to a cycle. -/
def Safe (cfg : Config) (s : Sym) : Prop := Acc (fun b a => Follows cfg a b) s

/-- What a call without a warning says of its symbol and of the symbols it has marked. -/
def Explored (cfg : Config) (s : Sym) (st st' : CheckState) : Prop :=
  Safe cfg s ∧ ∀ x, st'.checked x = true → st.checked x = true ∨ Safe cfg x

theorem checkSyms_complete {deps : Sym → CheckState → Option Sym × CheckState}
    {ss : List Sym} {st : CheckState}
    (hdeps : ∀ s ∈ ss, ∀ st' : CheckState, st'.check = st.check → st'.done = st.done →
      (deps s st').2.warned = false → Explored cfg s st' (deps s st').2)
    (hkeeps : ∀ (s : Sym) (st : CheckState), st.Keeps (deps s st).2)
    (hfound : ∀ (s : Sym) (st : CheckState) (r : Sym), (deps s st).1 = some r →
      (deps s st).2.warned = true)
    (h : (checkSyms deps ss st).2.warned = false) :
    (∀ s ∈ ss, Safe cfg s) ∧
      ∀ x, (checkSyms deps ss st).2.checked x = true → st.checked x = true ∨ Safe cfg x := by
  induction ss generalizing st with
  | nil => exact ⟨fun s hs => (List.not_mem_nil hs).elim, fun x hx => .inl hx⟩
  | cons s ss ih =>
    cases hr : (deps s st).1 with
    | none =>
      rw [checkSyms_cons_none deps hr] at h ⊢
      have hk := hkeeps s st
      have hquiet : (deps s st).2.warned = false := by
        by_contra hw
        rw [Bool.not_eq_false] at hw
        rw [(checkSyms_keeps hkeeps ss _).warned hw] at h
        cases h
      obtain ⟨hsafe, hmarked⟩ := hdeps s List.mem_cons_self st rfl rfl hquiet
      obtain ⟨hrest, hmarked'⟩ := ih (fun x hx st' hc hd =>
        hdeps x (List.mem_cons_of_mem s hx) st' (hc.trans hk.check) (hd.trans hk.done)) h
      refine ⟨List.forall_mem_cons.mpr ⟨hsafe, hrest⟩, fun x hx => ?_⟩
      rcases hmarked' x hx with hx | hx
      · exact hmarked x hx
      · exact .inr hx
    | some r =>
      rw [checkSyms_cons_some deps hr, hfound s st r hr] at h
      cases h

/-- A search without a warning has seen only symbols from which no cycle is reached. -/
theorem symCheckDeps_complete (htable : ∀ a ∈ table, ∀ b ∈ followed cfg a, b ∈ table) {n : ℕ}
    {s : Sym} {st : CheckState} (hs : s ∈ table) (hn : unchecked table st < n)
    (hdone : ∀ x, st.done x = true → Safe cfg x)
    (h : (symCheckDeps cfg n s st).2.warned = false) :
    Explored cfg s st (symCheckDeps cfg n s st).2 := by
  induction n generalizing s st with
  | zero => exact absurd hn (Nat.not_lt_zero _)
  | succ n ih =>
    rw [symCheckDeps_succ] at h ⊢
    cases hd : st.done s with
    | true =>
      rw [checkCall_done hd]
      exact ⟨hdone s hd, fun x hx => .inl hx⟩
    | false =>
      cases hc : st.check s with
      | true =>
        rw [checkCall_found hd hc] at h
        cases h
      | false =>
        rw [checkCall_enter hd hc] at h ⊢
        have hlt := unchecked_enter hs hc
        have hcalls : ∀ x ∈ followed cfg s, ∀ st' : CheckState,
            st'.check = (st.enter s).check → st'.done = (st.enter s).done →
              (symCheckDeps cfg n x st').2.warned = false →
                Explored cfg x st' (symCheckDeps cfg n x st').2 := by
          intro x hx st' hcheck hdone' hw
          refine ih (htable s hs x hx) ?_ ?_ hw
          · rw [unchecked, hcheck]
            change unchecked table (st.enter s) < n
            omega
          · rw [hdone']
            exact hdone
        obtain ⟨hsafe, hmarked⟩ := checkSyms_complete hcalls (symCheckDeps_keeps cfg n)
          (symCheckDeps_found cfg n) h
        have hs' : Safe cfg s := Acc.intro s fun x hx => hsafe x (mem_followed.mpr hx)
        refine ⟨hs', fun x hx => ?_⟩
        rcases hmarked x hx with hx | hx
        · by_cases hxs : x = s
          · exact .inr (hxs ▸ hs')
          · left
            simpa [CheckState.enter, CheckState.setChecked, CheckState.setCheck, hxs] using hx
        · exact .inr hx

end Search

/-! ## The loop of `conf_parse` -/

section Loop
variable {cfg : Config}

/-- One round of the loop of `conf_parse`, with the given `sym_check_deps`. -/
def confCheckWith (deps : Sym → CheckState → Option Sym × CheckState) (st : CheckState) (s : Sym) :
    CheckState :=
  if st.checked s then st.setDone s
  else match deps s st with
    | (some _, st) => st
    | (none, st) => st.setDone s

theorem confCheckSymbol_eq (cfg : Config) :
    confCheckSymbol cfg = confCheckWith (symCheckDeps cfg (cfg.symbols.length + 4)) := rfl

/-- Between two rounds nothing is on the way. A warning was right, and without one no cycle is
reached from what was seen. -/
structure Between (cfg : Config) (st : CheckState) : Prop where
  check : ∀ s, st.check s = false
  sound : st.warned = true → CycleReached cfg cfg.symbols
  complete : st.warned = false → ∀ s, st.checked s = true ∨ st.done s = true → Safe cfg s

theorem Between.start (cfg : Config) : Between cfg .start where
  check _ := rfl
  sound h := by cases h
  complete _ s h := by
    rcases h with h | h
    · cases h
    · cases h

theorem Between.setDone {st : CheckState} (h : Between cfg st) {s : Sym}
    (hs : st.warned = false → Safe cfg s) : Between cfg (st.setDone s) where
  check := h.check
  sound := h.sound
  complete hw x hx := by
    by_cases hxs : x = s
    · exact hxs ▸ hs hw
    · refine h.complete hw x ?_
      simpa [CheckState.setDone, hxs] using hx

theorem unchecked_le (table : List Sym) (st : CheckState) : unchecked table st ≤ table.length :=
  List.length_filter_le _ _

/-- The symbols that a search can come to: those of the table and the constants. -/
def reachable (cfg : Config) : List Sym := cfg.symbols ++ [.yes, .mod, .no]

theorem unchecked_reachable (cfg : Config) (st : CheckState) :
    unchecked (reachable cfg) st < cfg.symbols.length + 4 := by
  have h := unchecked_le (reachable cfg) st
  rw [reachable, List.length_append] at h
  exact Nat.lt_succ_of_le h

/-- A round forgets no symbol that is done and no warning. -/
theorem confCheckSymbol_grows (cfg : Config) (st : CheckState) (s : Sym) :
    (st.warned = true → (confCheckSymbol cfg st s).warned = true) ∧
      ∀ x, st.done x = true → (confCheckSymbol cfg st s).done x = true := by
  have hset : ∀ (st : CheckState) x, st.done x = true → (st.setDone s).done x = true := by
    intro st x hx
    by_cases hxs : x = s
    · simp [CheckState.setDone, hxs]
    · simpa [CheckState.setDone, hxs] using hx
  have hk := symCheckDeps_keeps cfg (cfg.symbols.length + 4) s st
  rw [confCheckSymbol_eq, confCheckWith]
  split_ifs
  · exact ⟨id, hset st⟩
  · rcases hr : symCheckDeps cfg (cfg.symbols.length + 4) s st with ⟨_ | r, st'⟩
    · rw [hr] at hk
      exact ⟨hk.warned, fun x hx => hset st' x (by rwa [hk.done])⟩
    · rw [hr] at hk
      exact ⟨hk.warned, fun x hx => by rwa [hk.done]⟩

theorem foldl_confCheckSymbol_grows (cfg : Config) (ss : List Sym) (st : CheckState) :
    (st.warned = true → (ss.foldl (confCheckSymbol cfg) st).warned = true) ∧
      ∀ x, st.done x = true → (ss.foldl (confCheckSymbol cfg) st).done x = true := by
  induction ss generalizing st with
  | nil => exact ⟨id, fun _ => id⟩
  | cons s ss ih =>
    obtain ⟨hw, hd⟩ := confCheckSymbol_grows cfg st s
    obtain ⟨hw', hd'⟩ := ih (confCheckSymbol cfg st s)
    exact ⟨hw' ∘ hw, fun x hx => hd' x (hd x hx)⟩

variable (htable : ∀ a ∈ reachable cfg, ∀ b ∈ followed cfg a, b ∈ reachable cfg)
include htable

/-- A search that starts between two rounds. -/
theorem Between.call {st : CheckState} (h : Between cfg st) {s : Sym} (hs : s ∈ cfg.symbols) :
    Between cfg (symCheckDeps cfg (cfg.symbols.length + 4) s st).2 ∧
      ((symCheckDeps cfg (cfg.symbols.length + 4) s st).2.warned = false → Safe cfg s) := by
  have hk := symCheckDeps_keeps cfg (cfg.symbols.length + 4) s st
  have hway : OnWay cfg cfg.symbols s st.check := by
    refine ⟨⟨s, hs, .refl⟩, fun c hc => ?_⟩
    rw [h.check c] at hc
    cases hc
  have hquiet (hw : (symCheckDeps cfg (cfg.symbols.length + 4) s st).2.warned = false) :
      st.warned = false := by
    by_contra hst
    rw [hk.warned (by simpa using hst)] at hw
    cases hw
  have hexplored (hw : (symCheckDeps cfg (cfg.symbols.length + 4) s st).2.warned = false) :=
    symCheckDeps_complete htable (List.mem_append_left _ hs) (unchecked_reachable cfg st)
      (fun x hx => h.complete (hquiet hw) x (.inr hx)) hw
  refine ⟨⟨fun x => ?_, fun hw => ?_, fun hw x hx => ?_⟩, fun hw => (hexplored hw).1⟩
  · rw [hk.check, h.check x]
  · rcases symCheckDeps_sound _ hway hw with hst | hc
    · exact h.sound hst
    · exact hc
  · rcases hx with hx | hx
    · rcases (hexplored hw).2 x hx with hx | hx
      · exact h.complete (hquiet hw) x (.inl hx)
      · exact hx
    · rw [hk.done] at hx
      exact h.complete (hquiet hw) x (.inr hx)

theorem Between.round {st : CheckState} (h : Between cfg st) {s : Sym} (hs : s ∈ cfg.symbols) :
    Between cfg (confCheckSymbol cfg st s) ∧
      ((confCheckSymbol cfg st s).warned = false → (confCheckSymbol cfg st s).done s = true) := by
  have hcall := h.call htable hs
  have hfound := symCheckDeps_found cfg (cfg.symbols.length + 4) s st
  rw [confCheckSymbol_eq, confCheckWith]
  split_ifs with hchecked
  · exact ⟨h.setDone fun hw => h.complete hw s (.inl hchecked), fun _ => by simp [CheckState.setDone]⟩
  · rcases hr : symCheckDeps cfg (cfg.symbols.length + 4) s st with ⟨_ | r, st'⟩
    · rw [hr] at hcall
      exact ⟨hcall.1.setDone hcall.2, fun _ => by simp [CheckState.setDone]⟩
    · rw [hr] at hcall hfound
      refine ⟨hcall.1, fun hw => ?_⟩
      rw [hfound r rfl] at hw
      cases hw

theorem Between.rounds {ss : List Sym} {st : CheckState} (h : Between cfg st)
    (hss : ∀ s ∈ ss, s ∈ cfg.symbols) :
    Between cfg (ss.foldl (confCheckSymbol cfg) st) ∧
      ((ss.foldl (confCheckSymbol cfg) st).warned = false →
        ∀ s ∈ ss, (ss.foldl (confCheckSymbol cfg) st).done s = true) := by
  induction ss generalizing st with
  | nil => exact ⟨h, fun _ s hs => (List.not_mem_nil hs).elim⟩
  | cons s ss ih =>
    obtain ⟨hs, hss⟩ := List.forall_mem_cons.mp hss
    obtain ⟨hround, hdone⟩ := h.round htable hs
    obtain ⟨hend, hall⟩ := ih hround hss
    obtain ⟨hwgrows, hdgrows⟩ := foldl_confCheckSymbol_grows cfg ss (confCheckSymbol cfg st s)
    refine ⟨hend, fun hw => List.forall_mem_cons.mpr ⟨hdgrows s (hdone ?_), hall hw⟩⟩
    by_contra hround
    rw [List.foldl_cons, hwgrows (by simpa using hround)] at hw
    cases hw

/-- The calls of `sym_check_deps` come to an end: what calls deeper than the number of symbols would
answer does not matter. -/
theorem foldl_confCheckWith (deps : Sym → CheckState → Option Sym × CheckState) {n : ℕ}
    (hn : cfg.symbols.length + 4 ≤ n) {ss : List Sym} (hss : ∀ s ∈ ss, s ∈ cfg.symbols)
    (st : CheckState) :
    ss.foldl (confCheckWith ((checkCall cfg)^[n] deps)) st = ss.foldl (confCheckSymbol cfg) st := by
  obtain ⟨k, rfl⟩ := Nat.exists_eq_add_of_le hn
  induction ss generalizing st with
  | nil => rfl
  | cons s ss ih =>
    obtain ⟨hs, hss⟩ := List.forall_mem_cons.mp hss
    have hcall : (checkCall cfg)^[cfg.symbols.length + 4 + k] deps s st =
        symCheckDeps cfg (cfg.symbols.length + 4) s st := by
      rw [Function.iterate_add_apply]
      exact checkCall_iterate htable _ (List.mem_append_left _ hs) (unchecked_reachable cfg st)
    rw [List.foldl_cons, List.foldl_cons, ih hss, confCheckSymbol_eq, confCheckWith, hcall]
    rfl

end Loop

/-- Nothing that is safe leads to a cycle. -/
theorem Safe.not_cycle {cfg : Config} {s a : Sym} (h : Safe cfg s)
    (hsa : Relation.ReflTransGen (Follows cfg) s a) : ¬Relation.TransGen (Follows cfg) a a := by
  have ha : Safe cfg a := by
    induction hsa with
    | refl => exact h
    | tail _ hbc ih => exact ih.inv hbc
  clear hsa
  induction ha with
  | intro a _ ih =>
    intro hcycle
    obtain ⟨b, hab, hba⟩ := Relation.TransGen.head'_iff.mp hcycle
    exact ih b hab (.tail' hba hab)

theorem ParsedTree.followed_reachable (t : ParsedTree) :
    ∀ a ∈ reachable t.config, ∀ b ∈ followed t.config a, b ∈ reachable t.config := by
  intro a _ b hb
  have hin : t.InTable b := by
    rcases mem_followed.mp hb with hrev | ⟨p, hp, -, -, hvis | ⟨-, -, e, he, hbe⟩⟩
    · exact t.linked.revDep a b hrev
    · exact (t.props_inTable hp).1 b hvis
    · refine (t.props_inTable hp).2 b ?_
      rw [he]
      exact hbe
  rcases hin with hstatic | hb
  · refine List.mem_append_right _ ?_
    cases b with
    | yes | mod | no => decide
    | config | const | choice => cases hstatic
  · exact List.mem_append_left _ hb

/-- The loop of `conf_parse` over `sym_check_deps` ends, and it warns exactly if a symbol of the
table leads to a cycle. -/
theorem confParse_warns_iff (t : ParsedTree) :
    (∀ deps n, t.config.symbols.length + 4 ≤ n →
      t.config.symbols.foldl (confCheckWith ((checkCall t.config)^[n] deps)) .start =
        t.config.symbols.foldl (confCheckSymbol t.config) .start) ∧
    (noRecursionWarning t.config = false ↔ CycleReached t.config t.config.symbols) := by
  have htable := t.followed_reachable
  refine ⟨fun deps n hn => foldl_confCheckWith htable deps hn (fun _ => id) _, ?_⟩
  obtain ⟨hend, hdone⟩ := (Between.start t.config).rounds htable
    fun s (hs : s ∈ t.config.symbols) => hs
  rw [noRecursionWarning, Bool.not_eq_false']
  constructor
  · exact hend.sound
  · rintro ⟨r, hr, a, hra, hcycle⟩
    by_contra hw
    rw [Bool.not_eq_true] at hw
    exact (hend.complete hw r (.inr (hdone hw r hr))).not_cycle hra hcycle

/-! ## A cycle that nothing leads to -/

/-- An option that selects `y` under a condition in which `y` occurs. -/
def selectYesTree : ParsedTree where
  block := .config ⟨['F'], by decide⟩ false [.type .tristate (some (['f'], none))]
    (.config nameA false
      [.type .boolean (some (['a'], none)),
        .select .yes (some (.equal (.lookup ['F'] false) .yes))] .nil)
  choices_nodup := by decide
  named := by decide

/-- The constant `y` is in no bucket of the table: the loop does not see that it follows itself. -/
theorem noRecursionWarning_selectYesTree :
    ¬ ∀ t : ParsedTree, noRecursionWarning t.config = false ↔
      ∃ a, Relation.TransGen (Follows t.config) a a := by
  intro h
  have hfollows : Follows selectYesTree.config .yes .yes := mem_followed.mp (by decide +kernel)
  have hquiet : noRecursionWarning selectYesTree.config = true := by decide +kernel
  rw [(h selectYesTree).mpr ⟨.yes, .single hfollows⟩] at hquiet
  cases hquiet

end Grasshopper.Kconfig
