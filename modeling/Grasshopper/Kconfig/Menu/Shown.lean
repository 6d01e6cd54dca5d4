import Grasshopper.Kconfig.Menu.Structure
import Grasshopper.Kconfig.Menu.Visible
import Grasshopper.Kconfig.Symbol.Recalc
import Grasshopper.Kconfig.Symbol.Steady

/-! # `menu_is_visible` answers the same again

Between two changes of the user values, evaluations mark more and more symbols. What
`menu_is_visible` said of an entry stays true, and asking once more evaluates nothing.
-/

namespace Grasshopper.Kconfig

section Later
variable (cfg : Config)

/-- No symbol is being computed. -/
abbrev State.AtRest (st : State) : Prop := Steady cfg ∅ ∅ st

/-- Symbols were evaluated, and none is being computed. -/
structure Later (st st' : State) : Prop where
  went : Went cfg ∅ ∅ st [] st'
  marked : Keeps {a | st.valid a = true} st st'

/-- What an entry mentions is in the symbol table, and its prompt is one of its symbol. -/
structure Entry.Fits (e : Entry) : Prop where
  sym : ∀ s, e.sym = some s → s ∈ cfg.symbols
  prompt : ∀ s p, e.sym = some s → e.prompt = some p → p ∈ cfg.prompts s
  syms : ∀ p, e.prompt = some p → ∀ x ∈ optSyms p.visible, x.isStatic = true ∨ x ∈ cfg.symbols

end Later

variable {cfg : Config} {st st' st'' : State} {s : Sym}

namespace Later

theorem refl (h : st.AtRest cfg) : Later cfg st st := ⟨h.went_nil, .refl st⟩

theorem trans (h : Later cfg st st') (h' : Later cfg st' st'') : Later cfg st st'' where
  went := h.went.trans h'.went
  marked := h.marked.trans
    { h'.marked with curr := fun a ha => h'.marked.curr a (h.marked.valid a ha) }

theorem atRest (h : Later cfg st st') : st'.AtRest cfg := h.went.steady

theorem valid (h : Later cfg st st') (hs : st.valid s = true) : st'.valid s = true :=
  h.marked.valid s hs

theorem curr (h : Later cfg st st') (hs : st.valid s = true) : st'.curr s = st.curr s :=
  h.marked.curr s hs

end Later

/-! ## Reading again -/

theorem exprCalcValue_again (e : Expr) (h : ∀ x ∈ e.syms, st.valid x = true) :
    exprCalcValue cfg (symCalcValue cfg) e st = (e.value cfg.type st.curr, st) := by
  induction e with
  | symbol s =>
    simp only [exprCalcValue, Expr.value]
    rw [symCalcValue_of_valid (h s (by simp [Expr.syms]))]
  | not e ih => simp only [exprCalcValue, Expr.value, ih h]
  | and l r ihl ihr | or l r ihl ihr =>
    simp only [exprCalcValue, Expr.value, ihl fun x hx => h x (List.mem_append_left _ hx),
      ihr fun x hx => h x (List.mem_append_right _ hx)]
  | equal a b | unequal a b =>
    simp only [exprCalcValue, Expr.value]
    rw [symCalcValue_of_valid (h a (by simp [Expr.syms])),
      symCalcValue_of_valid (h b (by simp [Expr.syms]))]

theorem optCalcValue_again (e : Option Expr) (h : ∀ x ∈ optSyms e, st.valid x = true) :
    optCalcValue cfg (symCalcValue cfg) e st = (optValue cfg.type st.curr e, st) := by
  cases e with
  | none => rfl
  | some e => exact exprCalcValue_again e h

section Evaluations
variable (ord : Orderly cfg)
include ord

omit ord in
theorem State.AtRest.able {xs : List Sym} (h : st.AtRest cfg)
    (hx : ∀ x ∈ xs, x.isStatic = true ∨ x ∈ cfg.symbols) :
    Able cfg ∅ ∅ cfg.symbols.length st xs where
  steady := h
  evaluable x hxs := (hx x hxs).imp (h.static x) fun hs => ⟨hs, fun _ hp => hp.elim⟩
  fuel := List.countP_le_length

theorem symCalcValue_later (h : st.AtRest cfg) (hs : s ∈ cfg.symbols) :
    Later cfg st (symCalcValue cfg s st) ∧ (symCalcValue cfg s st).valid s = true := by
  have hw := (symCalcValue_steadies ord).went ∅ ∅ st s (State.AtRest.able h (by simp [hs]))
  exact ⟨⟨hw.nil, symCalcValue_keeps s st⟩, hw.computed s (by simp)⟩

theorem optCalcValue_later (h : st.AtRest cfg) {e : Option Expr}
    (he : ∀ x ∈ optSyms e, x.isStatic = true ∨ x ∈ cfg.symbols) :
    Later cfg st (optCalcValue cfg (symCalcValue cfg) e st).2 ∧
      (∀ x ∈ optSyms e, (optCalcValue cfg (symCalcValue cfg) e st).2.valid x = true) ∧
      (optCalcValue cfg (symCalcValue cfg) e st).1 =
        optValue cfg.type (optCalcValue cfg (symCalcValue cfg) e st).2.curr e := by
  obtain ⟨hw, hv⟩ := optCalcValue_went (symCalcValue_steadies ord) e (State.AtRest.able h he)
  exact ⟨⟨hw.nil, optCalcValue_keeps symCalcValue_keepsMarked e fun _ hx => hx⟩, hw.computed, hv⟩

theorem firstActive_later (h : st.AtRest cfg) {ps : List Property}
    (hps : ∀ p ∈ ps, ∀ x ∈ optSyms p.visible, x.isStatic = true ∨ x ∈ cfg.symbols) :
    Later cfg st (firstActive cfg (symCalcValue cfg) ps st).2 := by
  induction ps generalizing st with
  | nil => exact .refl h
  | cons p ps ih =>
    rw [List.forall_mem_cons] at hps
    have hp := (optCalcValue_later ord h hps.1).1
    simp only [firstActive]
    split_ifs
    · exact hp
    · exact hp.trans (ih hp.atRest hps.2)

/-! ## Entries -/

theorem calcPromptTri_later (h : st.AtRest cfg) {e : Entry} {p : Property} (he : e.Fits cfg)
    (hp : e.prompt = some p) :
    Later cfg st (calcPromptTri cfg e p st).2 ∧
      (∀ s, e.sym = some s → (calcPromptTri cfg e p st).2.valid s = true) ∧
      ∀ st', Later cfg (calcPromptTri cfg e p st).2 st' →
        calcPromptTri cfg e p st' = ((calcPromptTri cfg e p st).1, st') := by
  unfold calcPromptTri
  cases hs : e.sym with
  | none =>
    obtain ⟨hl, hx, hv⟩ := optCalcValue_later ord h (he.syms p hp)
    refine ⟨hl, fun _ hs => (nomatch hs), fun st' hl' => ?_⟩
    dsimp only
    rw [optCalcValue_again _ fun x hxp => hl'.valid (hx x hxp), hv]
    exact congrArg (·, st') (optValue_congr _ fun x hxp => hl'.curr (hx x hxp))
  | some s =>
    obtain ⟨hl, hv⟩ := symCalcValue_later ord h (he.sym s hs)
    refine ⟨hl, fun s' hs' => ?_, fun st' hl' => ?_⟩
    · injection hs' with hs'
      exact hs' ▸ hv
    · dsimp only at hl' ⊢
      rw [symCalcValue_of_valid (hl'.valid hv)]
      congr 1
      by_cases hty : cfg.type s = .unknown
      · rw [hl'.went.untouched.prompt s hty]
      · have hprompt := he.prompt s p hs hp
        have hk := hl.atRest.known (.prompt s p) (.inr ⟨hprompt, hty, hv, Set.notMem_empty s⟩)
        have hk' := hl'.atRest.known (.prompt s p)
          (.inr ⟨hprompt, hty, hl'.valid hv, Set.notMem_empty s⟩)
        have hholds : _ = _ := hk.holds
        have hholds' : _ = _ := hk'.holds
        rw [hholds, hholds']
        exact conditionTri_congr fun x hx => hl'.curr (hk.closed x hx).1

/-- An answer that stays the same, whatever is evaluated after it. -/
structure Settles (cfg : Config) (f : State → Bool × State) (st : State) : Prop where
  later : Later cfg st (f st).2
  again : ∀ st', Later cfg (f st).2 st' → f st' = ((f st).1, st')

theorem entryIsVisible_settles (h : st.AtRest cfg) {e : Entry} (he : e.Fits cfg)
    {below : State → Bool × State} (hb : ∀ st, st.AtRest cfg → Settles cfg below st) :
    Settles cfg (entryIsVisible cfg e below) st := by
  unfold entryIsVisible
  cases hp : e.prompt with
  | none => exact ⟨.refl h, fun st' _ => rfl⟩
  | some p =>
    obtain ⟨hl, hvalid, hagain⟩ := calcPromptTri_later ord h he hp
    generalize hr : calcPromptTri cfg e p st = r at hl hvalid hagain
    obtain ⟨visible, st₁⟩ := r
    dsimp only at hl hvalid hagain ⊢
    by_cases hv : visible = .no
    · subst hv
      simp only [ne_eq]
      cases hs : e.sym with
      | none =>
        refine ⟨by simpa [hr] using hl, fun st' hl' => ?_⟩
        simp only [hr, not_true_eq_false, if_false] at hl' ⊢
        simp [hagain st' hl']
      | some s =>
        by_cases hc : (st₁.curr s).tri = .no
        · refine ⟨by simpa [hr, hc] using hl, fun st' hl' => ?_⟩
          simp only [hr, not_true_eq_false, if_false, hc, if_true] at hl' ⊢
          simp [hagain st' hl', hl'.curr (hvalid s hs), hc]
        · have hset := hb st₁ hl.atRest
          refine ⟨by simpa [hr, hc] using hl.trans hset.later, fun st' hl' => ?_⟩
          simp only [hr, not_true_eq_false, if_false, hc] at hl' ⊢
          have hl'' := hset.later.trans hl'
          simp [hagain st' hl'', hl''.curr (hvalid s hs), hc, hset.again st' hl']
    · refine ⟨by simpa [hr, hv] using hl, fun st' hl' => ?_⟩
      simp only [hr, ne_eq, hv, not_false_eq_true, if_true] at hl' ⊢
      simp [hagain st' hl', hv]

theorem anyIsVisible_settles {m : Menus} (hm : ∀ e ∈ m.preorder, e.Fits cfg)
    (h : st.AtRest cfg) : Settles cfg (anyIsVisible cfg m) st := by
  induction m generalizing st with
  | nil => exact ⟨.refl h, fun _ _ => rfl⟩
  | node e l n ihl ihn =>
    simp only [Menus.preorder_node, List.forall_mem_cons, List.forall_mem_append] at hm
    have he := entryIsVisible_settles ord h hm.1 fun st h => ihl hm.2.1 h
    obtain ⟨hl, hagain⟩ := he
    generalize hr : entryIsVisible cfg e (anyIsVisible cfg l) st = r at hl hagain
    obtain ⟨visible, st₁⟩ := r
    dsimp only at hl hagain
    cases visible with
    | true =>
      refine ⟨by simpa [anyIsVisible_node, hr] using hl, fun st' hl' => ?_⟩
      simp only [anyIsVisible_node, hr] at hl' ⊢
      simp [hagain st' hl']
    | false =>
      have hset := ihn hm.2.2 hl.atRest
      refine ⟨by simpa [anyIsVisible_node, hr] using hl.trans hset.later, fun st' hl' => ?_⟩
      simp only [anyIsVisible_node, hr] at hl' ⊢
      simp [hagain st' (hset.later.trans hl'), hset.again st' hl']

/-- An entry that is visible has evaluated its symbol. -/
theorem menuIsVisible_valid {e : Entry} {l n : Menus}
    (hm : ∀ x ∈ (Menus.node e l n).preorder, x.Fits cfg) (h : st.AtRest cfg) (hs : e.sym = some s)
    (hv : (menuIsVisible cfg (.node e l n) st).1 = true) :
    (menuIsVisible cfg (.node e l n) st).2.valid s = true := by
  simp only [Menus.preorder_node, List.forall_mem_cons, List.forall_mem_append] at hm
  change (entryIsVisible cfg e (anyIsVisible cfg l) st).1 = true at hv
  change (entryIsVisible cfg e (anyIsVisible cfg l) st).2.valid s = true
  unfold entryIsVisible at hv ⊢
  cases hp : e.prompt with
  | none => simp [hp] at hv
  | some p =>
    obtain ⟨hl, hvalid, -⟩ := calcPromptTri_later ord h hm.1 hp
    dsimp only
    split_ifs
    · exact hvalid s hs
    · simp only [hs]
      split_ifs
      · exact hvalid s hs
      · exact (anyIsVisible_settles ord hm.2.1 hl.atRest).later.valid (hvalid s hs)

/-- `menu_is_visible` evaluates symbols, and answers the same again. -/
theorem menuIsVisible_settles {m : Menus} (hm : ∀ e ∈ m.preorder, e.Fits cfg)
    (h : st.AtRest cfg) : Settles cfg (menuIsVisible cfg m) st := by
  cases m with
  | nil => exact ⟨.refl h, fun _ _ => rfl⟩
  | node e l n =>
    simp only [Menus.preorder_node, List.forall_mem_cons, List.forall_mem_append] at hm
    exact entryIsVisible_settles ord h hm.1 fun st h => anyIsVisible_settles ord hm.2.1 h

end Evaluations

end Grasshopper.Kconfig
