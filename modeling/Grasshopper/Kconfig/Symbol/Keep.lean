import Grasshopper.Kconfig.Symbol.Calc

/-! # What `sym_calc_value` keeps in every tree

A symbol that is marked `SYMBOL_VALID` stays so and keeps its value, whatever is evaluated next, and
the evaluation changes nothing that the user has set. This needs no tree without cycles.
-/

namespace Grasshopper.Kconfig

/-- Marks stay, the symbols of `A` keep their values, and so does what the user has set. -/
structure Keeps (A : Set Sym) (st st' : State) : Prop where
  valid : ∀ s, st.valid s = true → st'.valid s = true
  curr : ∀ s ∈ A, st'.curr s = st.curr s
  user : st'.user = st.user
  isNew : st'.isNew = st.isNew
  changeCount : st'.changeCount = st.changeCount

/-- The symbols of `A` are marked. -/
def State.Marks (st : State) (A : Set Sym) : Prop := ∀ s ∈ A, st.valid s = true

variable {A : Set Sym} {st st' st'' : State}

namespace Keeps

@[refl] theorem refl (st : State) : Keeps A st st := ⟨fun _ h => h, fun _ _ => rfl, rfl, rfl, rfl⟩

@[trans] theorem trans (h : Keeps A st st') (h' : Keeps A st' st'') : Keeps A st st'' where
  valid s hs := h'.valid s (h.valid s hs)
  curr s hs := (h'.curr s hs).trans (h.curr s hs)
  user := h'.user.trans h.user
  isNew := h'.isNew.trans h.isNew
  changeCount := h'.changeCount.trans h.changeCount

theorem marks (h : Keeps A st st') (hA : st.Marks A) : st'.Marks A := fun s hs =>
  h.valid s (hA s hs)

/-- A change of other fields. -/
theorem of_eq (hv : st'.valid = st.valid) (hc : st'.curr = st.curr) (hu : st'.user = st.user)
    (hn : st'.isNew = st.isNew) (ht : st'.changeCount = st.changeCount) : Keeps A st st' where
  valid s hs := by rwa [hv]
  curr s _ := by rw [hc]
  user := hu
  isNew := hn
  changeCount := ht

theorem setVisible (s : Sym) (t : Tristate) : Keeps A st (st.setVisible s t) :=
  of_eq rfl rfl rfl rfl rfl
theorem setRevTri (s : Sym) (t : Tristate) : Keeps A st (st.setRevTri s t) :=
  of_eq rfl rfl rfl rfl rfl
theorem setPromptTri (s : Sym) (p : Property) (t : Tristate) :
    Keeps A st (st.setPromptTri s p t) := of_eq rfl rfl rfl rfl rfl
theorem setWrite (s : Sym) (b : Bool) : Keeps A st (st.setWrite s b) :=
  of_eq rfl rfl rfl rfl rfl
theorem setModules (s : Sym) : Keeps A st (setModules s st) := by
  unfold Kconfig.setModules
  split_ifs <;> exact of_eq rfl rfl rfl rfl rfl
theorem writeMembers (cfg : Config) (s : Sym) : Keeps A st (writeMembers cfg s st) := by
  unfold Kconfig.writeMembers
  split_ifs <;> exact of_eq rfl rfl rfl rfl rfl

theorem setCurr {s : Sym} (hs : s ∉ A) (v : SymbolValue) : Keeps A st (st.setCurr s v) where
  valid _ h := h
  curr _ ha := Function.update_of_ne (ne_of_mem_of_not_mem ha hs) _ _
  user := rfl
  isNew := rfl
  changeCount := rfl

theorem setValid (s : Sym) : Keeps A st (st.setValid s) where
  valid a ha := by
    by_cases h : a = s
    · subst h; exact Function.update_self ..
    · exact (Function.update_of_ne h _ _).trans ha
  curr _ _ := rfl
  user := rfl
  isNew := rfl
  changeCount := rfl

end Keeps

/-! ## The evaluator -/

section Evaluator
variable {cfg : Config} {eval : Sym → State → State}

/-- What is asked of the nested calls. -/
def KeepsMarked (A : Set Sym) (eval : Sym → State → State) : Prop :=
  ∀ s st, st.Marks A → Keeps A st (eval s st)

variable (call : KeepsMarked A eval)
include call

theorem exprCalcValue_keeps (e : Expr) (hA : st.Marks A) :
    Keeps A st (exprCalcValue cfg eval e st).2 := by
  induction e generalizing st with
  | symbol s => exact call s st hA
  | not e ih => exact ih hA
  | and l r ihl ihr | or l r ihl ihr => exact (ihl hA).trans (ihr ((ihl hA).marks hA))
  | equal a b | unequal a b =>
    have ha := call a st hA
    exact ha.trans (call b _ (ha.marks hA))

theorem optCalcValue_keeps (e : Option Expr) (hA : st.Marks A) :
    Keeps A st (optCalcValue cfg eval e st).2 := by
  cases e with
  | none => exact .refl st
  | some e => exact exprCalcValue_keeps call e hA

theorem calcPrompts_keeps (s : Sym) (ps : List Property) (tri : Tristate) (hA : st.Marks A) :
    Keeps A st (calcPrompts cfg eval s ps tri st).2 := by
  induction ps generalizing tri st with
  | nil => exact .refl st
  | cons p ps ih =>
    have hp : Keeps A st (optCalcValue cfg eval p.visible st).2 :=
      optCalcValue_keeps call p.visible hA
    exact (hp.trans (.setPromptTri s p _)).trans (ih _ (hp.marks hA))

theorem calcRevDep_keeps (s : Sym) (hA : st.Marks A) :
    Keeps A st (calcRevDep cfg eval s st) := by
  unfold calcRevDep
  cases cfg.revDep s with
  | none => exact .setRevTri s _
  | some e => exact (exprCalcValue_keeps call e hA).trans (.setRevTri s _)

theorem symCalcVisibility_keeps (s : Sym) (hA : st.Marks A) :
    Keeps A st (symCalcVisibility cfg eval s st) := by
  have hp : Keeps A st (calcPrompts cfg eval s (cfg.prompts s) .no st).2 :=
    calcPrompts_keeps call s _ _ hA
  have hv (t : Tristate) :
      Keeps A st ((calcPrompts cfg eval s (cfg.prompts s) .no st).2.setVisible s t) :=
    hp.trans (.setVisible s t)
  unfold symCalcVisibility
  simp only
  by_cases hc : cfg.isChoiceValue s
  · rw [if_pos hc]
    exact hv _
  · rw [if_neg hc]
    exact (hv _).trans (calcRevDep_keeps call s ((hv _).marks hA))

theorem firstActive_keeps (ps : List Property) (hA : st.Marks A) :
    Keeps A st (firstActive cfg eval ps st).2 := by
  induction ps generalizing st with
  | nil => exact .refl st
  | cons p ps ih =>
    have hp : Keeps A st (optCalcValue cfg eval p.visible st).2 :=
      optCalcValue_keeps call p.visible hA
    simp only [firstActive]
    split_ifs
    · exact hp
    · exact hp.trans (ih (hp.marks hA))

theorem firstVisible_keeps (ms : List Sym) (hA : st.Marks A) :
    Keeps A st (firstVisible cfg eval ms st).2 := by
  induction ms generalizing st with
  | nil => exact .refl st
  | cons m ms ih =>
    have hm : Keeps A st (symCalcVisibility cfg eval m st) := symCalcVisibility_keeps call m hA
    simp only [firstVisible]
    split_ifs
    · exact hm
    · exact hm.trans (ih (hm.marks hA))

theorem firstVisibleDefault_keeps (ps : List Property) (hA : st.Marks A) :
    Keeps A st (firstVisibleDefault cfg eval ps st).2 := by
  induction ps generalizing st with
  | nil => exact .refl st
  | cons p ps ih =>
    have hp : Keeps A st (optCalcValue cfg eval p.visible st).2 :=
      optCalcValue_keeps call p.visible hA
    simp only [firstVisibleDefault]
    split_ifs
    · exact hp.trans (ih (hp.marks hA))
    · cases p.getSymbol with
      | none => exact hp.trans (ih (hp.marks hA))
      | some m =>
        have hm : Keeps A st
            (symCalcVisibility cfg eval m (optCalcValue cfg eval p.visible st).2) :=
          hp.trans (symCalcVisibility_keeps call m (hp.marks hA))
        simp only
        split_ifs
        · exact hm
        · exact hm.trans (ih (hm.marks hA))

theorem symCalcChoice_keeps (s : Sym) (hA : st.Marks A) :
    Keeps A st (symCalcChoice cfg eval s st).2 := by
  have hu : Keeps A st (firstVisible cfg eval (userChoice (st.user s).val) st).2 :=
    firstVisible_keeps call _ hA
  unfold symCalcChoice
  cases hr : firstVisible cfg eval (userChoice (st.user s).val) st with
  | mk m st1 =>
    rw [hr] at hu
    cases m with
    | some m => exact hu
    | none =>
      have hd : Keeps A st1 (firstVisibleDefault cfg eval (cfg.defaults s) st1).2 :=
        firstVisibleDefault_keeps call _ (hu.marks hA)
      simp only
      cases hr' : firstVisibleDefault cfg eval (cfg.defaults s) st1 with
      | mk m st2 =>
        rw [hr'] at hd
        cases m with
        | some m => exact hu.trans hd
        | none =>
          have hm := hu.trans hd
          exact hm.trans (firstVisible_keeps call _ (hm.marks hA))

theorem defaultTri_keeps (p : Property) (hA : st.Marks A) :
    Keeps A st (defaultTri cfg eval p st).2 := by
  unfold defaultTri
  cases p.expr with
  | expr e => exact exprCalcValue_keeps call e hA
  | _ => exact .refl st

theorem calcOwn_keeps (s : Sym) (hA : st.Marks A) : Keeps A st (calcOwn cfg eval s st).2 := by
  have hd : Keeps A st (symGetDefaultProp cfg eval s st).2 := firstActive_keeps call _ hA
  unfold calcOwn
  split_ifs
  · exact .refl st
  · exact .refl st
  · cases hr : symGetDefaultProp cfg eval s st with
    | mk p st1 =>
      rw [hr] at hd
      cases p with
      | none => exact hd
      | some p => exact hd.trans (defaultTri_keeps call p (hd.marks hA))

theorem calcLogic_keeps (s : Sym) (hA : st.Marks A) :
    Keeps A st (calcLogic cfg eval s st).2 := by
  have hd : Keeps A st (symGetDefaultProp cfg eval s st).2 := firstActive_keeps call _ hA
  unfold calcLogic
  split_ifs
  · exact .refl st
  · exact .refl st
  · exact Keeps.trans (.setWrite s true) (calcOwn_keeps call s hA)
  · exact .refl st
  · cases hr : symGetDefaultProp cfg eval s st with
    | mk p st1 =>
      rw [hr] at hd
      cases p with
      | none => exact hd
      | some p =>
        have hw : Keeps A st1 (st1.setWrite s true) := .setWrite s true
        exact (hd.trans hw).trans (defaultTri_keeps call p ((hd.trans hw).marks hA))

theorem calcText_keeps (s : Sym) (hA : st.Marks A) : Keeps A st (calcText cfg eval s st).2 := by
  have h1 : Keeps A st (if st.visible s ≠ .no then st.setWrite s true else st) := by
    split_ifs
    · exact .setWrite s true
    · exact .refl st
  unfold calcText
  dsimp only
  generalize (if st.visible s ≠ .no then st.setWrite s true else st) = st1 at h1 ⊢
  split_ifs
  · exact h1
  have hd : Keeps A st1 (symGetDefaultProp cfg eval s st1).2 :=
    firstActive_keeps call _ (h1.marks hA)
  cases hr : symGetDefaultProp cfg eval s st1 with
  | mk p st2 =>
    rw [hr] at hd
    cases p with
    | none => exact h1.trans hd
    | some p =>
      simp only
      cases p.getSymbol with
      | none => exact h1.trans hd
      | some ds =>
        have hw : Keeps A st2 (st2.setWrite s true) := .setWrite s true
        have h2 := (h1.trans hd).trans hw
        exact h2.trans (call ds _ (h2.marks hA))

variable {s : Sym} (hs : s ∉ A)
include hs

theorem selectMember_keeps (hA : st.Marks A) : Keeps A st (selectMember cfg eval s st) := by
  have hc : Keeps A st (symCalcChoice cfg eval s st).2 := symCalcChoice_keeps call s hA
  unfold selectMember
  split_ifs
  · cases hr : symCalcChoice cfg eval s st with
    | mk m st1 =>
      rw [hr] at hc
      cases m with
      | none => exact hc.trans (.setCurr hs _)
      | some m => exact hc.trans (.setCurr hs _)
  · exact .refl st

theorem calcCurr_keeps (hA : st.Marks A) : Keeps A st (calcCurr cfg eval s st) := by
  unfold calcCurr
  split_ifs
  · have h0 : Keeps A st (st.setCurr s .no) := .setCurr hs .no
    have h1 : Keeps A st (calcLogic cfg eval s (st.setCurr s .no)).2 :=
      h0.trans (calcLogic_keeps call s (h0.marks hA))
    have h2 (v : SymbolValue) := h1.trans (.setCurr hs v)
    exact (h2 _).trans (selectMember_keeps call hs ((h2 _).marks hA))
  · have h0 : Keeps A st (st.setCurr s .empty) := .setCurr hs .empty
    have h1 : Keeps A st (calcText cfg eval s (st.setCurr s .empty)).2 :=
      h0.trans (calcText_keeps call s (h0.marks hA))
    exact h1.trans (.setCurr hs _)

/-- A symbol is marked first, and everything after that keeps the marks. -/
theorem calcInvalid_keeps (hA : st.Marks A) :
    Keeps A (st.setValid s) (calcInvalid cfg eval s st) := by
  have h0 : (st.setValid s).Marks A := (Keeps.setValid s).marks hA
  have tail : ∀ st1, Keeps A (st.setValid s) st1 →
      Keeps A (st.setValid s) (writeMembers cfg s
        (setModules s (calcCurr cfg eval s (symCalcVisibility cfg eval s st1)))) := by
    intro st1 h1
    have h2 : Keeps A (st.setValid s) (symCalcVisibility cfg eval s st1) :=
      h1.trans (symCalcVisibility_keeps call s (h1.marks h0))
    have h3 : Keeps A (st.setValid s) (calcCurr cfg eval s (symCalcVisibility cfg eval s st1)) :=
      h2.trans (calcCurr_keeps call hs (h2.marks h0))
    exact (h3.trans (.setModules s)).trans (.writeMembers cfg s)
  unfold calcInvalid
  simp only
  by_cases hu : cfg.type s = .unknown
  · rw [if_pos hu]
    exact .setCurr hs _
  · rw [if_neg hu]
    apply tail
    split_ifs
    · exact .refl _
    · exact .setWrite s false

end Evaluator

section Calc
variable {cfg : Config}

theorem symCalcValueAux_keepsMarked (n : ℕ) : KeepsMarked A (symCalcValueAux cfg n) := by
  induction n with
  | zero => exact fun s st _ => .refl st
  | succ n ih =>
    intro s st hA
    rw [symCalcValueAux]
    split_ifs with hv
    · exact .refl st
    · exact (Keeps.setValid s).trans (calcInvalid_keeps ih (fun hs => hv (hA s hs)) hA)

theorem symCalcValue_keepsMarked : KeepsMarked A (symCalcValue cfg) := fun s st hA =>
  symCalcValueAux_keepsMarked cfg.symbols.length s st hA

/-- `sym_calc_value` changes no symbol that is marked. -/
theorem symCalcValue_keeps (s : Sym) (st : State) :
    Keeps {a | st.valid a = true} st (symCalcValue cfg s st) :=
  symCalcValue_keepsMarked s st fun _ h => h

theorem symCalcValue_of_valid {s : Sym} (h : st.valid s = true) : symCalcValue cfg s st = st := by
  unfold symCalcValue
  cases cfg.symbols.length with
  | zero => rfl
  | succ n => rw [symCalcValueAux, if_pos h]

/-- Once `sym_calc_value` returns, the symbol is marked. -/
theorem valid_symCalcValue (hc : cfg.symbols ≠ []) (s : Sym) (st : State) :
    (symCalcValue cfg s st).valid s = true := by
  unfold symCalcValue
  obtain ⟨n, hn⟩ := Nat.exists_eq_succ_of_ne_zero (mt List.length_eq_zero_iff.mp hc)
  rw [hn, symCalcValueAux]
  split_ifs with hv
  · exact hv
  · have hk : Keeps ∅ (st.setValid s) (calcInvalid cfg (symCalcValueAux cfg n) s st) :=
      calcInvalid_keeps (symCalcValueAux_keepsMarked n) (Set.notMem_empty s) fun _ h => h.elim
    exact hk.valid s (Function.update_self ..)

/-! ## Values that were read -/

/-- What an expression was worth is what the marked symbols say it is. -/
theorem exprCalcValue_marked (hc : cfg.symbols ≠ []) (e : Expr) (st : State) :
    (exprCalcValue cfg (symCalcValue cfg) e st).2.Marks {s | s ∈ e.syms} ∧
      (exprCalcValue cfg (symCalcValue cfg) e st).1 =
        e.value cfg.type (exprCalcValue cfg (symCalcValue cfg) e st).2.curr := by
  induction e generalizing st with
  | symbol s =>
    refine ⟨fun a ha => ?_, rfl⟩
    obtain rfl : a = s := by simpa [Expr.syms] using ha
    exact valid_symCalcValue hc a st
  | not e ih =>
    obtain ⟨hm, hv⟩ := ih st
    exact ⟨hm, by simp only [exprCalcValue, Expr.value, hv]⟩
  | and l r ihl ihr | or l r ihl ihr =>
    obtain ⟨hml, hvl⟩ := ihl st
    obtain ⟨hmr, hvr⟩ := ihr (exprCalcValue cfg (symCalcValue cfg) l st).2
    have call : KeepsMarked {s | s ∈ l.syms} (symCalcValue cfg) := symCalcValue_keepsMarked
    have hk : Keeps {s | s ∈ l.syms} (exprCalcValue cfg (symCalcValue cfg) l st).2
        (exprCalcValue cfg (symCalcValue cfg) r (exprCalcValue cfg (symCalcValue cfg) l st).2).2 :=
      exprCalcValue_keeps call r hml
    constructor
    · intro a ha
      rcases List.mem_append.mp ha with ha | ha
      · exact hk.valid a (hml a ha)
      · exact hmr a ha
    · simp only [exprCalcValue, Expr.value]
      rw [hvr, hvl, Expr.value_congr l fun a ha => (hk.curr a ha).symm]
  | equal a b | unequal a b =>
    refine ⟨fun x hx => ?_, rfl⟩
    have hx : x = a ∨ x = b := by simpa [Expr.syms] using hx
    rcases hx with rfl | rfl
    · exact (symCalcValue_keeps b _).valid x (valid_symCalcValue hc x st)
    · exact valid_symCalcValue hc x _

theorem optCalcValue_marked (hc : cfg.symbols ≠ []) (e : Option Expr) (st : State) :
    (optCalcValue cfg (symCalcValue cfg) e st).2.Marks {s | s ∈ optSyms e} ∧
      (optCalcValue cfg (symCalcValue cfg) e st).1 =
        optValue cfg.type (optCalcValue cfg (symCalcValue cfg) e st).2.curr e := by
  cases e with
  | none => exact ⟨fun _ h => (List.not_mem_nil h).elim, rfl⟩
  | some e => exact exprCalcValue_marked hc e st

end Calc

end Grasshopper.Kconfig
