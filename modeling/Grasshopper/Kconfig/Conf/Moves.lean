import Grasshopper.Kconfig.Conf.Walk
import Grasshopper.Kconfig.Confdata.Rest

/-! # What the walks do to the symbols

However it goes, a walk only evaluates symbols and calls the setters.
-/

namespace Grasshopper.Kconfig.Conf

open Program

section Moves
variable (cfg : Config)

/-- The calls that work on the symbols. -/
inductive Move : State → State → Prop
  | visible {m : Menus} (hm : ∀ e ∈ m.preorder, e.Fits cfg) (st : State) :
      Move st (menuIsVisible cfg m st).2
  | calcValue {s : Sym} (hs : s ∈ cfg.symbols) (st : State) : Move st (symCalcValue cfg s st)
  | setTristate (s : Sym) (val : Tristate) (st : State) : Move st (symSetTristateValue cfg s val st).2
  | setString (s : Sym) (value : Text) (st : State) : Move st (symSetStringValue cfg s value st).2

/-- What is true between two moments of a walk. -/
structure Goes (w w' : World) : Prop where
  moves : Relation.ReflTransGen (Move cfg) w.st w'.st
  count : w.confCnt ≤ w'.confCnt
  mode : w'.inputMode = w.inputMode

instance : IsPreorder World (Goes cfg) where
  refl _ := ⟨.refl, le_rfl, rfl⟩
  trans _ _ _ h h' := ⟨h.moves.trans h'.moves, h.count.trans h'.count, h'.mode.trans h.mode⟩

end Moves

variable {cfg : Config} {α : Type}

theorem onState_leads {f : State → α × State}
    (h : ∀ st, Relation.ReflTransGen (Move cfg) st (f st).2) : Leads (Goes cfg) (onState f) :=
  .step fun w => ⟨h w.st, le_rfl, rfl⟩

theorem onState_move {f : State → α × State} (h : ∀ st, Move cfg st (f st).2) :
    Leads (Goes cfg) (onState f) := onState_leads fun st => .single (h st)

theorem when_leads {c : Prop} [Decidable c] {p : Walk Unit} (h : Leads (Goes cfg) p) :
    Leads (Goes cfg) (when c p) := by
  unfold when
  split_ifs
  · exact h
  · exact .pure ()

/-! ## Answers -/

theorem getLine_leads (line : Text) : Leads (Goes cfg) (getLine line) := .step fun w => by
  cases w.stdin with
  | nil => exact refl_of (Goes cfg) w
  | cons c text => exact ⟨.refl, le_rfl, rfl⟩

theorem draw_leads : Leads (Goes cfg) draw := .step fun _ => ⟨.refl, le_rfl, rfl⟩

theorem checkStdin_leads : Leads (Goes cfg) checkStdin :=
  .bind .getState fun _ => when_leads .exit

theorem randomTri_leads (s : Sym) : Leads (Goes cfg) (randomTri cfg s) :=
  .loop (.bind draw_leads fun _ => .bind .getState fun _ => .pure _)

theorem confAskvalue_leads (s : Sym) : Leads (Goes cfg) (confAskvalue cfg s) := by
  refine .bind .getState fun w => ?_
  by_cases hc : symIsChangable s w.st = false
  · rw [if_pos hc]
    exact .pure _
  · rw [if_neg hc]
    have silent : Leads (Goes cfg) (if w.st.isNew s = false then pure ['\n'] else do
        checkStdin
        getLine ['\n']) := by
      split_ifs
      · exact .pure _
      · exact .bind checkStdin_leads fun _ => getLine_leads _
    split
    · exact silent
    · exact silent
    · exact getLine_leads _
    · exact .pure _
    · split_ifs
      · exact .pure _
      · split
        · exact .pure _
        · exact .bind (randomTri_leads s) fun _ => .pure _

/-! ## Questions -/

theorem confString_leads (s : Sym) : Leads (Goes cfg) (confString cfg s) := by
  refine .bind .getState fun w => .bind (.report _) fun _ => .loop ?_
  refine .bind .getState fun w => .bind (confAskvalue_leads s) fun line => ?_
  split
  · exact .pure _
  · exact .bind (onState_move fun st => .setString s _ st) fun _ => .pure _

theorem confSym_leads (s : Sym) : Leads (Goes cfg) (confSym cfg s) := by
  refine .bind .getState fun w => .bind (.report _) fun _ => .loop ?_
  refine .bind .getState fun w => .bind (confAskvalue_leads s) fun line => ?_
  split
  · exact .pure _
  · exact .bind (onState_move fun st => .setTristate s _ st) fun _ => .pure _

theorem confOption_leads (s : Sym) : Leads (Goes cfg) (confOption cfg s) := by
  unfold confOption
  split_ifs
  · exact confString_leads s
  · exact confSym_leads s

theorem countChilds_moves (defSym : Val) {m : Menus} (hm : ∀ e ∈ m.preorder, e.Fits cfg)
    (cnt dflt : ℕ) (st : State) :
    Relation.ReflTransGen (Move cfg) st (countChilds cfg defSym m cnt dflt st).2 := by
  induction m generalizing cnt dflt st with
  | nil => exact .refl
  | node e l n _ ihn =>
    have hv := Move.visible hm st
    simp only [Menus.preorder_node, List.forall_mem_cons, List.forall_mem_append] at hm
    unfold countChilds
    rcases hr : menuIsVisible cfg (.node e l n) st with ⟨visible, st₁⟩
    rw [hr] at hv
    cases visible with
    | false => exact .head hv (ihn hm.2.2 _ _ _)
    | true => cases e.sym <;> exact .head hv (ihn hm.2.2 _ _ _)

theorem findChild_moves {m : Menus} (hm : ∀ e ∈ m.preorder, e.Fits cfg) (pos : ℕ) (cnt : ℤ)
    (st : State) : Relation.ReflTransGen (Move cfg) st (findChild cfg m pos cnt st).2 := by
  induction m generalizing pos cnt st with
  | nil => exact .refl
  | node e l n _ ihn =>
    have hv := Move.visible hm st
    simp only [Menus.preorder_node, List.forall_mem_cons, List.forall_mem_append] at hm
    unfold findChild
    cases e.sym with
    | none => exact ihn hm.2.2 _ _ _
    | some s =>
      rcases hr : menuIsVisible cfg (.node e l n) st with ⟨visible, st₁⟩
      rw [hr] at hv
      cases visible with
      | false => exact .head hv (ihn hm.2.2 _ _ _)
      | true =>
        dsimp only
        split_ifs
        · exact .single hv
        · exact .head hv (ihn hm.2.2 _ _ _)

theorem typedChoice_leads (dflt : ℕ) : Leads (Goes cfg) (typedChoice dflt) :=
  .bind (getLine_leads _) fun _ => .pure _

theorem choiceAnswer_leads (isNew : Bool) (cnt dflt : ℕ) :
    Leads (Goes cfg) (choiceAnswer isNew cnt dflt) := by
  refine .bind .getState fun w => ?_
  have silent : Leads (Goes cfg) (if isNew = false then pure (some ((dflt : ℤ), ['0'])) else do
      checkStdin
      typedChoice dflt) := by
    split_ifs
    · exact .pure _
    · exact .bind checkStdin_leads fun _ => typedChoice_leads dflt
  split
  · exact silent
  · exact silent
  · exact typedChoice_leads dflt
  · split_ifs
    · exact .exit
    · exact .bind draw_leads fun _ => .pure _
  · exact .pure _

section Choice
variable {list : Menus} {below : List (Walk Unit)} (hlist : ∀ e ∈ list.preorder, e.Fits cfg)
  (hbelow : ∀ c ∈ below, Leads (Goes cfg) c)
include hlist hbelow

theorem chooseChild_leads (cnt : ℤ) (line : Text) :
    Leads (Goes cfg) (chooseChild cfg list below cnt line) := by
  refine .bind (onState_leads fun st => findChild_moves hlist 0 cnt st) fun r => ?_
  split
  · exact .pure _
  · split_ifs
    · exact .pure _
    · refine .bind (onState_move fun st => .setTristate _ _ st) fun _ => .bind ?_ fun _ => .pure _
      rename_i pos child _ _
      rw [List.getD_eq_getElem?_getD]
      cases hb : below[pos]? with
      | none => exact .pure _
      | some c => exact hbelow c (List.mem_of_getElem? hb)

theorem choiceLoop_leads (s : Sym) (isNew : Bool) :
    Leads (Goes cfg) (choiceLoop cfg s isNew list below) := by
  refine .loop (.bind .getState fun w => ?_)
  refine .bind (onState_leads fun st => countChilds_moves _ hlist 0 0 st) fun r => ?_
  split
  split_ifs
  · exact chooseChild_leads hlist hbelow _ _
  · refine .bind (choiceAnswer_leads _ _ _) fun r => ?_
    split
    · exact .pure _
    · exact chooseChild_leads hlist hbelow _ _

theorem confChoice_leads {s : Sym} (hs : s ∈ cfg.symbols) :
    Leads (Goes cfg) (confChoice cfg s list below) := by
  refine .bind .getState fun w₀ => .bind (when_leads ?_) fun _ => .bind .getState fun w =>
    when_leads ?_
  · exact .bind (confSym_leads s) fun _ => onState_move fun st => .calcValue hs st
  · exact .bind (.report _) fun _ => choiceLoop_leads hlist hbelow s _

end Choice

/-! ## Walks -/

theorem conf_leads {check : ℕ → Menus → Walk Unit}
    (hcheck : ∀ i m, (∀ e ∈ m.preorder, e.Fits cfg) → Leads (Goes cfg) (check i m)) {m : Menus}
    (hm : ∀ e ∈ m.preorder, e.Fits cfg) :
    (∀ i, Leads (Goes cfg) (conf cfg check i m)) ∧ (∀ i, Leads (Goes cfg) (confAll cfg check i m)) ∧
      ∀ i, ∀ c ∈ confBelow cfg check i m, Leads (Goes cfg) c := by
  induction m with
  | nil =>
    refine ⟨fun _ => ?_, fun _ => ?_, fun _ c hc => by simp [confBelow] at hc⟩
    · unfold conf
      exact .pure _
    · unfold confAll
      exact .pure _
  | node e l n ihl ihn =>
    have hm' := hm
    simp only [Menus.preorder_node, List.forall_mem_cons, List.forall_mem_append] at hm'
    obtain ⟨hfirst, hall, hbelow⟩ := ihl hm'.2.1
    obtain ⟨-, hnext, hafter⟩ := ihn hm'.2.2
    have hconf (i : ℕ) : Leads (Goes cfg) (conf cfg check i (.node e l n)) := by
      refine .bind (onState_move fun st => .visible hm st) fun visible => .bind .getState fun w => ?_
      split_ifs
      · exact .pure _
      · exact hcheck i _ hm
      · cases hs : e.sym with
        | none => exact hall _
        | some s =>
          dsimp only
          split_ifs
          · exact .bind (confChoice_leads hm'.2.1 (hbelow _) (hm'.1.sym s hs)) fun _ =>
              .bind .getState fun w => when_leads (hall _)
          · exact .bind (confOption_leads s) fun _ => hall _
    refine ⟨hconf, fun i => ?_, fun i c hc => ?_⟩
    · unfold confAll
      exact .bind (hconf i) fun _ => hnext _
    · unfold confBelow at hc
      rcases List.mem_cons.mp hc with rfl | hc
      · exact hfirst _
      · exact hafter _ c hc

theorem restart_leads {ask : ℕ → Menus → Walk Unit} {parent : ℕ × Menus}
    (hask : Leads (Goes cfg) (ask parent.1 parent.2)) : Leads (Goes cfg) (restart ask parent) :=
  .bind (.modifyState fun _ => ⟨.refl, Nat.le_succ _, rfl⟩) fun _ => .bind .getState fun _ =>
    .bind (.report _) fun _ => hask

/-- `conf_cnt` counts the calls of `conf`. -/
theorem restart_count {ask : ℕ → Menus → Walk Unit} {parent : ℕ × Menus}
    (hask : Leads (Goes cfg) (ask parent.1 parent.2)) {w w' : World}
    (h : Returns (restart ask parent) w () w') : w.confCnt < w'.confCnt := by
  obtain ⟨⟨⟩, w₁, hmod, hrest⟩ := returns_bind.mp h
  obtain ⟨w₂, w₃, hget, hrest⟩ := returns_bind.mp hrest
  obtain ⟨⟨⟩, w₄, hrep, hrest⟩ := returns_bind.mp hrest
  obtain ⟨rfl, rfl⟩ := returns_getState.mp hget
  obtain rfl := returns_report.mp hrep
  obtain rfl := returns_modifyState.mp hmod
  exact (hask hrest).count

theorem checkConf_leads {ask : ℕ → Menus → Walk Unit}
    (hask : ∀ i m, (∀ e ∈ m.preorder, e.Fits cfg) → Leads (Goes cfg) (ask i m)) {m : Menus}
    (hm : ∀ e ∈ m.preorder, e.Fits cfg) :
    (∀ parent : ℕ × Menus, (∀ e ∈ parent.2.preorder, e.Fits cfg) → ∀ i,
        Leads (Goes cfg) (checkConf cfg ask parent i m)) ∧
      ∀ parent : ℕ × Menus, (∀ e ∈ parent.2.preorder, e.Fits cfg) → ∀ i,
        Leads (Goes cfg) (checkAll cfg ask m parent i) := by
  induction m with
  | nil =>
    refine ⟨fun _ _ _ => ?_, fun _ _ _ => ?_⟩
    · unfold checkConf
      exact .pure _
    · unfold checkAll
      exact .pure _
  | node e l n ihl ihn =>
    have hm' := hm
    simp only [Menus.preorder_node, List.forall_mem_cons, List.forall_mem_append] at hm'
    have hcheck (parent : ℕ × Menus) (hp : ∀ e ∈ parent.2.preorder, e.Fits cfg) (i : ℕ) :
        Leads (Goes cfg) (checkConf cfg ask parent i (.node e l n)) := by
      refine .bind (onState_move fun st => .visible hm st) fun visible => ?_
      by_cases hv : visible = false
      · rw [if_pos hv]
        exact .pure _
      · rw [if_neg hv]
        have hparent : ∀ x ∈ (if isMenu e = true then (i, Menus.node e l n) else parent).2.preorder,
            x.Fits cfg := by
          split_ifs
          · exact hm
          · exact hp
        have hall := fun i => (ihl hm'.2.1).2 _ hparent i
        dsimp only
        cases e.sym with
        | none => exact hall _
        | some s =>
          exact .bind .getState fun w => .bind (when_leads (restart_leads (hask _ _ hparent)))
            fun _ => .bind .getState fun w' => when_leads (hall _)
    refine ⟨hcheck, fun parent hp i => ?_⟩
    unfold checkAll
    exact .bind (hcheck parent hp i) fun _ => (ihn hm'.2.2).2 parent hp _

theorem confAt_leads (d i : ℕ) {m : Menus} (hm : ∀ e ∈ m.preorder, e.Fits cfg) :
    Leads (Goes cfg) (confAt cfg d i m) := by
  induction d generalizing i m with
  | zero => exact .diverge
  | succ d ih =>
    have hcheck (i : ℕ) (m : Menus) (hm : ∀ e ∈ m.preorder, e.Fits cfg) :
        Leads (Goes cfg) (checkConf cfg (confAt cfg d) (i, m) i m) :=
      (checkConf_leads (fun i m hm => ih i hm) hm).1 (i, m) hm i
    exact (conf_leads hcheck hm).1 i

/-! ## From the state that `conf_read` leaves -/

section Sound
variable {t : ParsedTree} (ord : Orderly t.config)

theorem rootMenu_fits (t : ParsedTree) : ∀ e ∈ (rootMenu t.config).preorder, e.Fits t.config := by
  intro e he
  rw [rootMenu, Menus.preorder_node, List.mem_cons, List.mem_append] at he
  rcases he with rfl | he | he
  · refine ⟨fun s hs => (nomatch hs), fun s p hs => (nomatch hs), fun p hp x hx => ?_⟩
    obtain rfl := Option.some.inj hp
    cases hx
  · exact t.entry_fits e he
  · cases he

include ord

theorem Move.sound {st st' : State} (h : Move t.config st st') (hst : st.Sound t) :
    st'.Sound t := by
  cases h with
  | visible hm => exact (menuIsVisible_settles ord hm hst.rest).later.sound hst
  | calcValue hs => exact (symCalcValue_later ord hst.rest hs).1.sound hst
  | setTristate s val => exact symSetTristateValue_sound ord hst val
  | setString s value => exact symSetStringValue_sound ord hst value

theorem Goes.sound {w w' : World} (h : Goes t.config w w') (hw : w.st.Sound t) : w'.st.Sound t := by
  have hmoves := h.moves
  generalize w'.st = st' at hmoves
  induction hmoves with
  | refl => exact hw
  | tail _ hlast ih => exact hlast.sound ord ih

end Sound

end Grasshopper.Kconfig.Conf
