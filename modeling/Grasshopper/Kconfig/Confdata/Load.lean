import Grasshopper.Kconfig.Confdata.Read
import Grasshopper.Kconfig.Menu.Members
import Grasshopper.Kconfig.Symbol.Recalc

/-! # The state after `conf_read`

`conf_read` computes all symbols from the values on the lines and only then sets `SYMBOL_NEW` on
some of them. What it leaves depends on the lines alone.
-/

namespace Grasshopper.Kconfig

/-! ## The range checks -/

section Range
variable (cfg : Config) (D : UserData) (ρ : Sym → SymbolValue)

/-- The property that `sym_get_range_prop` returns. -/
def activeRange (s : Sym) : Option Property :=
  (cfg.ranges s).find? fun p => conditionTri cfg ρ p ≠ .no

/-- `sym_string_within_range`, for a string, int or hex symbol. -/
def inRange (s : Sym) (str : Text) : Bool :=
  match cfg.type s with
  | .string => true
  | .int => intValid str && inBounds 10 str (activeRange cfg ρ s)
  | .hex => hexValid str && inBounds 16 str (activeRange cfg ρ s)
  | _ => false

/-- A symbol is visible. -/
def shown (s : Sym) : Bool := decide (cfg.type s ≠ .unknown ∧ visibleTri cfg D ρ s ≠ .no)

/-- `SYMBOL_NEW` of a symbol after `conf_read`, but for new members of a choice. -/
def keptNew (s : Sym) : Bool :=
  D.isNew s || (!cfg.isChoiceValue s && (!shown cfg D ρ s ||
    ((cfg.type s).isText && !inRange cfg ρ s (D.user s).val.toText)))

/-- The flags `SYMBOL_NEW` after `conf_read`: a choice also has it if a visible member has. -/
structure LoadedNew (f : Sym → Bool) : Prop where
  outside : ∀ s, s ∉ cfg.symbols → f s = D.isNew s
  symbol : ∀ s ∈ cfg.symbols, f s =
    (keptNew cfg D ρ s || (s.isChoice && (cfg.members s).any fun m => shown cfg D ρ m && f m))

end Range

section Load
variable {cfg : Config} {D : UserData} {ρ : Sym → SymbolValue}

theorem Good.agrees {st : State} (h : Good cfg D ρ ∅ st) (xs : List Sym) : st.Agrees xs ρ :=
  fun _ _ hv => (h.curr hv (Set.notMem_empty _)).symm

theorem symCalcValue_contract (sem : Semantics cfg D ρ) :
    Contract cfg D ρ cfg.symbols.length (symCalcValue cfg) :=
  symCalcValueAux_contract sem cfg.symbols.length

theorem Good.can {st : State} (h : Good cfg D ρ ∅ st) {xs : List Sym}
    (hx : ∀ x ∈ xs, x.isStatic = true ∨ x ∈ cfg.symbols) :
    Can cfg D ρ ∅ cfg.symbols.length st xs where
  good := h
  evaluable x hxs := (hx x hxs).imp (h.static x) fun hs => ⟨hs, by simp⟩
  fuel := List.countP_le_length

theorem symStringWithinRange_reads (sem : Semantics cfg D ρ) {s : Sym}
    (hs : (cfg.type s).isText = true)
    (hr : ∀ p ∈ cfg.ranges s, ∀ x ∈ optSyms p.visible, x.isStatic = true ∨ x ∈ cfg.symbols)
    (str : Text) {st : State} (h : Good cfg D ρ ∅ st) :
    Reads cfg D ρ ∅ st [] (symStringWithinRange cfg (symCalcValue cfg) s str st).2 ∧
      (symStringWithinRange cfg (symCalcValue cfg) s str st).1 = inRange cfg ρ s str := by
  have hcan : Can cfg D ρ ∅ cfg.symbols.length st
      ((cfg.ranges s).flatMap fun p => optSyms p.visible) := h.can fun x hx => by
    obtain ⟨p, hp, hx⟩ := List.mem_flatMap.mp hx
    exact hr p hp x hx
  obtain ⟨hread, hf⟩ := firstActive_reads sem (symCalcValue_contract sem) (cfg.ranges s)
    (fun p hp x hx => List.mem_flatMap.mpr ⟨p, hp, hx⟩) hcan
  have hprop : (symGetRangeProp cfg (symCalcValue cfg) s st).1 = activeRange cfg ρ s :=
    hf ρ (hread.good.agrees _)
  unfold symStringWithinRange inRange
  cases hty : cfg.type s with
  | string => exact ⟨h.reads_nil, rfl⟩
  | int | hex =>
    dsimp only
    simp only [symStringValid, Bool.not_eq_true']
    split_ifs with hv
    · simp only [hv, Bool.false_and]
      exact ⟨h.reads_nil, trivial⟩
    · rw [hprop]
      exact ⟨hread, by simp [hv]⟩
  | _ => simp [hty, SymType.isText] at hs

/-- Only the flags `SYMBOL_NEW` of computed symbols change. -/
theorem Good.setNew {st : State} (h : Good cfg D ρ ∅ st) {s : Sym} (hs : st.valid s = true)
    (b : Bool) : Good cfg D ρ ∅ (st.setNew s b) :=
  { h with
    done u hu hP :=
      have hd := h.done u hu hP
      ⟨hd.curr, fun ht => { hd.known ht with }, hd.stable⟩
    isNew u hu := by
      have hne : u ≠ s := by rintro rfl; simp [State.setNew, hs] at hu
      simpa [State.setNew, hne] using h.isNew u hu }

/-! ## The last loop of `conf_read` -/

/-- What the loop does: it evaluates, and sets `SYMBOL_NEW`. -/
structure Loads (cfg : Config) (D : UserData) (ρ : Sym → SymbolValue) (st st' : State)
    (isNew : Sym → Bool) : Prop where
  good : Good cfg D ρ ∅ st'
  ext : Ext cfg D ρ st { st' with isNew := st.isNew }
  isNew : st'.isNew = isNew

namespace Loads
variable {st st' st'' : State} {f : Sym → Bool} {xs : List Sym} {s : Sym}

theorem refl (h : Good cfg D ρ ∅ st) : Loads cfg D ρ st st st.isNew := ⟨h, .refl st, rfl⟩

theorem trans (sem : Semantics cfg D ρ) {g : Sym → Bool} (h : Loads cfg D ρ st st' f)
    (h' : Loads cfg D ρ st' st'' g) : Loads cfg D ρ st st'' g := by
  refine ⟨h'.good, h.ext.trans sem.members ?_, h'.isNew⟩
  obtain ⟨N, hf⟩ := h'.ext
  exact ⟨N, { hf with isNew := rfl }⟩

theorem of_reads (h : Reads cfg D ρ ∅ st xs st') : Loads cfg D ρ st st' st.isNew := by
  obtain ⟨N, hf⟩ := h.ext
  exact ⟨h.good, ⟨N, { hf with isNew := rfl }⟩, hf.isNew⟩

theorem reads (sem : Semantics cfg D ρ) (h : Loads cfg D ρ st st' f)
    (h' : Reads cfg D ρ ∅ st' xs st'') : Loads cfg D ρ st st'' f := by
  have := h.trans sem (of_reads h')
  rwa [h.isNew] at this

theorem setNew (h : Loads cfg D ρ st st' f) (hs : st'.valid s = true) (b : Bool) :
    Loads cfg D ρ st (st'.setNew s b) (Function.update f s b) := by
  refine ⟨h.good.setNew hs b, ?_, by simp [State.setNew, h.isNew]⟩
  obtain ⟨N, hf⟩ := h.ext
  exact ⟨N, { hf with isNew := rfl }⟩

theorem valid (h : Loads cfg D ρ st st' f) {u : Sym} (hu : st.valid u = true) :
    st'.valid u = true := h.ext.valid hu

theorem user (h : Loads cfg D ρ st st' f) : st'.user = st.user := h.ext.choose_spec.user

theorem untyped (h : Loads cfg D ρ st st' f) (ht : cfg.TypedCandidates) {u : Sym}
    (hu : cfg.type u = .unknown) : st'.visible u = st.visible u :=
  h.ext.choose_spec.untyped ht u hu

end Loads

section Loop
variable (sem : Semantics cfg D ρ) (ht : cfg.TypedCandidates)
  (hranges : ∀ s, ∀ p ∈ cfg.ranges s, ∀ x ∈ optSyms p.visible, x.isStatic = true ∨ x ∈ cfg.symbols)

theorem Good.shown_eq {st : State} (h : Good cfg D ρ ∅ st)
    (hun : ∀ u, cfg.type u = .unknown → st.visible u = .no) {s : Sym} (hs : st.valid s = true) :
    shown cfg D ρ s = decide (st.visible s ≠ .no) := by
  by_cases hty : cfg.type s = .unknown
  · simp [shown, hty, hun s hty]
  · simp [shown, hty, ((h.done s hs (Set.notMem_empty s)).known hty).visible]

include sem hranges in
theorem readOwn_loads {st : State} (h : Good cfg D ρ ∅ st) (huser : st.user = D.user)
    (hun : ∀ u, cfg.type u = .unknown → st.visible u = .no) {s : Sym} (hs : st.valid s = true)
    (hnew : st.isNew s = D.isNew s) :
    Loads cfg D ρ st (readOwn cfg s st) (Function.update st.isNew s (keptNew cfg D ρ s)) := by
  have same (hk : keptNew cfg D ρ s = D.isNew s) :
      Function.update st.isNew s (keptNew cfg D ρ s) = st.isNew := by
    rw [hk, ← hnew, Function.update_eq_self]
  unfold readOwn
  by_cases hval : (!st.isNew s) = true ∧ (!cfg.isChoiceValue s) = true
  swap
  · rw [if_neg hval, same]
    · exact .refl h
    · rw [hnew] at hval
      cases hD : D.isNew s <;> cases hc : cfg.isChoiceValue s <;> simp_all [keptNew]
  rw [if_pos hval]
  have hkept : keptNew cfg D ρ s = (!shown cfg D ρ s ||
      ((cfg.type s).isText && !inRange cfg ρ s (D.user s).val.toText)) := by
    rw [hnew] at hval
    simp only [Bool.not_eq_true'] at hval
    simp [keptNew, hval.1, hval.2]
  have hshown := h.shown_eq hun hs
  have hfirst : Loads cfg D ρ st (if st.visible s = .no then st.setNew s true else st)
      (Function.update st.isNew s (!shown cfg D ρ s)) := by
    split_ifs with hv
    · rw [hshown]
      simpa [hv] using (Loads.refl h).setNew hs true
    · have hsame : Function.update st.isNew s (!shown cfg D ρ s) = st.isNew := by
        rw [hshown, Function.update_eq_iff]
        refine ⟨?_, fun _ _ => rfl⟩
        simpa [hv] using hval.1
      rw [hsame]
      exact .refl h
  dsimp only
  generalize (if st.visible s = .no then st.setNew s true else st) = st1 at hfirst ⊢
  rw [hkept]
  split_ifs with htext hok
  · obtain ⟨hr, hin⟩ := symStringWithinRange_reads sem htext (hranges s) ((st1.user s).val.toText)
      hfirst.good
    rw [hfirst.user, huser] at hr hin hok
    have hlast := (hfirst.reads sem hr).setNew (hr.ext.valid (hfirst.valid hs)) true
    rw [Function.update_idem] at hlast
    rw [hfirst.user, huser]
    rw [hin] at hok
    simpa [htext, hok] using hlast
  · obtain ⟨hr, hin⟩ := symStringWithinRange_reads sem htext (hranges s) ((st1.user s).val.toText)
      hfirst.good
    rw [hfirst.user, huser] at hr hin hok
    rw [hfirst.user, huser]
    rw [hin] at hok
    simpa [htext, hok] using hfirst.reads sem hr
  · simpa [htext] using hfirst

include sem ht hranges in
theorem readSymbol_loads {st : State} (h : Good cfg D ρ ∅ st) (huser : st.user = D.user)
    (hun : ∀ u, cfg.type u = .unknown → st.visible u = .no) {s : Sym} (hs : s ∈ cfg.symbols)
    (hnew : st.isNew s = D.isNew s)
    (hmem : s.isChoice = true → ∀ m ∈ cfg.members s, m ≠ s ∧ st.valid m = true) :
    Loads cfg D ρ st (readSymbol cfg st s)
        (Function.update st.isNew s (keptNew cfg D ρ s || (s.isChoice &&
          (cfg.members s).any fun m => shown cfg D ρ m && st.isNew m))) ∧
      (readSymbol cfg st s).valid s = true := by
  have hcalc := symCalcValue_reads sem h hs
  have h1 := Loads.of_reads hcalc
  have hvalid := hcalc.computed s (by simp)
  have h2 := readOwn_loads sem hranges h1.good (h1.user.trans huser)
    (fun u hu => (h1.untyped ht hu).trans (hun u hu)) hvalid (by rw [h1.isNew, hnew])
  have h3 := h1.trans sem h2
  rw [h1.isNew] at h3
  have hvalid' := h2.valid hvalid
  unfold readSymbol
  generalize readOwn cfg s (symCalcValue cfg s st) = st' at h3 hvalid' ⊢
  unfold readMembers
  split_ifs with hc
  · have hany : ((cfg.members s).any fun m => decide (st'.visible m ≠ .no ∧ st'.isNew m = true)) =
        (cfg.members s).any fun m => shown cfg D ρ m && st.isNew m := by
      rw [Bool.eq_iff_iff, List.any_eq_true, List.any_eq_true]
      refine exists_congr fun m => and_congr_right fun hm => ?_
      obtain ⟨hne, hmv⟩ := hmem hc m hm
      rw [h3.good.shown_eq (fun u hu => (h3.untyped ht hu).trans (hun u hu)) (h3.valid hmv), h3.isNew,
        Function.update_of_ne hne]
      simp
    have hlast := h3.setNew hvalid'
      (st'.isNew s || (cfg.members s).any fun m => decide (st'.visible m ≠ .no ∧ st'.isNew m = true))
    rw [Function.update_idem, hany, h3.isNew, Function.update_self] at hlast
    rw [hany, h3.isNew, Function.update_self]
    exact ⟨by simpa [hc] using hlast, hvalid'⟩
  · exact ⟨by simpa [hc] using h3, hvalid'⟩

include sem ht hranges in
/-- The loop over all symbols: the members of a choice come before it. -/
theorem readSymbols_loads (hnodup : cfg.symbols.Nodup)
    (hbefore : ∀ {l l' c m}, c.isChoice = true → cfg.symbols = l ++ c :: l' →
      m ∈ cfg.members c → m ∈ l)
    {st : State} (h : Good cfg D ρ ∅ st) (huser : st.user = D.user)
    (hun : ∀ u, cfg.type u = .unknown → st.visible u = .no) (hnew : st.isNew = D.isNew) :
    ∃ f, Loads cfg D ρ st (cfg.symbols.foldl (readSymbol cfg) st) f ∧ LoadedNew cfg D ρ f ∧
      ∀ u ∈ cfg.symbols, (cfg.symbols.foldl (readSymbol cfg) st).valid u = true := by
  -- by induction on the symbols that are left; `f` is final on those that are done
  have main (l l' : List Sym) (hl : cfg.symbols = l ++ l') {st' : State} {f : Sym → Bool}
      (h' : Loads cfg D ρ st st' f) (hout : ∀ u, u ∉ l → f u = D.isNew u)
      (hmem : ∀ u ∈ l, u.isChoice = true → ∀ m ∈ cfg.members u, m ∈ l)
      (hf : ∀ u ∈ l, f u = (keptNew cfg D ρ u || (u.isChoice &&
        (cfg.members u).any fun m => shown cfg D ρ m && f m)))
      (hv : ∀ u ∈ l, st'.valid u = true) :
      ∃ f, Loads cfg D ρ st (l'.foldl (readSymbol cfg) st') f ∧ LoadedNew cfg D ρ f ∧
        ∀ u ∈ cfg.symbols, (l'.foldl (readSymbol cfg) st').valid u = true := by
    induction l' generalizing l st' f with
    | nil =>
      rw [List.append_nil] at hl
      rw [← hl] at hout hf hv
      exact ⟨f, h', ⟨hout, hf⟩, hv⟩
    | cons s l' ih =>
      have hs : s ∈ cfg.symbols := by simp [hl]
      have hsl : s ∉ l := by
        rw [hl, List.nodup_append] at hnodup
        exact fun hmem => hnodup.2.2 s hmem s (by simp) rfl
      have hms : s.isChoice = true → ∀ m ∈ cfg.members s, m ∈ l := fun hc m hm => hbefore hc hl hm
      have hne {m : Sym} (hm : m ∈ l) : m ≠ s := fun heq => hsl (heq ▸ hm)
      obtain ⟨hstep, hsv⟩ := readSymbol_loads sem ht hranges h'.good (h'.user.trans huser)
        (fun u hu => (h'.untyped ht hu).trans (hun u hu)) hs (by rw [h'.isNew, hout s hsl])
        fun hc m hm => ⟨hne (hms hc m hm), hv m (hms hc m hm)⟩
      have hnext := h'.trans sem hstep
      rw [h'.isNew] at hnext
      generalize hb : (keptNew cfg D ρ s || (s.isChoice &&
        (cfg.members s).any fun m => shown cfg D ρ m && f m)) = b at hnext
      have hany {u : Sym} (hu : u.isChoice = true → ∀ m ∈ cfg.members u, m ∈ l) :
          (u.isChoice && (cfg.members u).any fun m => shown cfg D ρ m && f m) =
            (u.isChoice && (cfg.members u).any fun m =>
              shown cfg D ρ m && Function.update f s b m) := by
        by_cases hc : u.isChoice = true
        · rw [hc, Bool.true_and, Bool.true_and, Bool.eq_iff_iff, List.any_eq_true,
            List.any_eq_true]
          refine exists_congr fun m => and_congr_right fun hm => ?_
          rw [Function.update_of_ne (hne (hu hc m hm))]
        · simp [hc]
      refine ih (l ++ [s]) (by simp [hl]) hnext (fun u hu => ?_) (fun u hu hc m hm => ?_)
        (fun u hu => ?_) (fun u hu => ?_)
      · rw [List.mem_append, List.mem_singleton, not_or] at hu
        rw [Function.update_of_ne hu.2, hout u hu.1]
      · rw [List.mem_append, List.mem_singleton] at hu
        rcases hu with hu | rfl
        · exact List.mem_append_left _ (hmem u hu hc m hm)
        · exact List.mem_append_left _ (hms hc m hm)
      · rw [List.mem_append, List.mem_singleton] at hu
        rcases hu with hu | rfl
        · rw [Function.update_of_ne (hne hu), hf u hu, hany (hmem u hu)]
        · rw [Function.update_self, ← hany hms]
          exact hb.symm
      · rw [List.mem_append, List.mem_singleton] at hu
        rcases hu with hu | rfl
        · exact hstep.valid (hv u hu)
        · exact hsv
  have hstart := Loads.refl h
  rw [hnew] at hstart
  exact main [] cfg.symbols rfl hstart (fun _ _ => rfl) (List.forall_mem_nil _)
    (List.forall_mem_nil _) (List.forall_mem_nil _)

end Loop

end Load

/-! ## The values on the lines -/

/-- What is true of the user values of every state of a configuration. -/
structure UserData.Sane (cfg : Config) (D : UserData) : Prop where
  own : D.OwnMembers cfg
  outside : ∀ s, s ∉ cfg.symbols →
    D.user s = State.initial.user s ∧ D.isNew s = State.initial.isNew s
  modulesVal : D.modulesVal = .no

theorem UserData.initial_sane (cfg : Config) : State.initial.data.Sane cfg where
  own k m hm := by simp [State.data, State.initial] at hm
  outside _ _ := ⟨rfl, rfl⟩
  modulesVal := rfl

namespace UserData.Sane
variable {cfg : Config} {D : UserData} {s : Sym}

/-- All sane user values are the same once they are reset. -/
theorem resetData_eq (h : D.Sane cfg) : resetData cfg D = resetData cfg State.initial.data := by
  have huser (s : Sym) : (if s ∈ cfg.symbols then ⟨.null, .no⟩ else D.user s) =
      if s ∈ cfg.symbols then ⟨.null, .no⟩ else State.initial.data.user s := by
    split_ifs with hs
    · rfl
    · exact (h.outside s hs).1
  have hnew (s : Sym) : (D.isNew s || decide (s ∈ cfg.symbols)) =
      (State.initial.data.isNew s || decide (s ∈ cfg.symbols)) := by
    by_cases hs : s ∈ cfg.symbols
    · simp [hs]
    · simp [hs, (h.outside s hs).2, State.data]
  simp only [resetData, huser, hnew, h.modulesVal]
  rfl

theorem reset (h : D.Sane cfg) : (resetData cfg D).Sane cfg where
  own k m hm := by
    unfold resetData at hm
    dsimp only at hm
    split_ifs at hm
    exact h.own k m hm
  outside s hs := by
    have := h.outside s hs
    simp [resetData, hs, this]
  modulesVal := h.modulesVal

theorem setNew (h : D.Sane cfg) (hs : s ∈ cfg.symbols) (b : Bool) : (D.setNew s b).Sane cfg :=
  { h with
    own := h.own
    outside u hu := by
      have hne : u ≠ s := by rintro rfl; exact hu hs
      simpa [UserData.setNew, hne] using h.outside u hu }

theorem setTri (h : D.Sane cfg) (hs : s ∈ cfg.symbols) (t : Tristate) : (D.setTri s t).Sane cfg :=
  { h with
    own k m hm := by
      refine h.own k m ?_
      by_cases hk : .choice k = s <;> simp_all [UserData.setTri]
    outside u hu := by
      have hne : u ≠ s := by rintro rfl; exact hu hs
      simpa [UserData.setTri, hne] using h.outside u hu }

theorem setVal (h : D.Sane cfg) (hs : s ∈ cfg.symbols) {v : Val}
    (hv : ∀ k m, s = .choice k → v = .sym m → cfg.link m = some s) : (D.setVal s v).Sane cfg :=
  { h with
    own k m hm := by
      by_cases hk : .choice k = s
      · subst hk
        exact hv k m rfl (by simpa [UserData.setVal] using hm)
      · exact h.own k m (by simpa [UserData.setVal, Function.update_apply, hk] using hm)
    outside u hu := by
      have hne : u ≠ s := by rintro rfl; exact hu hs
      simpa [UserData.setVal, hne] using h.outside u hu }

end UserData.Sane

section Lines
variable {t : ParsedTree} {D : UserData} {s : Sym}

theorem ParsedTree.choice_of_link {c : Sym} (h : t.config.link s = some c) :
    c ∈ t.config.symbols ∧ ∃ k, c = .choice k := by
  obtain ⟨hc, -, hin⟩ := t.linked.link s c h
  cases c with
  | choice k => exact ⟨hin.resolve_left (by simp [Sym.isStatic]), k, rfl⟩
  | _ => simp [Sym.isChoice] at hc

theorem symFind_inTable {name : Text} (h : symFind t.config name = some s) : t.InTable s := by
  unfold symFind at h
  dsimp only at h
  split_ifs at h with hs
  obtain rfl := Option.some.inj h
  exact hs

theorem ParsedTree.mem_symbols_of_typed (h : t.InTable s) (hty : t.config.type s ≠ .unknown) :
    s ∈ t.config.symbols :=
  h.resolve_left fun hs => hty (t.type_const (by cases s <;> simp_all [Sym.isStatic, Sym.isConst]))

theorem readChoice_sane (h : D.Sane t.config) : (readChoice t.config s D).Sane t.config := by
  unfold readChoice
  by_cases hc : t.config.isChoiceValue s = true
  · rw [if_pos hc]
    cases hl : t.config.choiceOf s with
    | none => exact h
    | some c =>
      have hlink : t.config.link s = some c := by
        unfold Config.choiceOf at hl
        split_ifs at hl
        exact hl
      obtain ⟨hcs, k, rfl⟩ := ParsedTree.choice_of_link hlink
      dsimp only
      split_ifs
      · refine ((h.setVal hcs ?_).setTri hcs _).setNew hcs false
        rintro k' m - hm
        obtain rfl := Val.sym.inj hm
        exact hlink
      · exact (h.setTri hcs _).setNew hcs false
  · rwa [if_neg hc]

theorem lineValue_sane (h : D.Sane t.config) (hs : t.InTable s) {value : Text} {D' : UserData}
    (hD : lineValue t.config s value D = .ok D') : D'.Sane t.config := by
  have text {v : Text} (hty : t.config.type s ≠ .unknown) :
      ((D.setVal s (.text v)).setNew s false).Sane t.config := by
    have hmem := ParsedTree.mem_symbols_of_typed hs hty
    exact (h.setVal hmem fun _ _ _ hv => by cases hv).setNew hmem false
  unfold lineValue at hD
  cases hty : t.config.type s with
  | boolean | tristate =>
    have hmem := ParsedTree.mem_symbols_of_typed hs (by simp [hty])
    simp only [hty] at hD
    split at hD
    · obtain rfl := Except.ok.inj hD
      exact (h.setTri hmem _).setNew hmem false
    · obtain rfl := Except.ok.inj hD
      exact h
  | string =>
    simp only [hty] at hD
    split at hD
    · split at hD
      · obtain rfl := Except.ok.inj hD
        exact text (by simp [hty])
      · simp at hD
    · obtain rfl := Except.ok.inj hD
      exact h
  | int | hex =>
    simp only [hty] at hD
    split_ifs at hD
    obtain rfl := Except.ok.inj hD
    exact text (by simp [hty])
  | unknown =>
    simp only [hty] at hD
    obtain rfl := Except.ok.inj hD
    exact h

theorem readLine_sane (h : D.Sane t.config) {line : Text} {D' : UserData}
    (hD : readLine t.config D line = .ok D') : D'.Sane t.config := by
  unfold readLine at hD
  cases hp : parseLine (cString line) with
  | none =>
    simp only [hp] at hD
    obtain rfl := Except.ok.inj hD
    exact h
  | some a =>
    cases a with
    | unset name =>
      cases hf : symFind t.config name with
      | none =>
        simp only [hp, hf] at hD
        obtain rfl := Except.ok.inj hD
        exact h
      | some s =>
        simp only [hp, hf] at hD
        obtain rfl := Except.ok.inj hD
        refine readChoice_sane ?_
        split_ifs with hl
        · have hmem := ParsedTree.mem_symbols_of_typed (symFind_inTable hf)
            (fun hty => by simp [hty, SymType.isLogic] at hl)
          exact (h.setTri hmem _).setNew hmem false
        · exact h
    | set name value =>
      cases hf : symFind t.config name with
      | none =>
        simp only [hp, hf] at hD
        obtain rfl := Except.ok.inj hD
        exact h
      | some s =>
        simp only [hp, hf] at hD
        cases hv : lineValue t.config s value D with
        | error e => simp [hv, Except.map] at hD
        | ok D1 =>
          simp only [hv, Except.map] at hD
          obtain rfl := Except.ok.inj hD
          exact readChoice_sane (lineValue_sane h (symFind_inTable hf) hv)

/-- What a file says, whatever the state was before. -/
def fileData (cfg : Config) (file : Text) : Except ReadError UserData :=
  readData cfg file State.initial.data

theorem UserData.Sane.readData_eq {cfg : Config} {D : UserData} (h : D.Sane cfg) (file : Text) :
    readData cfg file D = fileData cfg file := by
  rw [fileData, readData, readData, h.resetData_eq]

theorem fileData_sane {file : Text} (hD : fileData t.config file = .ok D) : D.Sane t.config := by
  have main (lines : List Text) {D₀ : UserData} (h : D₀.Sane t.config)
      (hD : lines.foldlM (readLine t.config) D₀ = .ok D) : D.Sane t.config := by
    induction lines generalizing D₀ with
    | nil => exact Except.ok.inj hD ▸ h
    | cons line lines ih =>
      rw [List.foldlM_cons] at hD
      cases hl : readLine t.config D₀ line with
      | error e => simp [hl, bind, Except.bind] at hD
      | ok D₁ =>
        rw [hl] at hD
        exact ih (readLine_sane h hl) hD
  exact main _ (UserData.initial_sane t.config).reset hD

end Lines

/-! ## The whole of `conf_read` -/

/-- What is true of every state of a configuration. -/
structure State.Sane (cfg : Config) (st : State) : Prop extends st.Proper cfg where
  data : st.data.Sane cfg
  untyped : ∀ s, cfg.type s = .unknown → st.visible s = .no

theorem State.initial_sane (cfg : Config) : State.initial.Sane cfg where
  toProper := State.initial_proper cfg
  data := UserData.initial_sane cfg
  untyped _ _ := rfl

/-- The state in which `conf_read` starts to compute. -/
def resetState (cfg : Config) (D : UserData) (st : State) : State :=
  { st.withData D with valid := fun s => st.valid s && !decide (s ∈ cfg.symbols) }

/-- What `conf_read` leaves, for the values on the lines and the solution for them. -/
structure Loaded (cfg : Config) (D : UserData) (ρ : Sym → SymbolValue) (st st' : State) : Prop where
  settled : Settled cfg D ρ st'
  user : st'.user = D.user
  isNew : LoadedNew cfg D ρ st'.isNew
  changeCount : st'.changeCount = 1
  ext : Ext cfg D ρ (resetState cfg D st)
    { st' with isNew := D.isNew, changeCount := st.changeCount }

section Loaded
variable {cfg : Config} {D : UserData} {ρ : Sym → SymbolValue} {st st' : State}

theorem resetState_good (sem : Semantics cfg D ρ) (h : st.Sane cfg) (hD : D.Sane cfg)
    (htable : ∀ s ∈ cfg.symbols, s.isStatic = false) : Good cfg D ρ ∅ (resetState cfg D st) := by
  have hst : (st.withData D).Proper cfg := { h.toProper with }
  have hdata : (st.withData D).data = D := by
    have hmod : st.modulesVal = D.modulesVal := h.data.modulesVal.trans hD.modulesVal.symm
    simp only [State.data, State.withData, hmod]
  have hg := clearValid_good sem hst hdata htable
  exact { hg with
    done := fun u hu hP =>
      have hd := hg.done u hu hP
      ⟨hd.curr, fun ht => { hd.known ht with }, hd.stable⟩ }

theorem Loaded.sane (h : Loaded cfg D ρ st st') (hst : st.Sane cfg) (hD : D.Sane cfg)
    (ht : cfg.TypedCandidates) (hstatic : ∀ s ∈ cfg.symbols, s.isStatic = false) :
    st'.Sane cfg := by
  obtain ⟨N, hf⟩ := h.ext
  have hvalid (s : Sym) : st'.valid s = true ↔
      (st.valid s = true ∧ s ∉ cfg.symbols) ∨ s ∈ N := by
    simpa [resetState] using hf.valid s
  refine ⟨⟨fun s hs => ?_, fun s hs => ?_, h.settled.good.memberRev⟩, ⟨?_, fun s hs => ?_, ?_⟩,
    fun s hs => ?_⟩
  · have hold := hst.static s hs
    have hout : s ∉ cfg.symbols := fun hmem => by simp [hstatic s hmem] at hs
    refine ⟨(hvalid s).mpr (.inl ⟨hold.1, hout⟩), ?_⟩
    exact (hf.curr s (by simp [resetState, hold.1, hout])).trans hold.2
  · rcases (hvalid s).mp hs with ⟨hv, -⟩ | hN
    · exact hst.table s hv
    · exact .inr (hf.table s hN)
  · intro k m hm
    refine hD.own k m ?_
    rwa [← h.user]
  · have := hD.outside s hs
    simpa [State.data, h.user, h.isNew.outside s hs] using this
  · exact h.settled.good.modulesVal.trans hD.modulesVal
  · exact (hf.untyped ht s hs).trans (hst.untyped s hs)

end Loaded

section ConfRead
variable {t : ParsedTree} {D : UserData} {ρ : Sym → SymbolValue} {st : State} {file : Text}

theorem ParsedTree.ranges_inTable (t : ParsedTree) : ∀ s, ∀ p ∈ t.config.ranges s,
    ∀ x ∈ optSyms p.visible, t.InTable x :=
  fun _ _ hp => (t.props_inTable (List.mem_filter.mp hp).1).1

/-- `conf_read` accepts a file or not whatever the state is, and leaves what the lines say. -/
theorem ParsedTree.Tidy.confRead (h : t.Tidy) (hty : t.TypedChoices)
    (hm : t.config.type modulesSym = .unknown)
    (hst : st.Sane t.config) (hD : fileData t.config file = .ok D)
    (hρ : Dependency.Solution (currOf t.config D) ρ) :
    ∃ st', confRead t.config file st = .ok st' ∧ Loaded t.config D ρ st st' := by
  have hsane := fileData_sane hD
  have sem := h.semantics hsane.own.candidates hρ fun hty => absurd hm hty
  have hgood := resetState_good sem hst hsane t.symbols_not_static
  have hmod := symCalcValue_reads sem hgood t.modulesSym_mem
  have hfirst := Loads.of_reads hmod
  obtain ⟨f, hload, hnew, hvalid⟩ := readSymbols_loads sem hty.typedCandidates t.ranges_inTable
    t.symbols_nodup t.member_before_choice hfirst.good hfirst.user
    (fun u hu => (hfirst.untyped hty.typedCandidates hu).trans (hst.untyped u hu)) hfirst.isNew
  have hall := hfirst.trans sem hload
  let last := t.config.symbols.foldl (readSymbol t.config)
    (symCalcValue t.config modulesSym (resetState t.config D st))
  have hread : Kconfig.confRead t.config file st = .ok { last with changeCount := 1 } := by
    rw [Kconfig.confRead, hst.data.readData_eq, hD]
    rfl
  have hg : Good t.config D ρ ∅ { last with changeCount := 1 } :=
    { hall.good with
      done := fun u hu hP =>
        have hd := hall.good.done u hu hP
        ⟨hd.curr, fun ht => { hd.known ht with }, hd.stable⟩ }
  refine ⟨_, hread, ⟨hg, hvalid⟩, hall.user, ?_, rfl, ?_⟩
  · rw [show ({ last with changeCount := 1 } : State).isNew = f from hall.isNew]
    exact hnew
  · obtain ⟨N, hf⟩ := hall.ext
    exact ⟨N, { hf with isNew := rfl, changeCount := rfl }⟩

theorem confRead_error {cfg : Config} {e : ReadError} (hst : st.Sane cfg)
    (hD : fileData cfg file = .error e) : Kconfig.confRead cfg file st = .error e := by
  rw [Kconfig.confRead, hst.data.readData_eq, hD]
  rfl

end ConfRead

end Grasshopper.Kconfig
