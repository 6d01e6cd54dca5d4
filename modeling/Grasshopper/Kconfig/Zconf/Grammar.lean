import Grasshopper.Kconfig.Zconf.Param
import Mathlib.Logic.Relation

/-! # The expressions of `zconf.y`

The rules for `expr` are ambiguous, and the precedence of the operators decides whether a token is
shifted or a rule is reduced. An expression that is printed comes back with the same value, though
not with the same structure.
-/

namespace Grasshopper.Kconfig

/-! ## The parser -/

/-- What is on the stack of the parser. -/
inductive Item where
  | tok (t : ParamToken)
  | sym (s : Sym)
  | exp (e : Expr)

/-- The levels of `%left T_OR`, `%left T_AND`, `%left T_EQUAL T_UNEQUAL` and `%nonassoc T_NOT`. -/
def precedence : ParamToken → ℕ
  | .or => 1
  | .and => 2
  | .equal | .unequal => 3
  | .not => 4
  | _ => 0

/-- Whether the next token is shifted where a rule with an operator could be reduced. Of the tokens
with a level only `T_AND` and `T_OR` go on with an expression, and at the same level `%left` reduces. -/
def shifts (op : ParamToken) : List ParamToken → Bool
  | .and :: _ => precedence op < precedence .and
  | .or :: _ => precedence op < precedence .or
  | _ => false

/-- A stack and the tokens that are left. -/
abbrev Parse := List Item × List ParamToken

def shift (st : List Item) : List ParamToken → Option Parse
  | [] => none
  | t :: input => some (.tok t :: st, input)

/-- A rule with an operator, or the next token. -/
def reduceOrShift (op : ParamToken) (e : Expr) (st' st : List Item) (input : List ParamToken) :
    Option Parse :=
  if shifts op input then shift st input else some (.exp e :: st', input)

/-- A move with an `expr` on top. -/
def exprMove (e : Expr) (st : List Item) (input : List ParamToken) : Option Parse :=
  match st with
  | .tok .not :: st' => reduceOrShift .not (.not e) st' (.exp e :: st) input
  | .tok .or :: .exp l :: st' => reduceOrShift .or (.or l e) st' (.exp e :: st) input
  | .tok .and :: .exp l :: st' => reduceOrShift .and (.and l e) st' (.exp e :: st) input
  | .tok .openParen :: _ =>
    match input with
    | .and :: _ | .or :: _ | .closeParen :: _ => shift (.exp e :: st) input
    | _ => none
  | [] =>
    match input with
    | .and :: _ | .or :: _ => shift (.exp e :: st) input
    | _ => none
  | _ => none

/-- A move with a `symbol` on top. -/
def symbolMove (s : Sym) (st : List Item) (input : List ParamToken) : Option Parse :=
  match st with
  | .tok .equal :: .sym a :: st' => some (.exp (.equal a s) :: st', input)
  | .tok .unequal :: .sym a :: st' => some (.exp (.unequal a s) :: st', input)
  | _ =>
    match input with
    | .equal :: _ | .unequal :: _ => shift (.sym s :: st) input
    | _ => some (.exp (.symbol s) :: st, input)

/-- A move where a `symbol` is expected, or an `expr`. -/
def operandMove (comparison : Bool) (st : List Item) : List ParamToken → Option Parse
  | .word w :: input => some (.sym (.lookup w false) :: st, input)
  | .wordQuote w :: input => some (.sym (.lookup w true) :: st, input)
  | .not :: input => if comparison then none else some (.tok .not :: st, input)
  | .openParen :: input => if comparison then none else some (.tok .openParen :: st, input)
  | _ => none

/-- A move of the parser. -/
def move : Parse → Option Parse
  | (.exp e :: st, input) => exprMove e st input
  | (.sym s :: st, input) => symbolMove s st input
  | (.tok .closeParen :: st, input) =>
    match st with
    | .exp e :: .tok .openParen :: st' => some (.exp e :: st', input)
    | _ => none
  | (.tok .equal :: st, input) => operandMove true (.tok .equal :: st) input
  | (.tok .unequal :: st, input) => operandMove true (.tok .unequal :: st) input
  | (st, input) => operandMove false st input

/-- The parser, with fuel for its moves. It stops with an `expr` and the tokens that follow. -/
def parse : ℕ → Parse → Option (Expr × List ParamToken)
  | 0, _ => none
  | n + 1, p =>
    match move p with
    | some p' => parse n p'
    | none =>
      match p with
      | ([.exp e], input) => some (e, input)
      | _ => none

/-- An `expr` at the front of a line. -/
def parseExpr (input : Text) : Option (Expr × List ParamToken) :=
  (paramTokens input).bind fun toks => parse (3 * toks.length + 1) ([], toks)

/-! ## Runs -/

/-- The moves of the parser as a relation. -/
def Moves : Parse → Parse → Prop := Relation.ReflTransGen fun p p' => move p = some p'

/-- What is left to do at most. -/
def Item.weight : Item → ℕ
  | tok _ | exp _ => 1
  | sym _ => 2

def Parse.weight (p : Parse) : ℕ := (p.1.map Item.weight).sum + 3 * p.2.length

section Weight
variable {st st' : List Item} {input : List ParamToken} {e : Expr} {s : Sym} {p p' : Parse}

theorem weight_shift (h : shift st input = some p) : p.weight < Parse.weight (st, input) := by
  cases input with
  | nil => cases h
  | cons t input =>
    cases h
    simp [Parse.weight, Item.weight]
    omega

theorem weight_reduceOrShift {op : ParamToken} {e' : Expr}
    (h : reduceOrShift op e' st' st input = some p)
    (hst : (st'.map Item.weight).sum + 1 < (st.map Item.weight).sum) :
    p.weight < Parse.weight (st, input) := by
  rw [reduceOrShift] at h
  split_ifs at h
  · exact weight_shift h
  · cases h
    simp only [Parse.weight, List.map_cons, List.sum_cons, Item.weight]
    omega

theorem weight_exprMove (h : exprMove e st input = some p) :
    p.weight < Parse.weight (.exp e :: st, input) := by
  unfold exprMove at h
  split at h
  · exact weight_reduceOrShift h (by simp [Item.weight]; omega)
  · exact weight_reduceOrShift h (by simp [Item.weight]; omega)
  · exact weight_reduceOrShift h (by simp [Item.weight]; omega)
  · split at h
    · exact weight_shift h
    · exact weight_shift h
    · exact weight_shift h
    · cases h
  · split at h
    · exact weight_shift h
    · exact weight_shift h
    · cases h
  · cases h

theorem weight_symbolMove (h : symbolMove s st input = some p) :
    p.weight < Parse.weight (.sym s :: st, input) := by
  unfold symbolMove at h
  split at h
  · cases h
    simp [Parse.weight, Item.weight]
    omega
  · cases h
    simp [Parse.weight, Item.weight]
    omega
  · split at h
    · exact weight_shift h
    · exact weight_shift h
    · cases h
      simp [Parse.weight, Item.weight]

theorem weight_operandMove {comparison : Bool} (h : operandMove comparison st input = some p) :
    p.weight < Parse.weight (st, input) := by
  unfold operandMove at h
  split at h <;> [skip; skip; split_ifs at h; split_ifs at h; skip] <;> cases h <;>
    (simp [Parse.weight, Item.weight]; omega)

/-- Every move leaves less to do. -/
theorem weight_move (h : move p = some p') : p'.weight < p.weight := by
  unfold move at h
  split at h
  · exact weight_exprMove h
  · exact weight_symbolMove h
  · split at h
    · cases h
      simp [Parse.weight, Item.weight]
      omega
    · cases h
  · exact weight_operandMove h
  · exact weight_operandMove h
  · exact weight_operandMove h

/-- The fuel is enough for a run that stops with an expression. -/
theorem parse_of_moves (hp : Moves p ([.exp e], input)) (hstop : move ([.exp e], input) = none)
    {n : ℕ} (hn : p.weight < n) : parse n p = some (e, input) := by
  induction hp using Relation.ReflTransGen.head_induction_on generalizing n with
  | refl =>
    cases n with
    | zero => exact absurd hn (Nat.not_lt_zero _)
    | succ n => simp only [parse, hstop]
  | head hmove _ ih =>
    cases n with
    | zero => exact absurd hn (Nat.not_lt_zero _)
    | succ n =>
      have hlt := weight_move hmove
      simp only [parse, hmove]
      exact ih (by omega)

end Weight

/-! ## Expressions that come back -/

/-- Expressions with the same value under every valuation. -/
def Expr.Same (e e' : Expr) : Prop := ∀ type ρ, e.value type ρ = e'.value type ρ

/-- No comparison goes on with the tokens. -/
def NoComparison (rest : List ParamToken) : Prop :=
  rest.head? ≠ some .equal ∧ rest.head? ≠ some .unequal

theorem noComparison_cons {t : ParamToken} {rest : List ParamToken}
    (h : t ≠ .equal ∧ t ≠ .unequal) : NoComparison (t :: rest) := by
  simpa [NoComparison] using h

/-- The stacks where a disjunction may begin. -/
inductive Open : List Item → Prop
  | bottom : Open []
  | paren (st : List Item) : Open (.tok .openParen :: st)

/-- The stacks where a conjunction may begin. -/
inductive Low : List Item → Prop
  | open {st : List Item} (h : Open st) : Low st
  | or (e : Expr) (st : List Item) : Low (.tok .or :: .exp e :: st)

/-- The stacks where an operand may begin. -/
inductive Awaits : List Item → Prop
  | low {st : List Item} (h : Low st) : Awaits st
  | and (e : Expr) (st : List Item) : Awaits (.tok .and :: .exp e :: st)
  | not (st : List Item) : Awaits (.tok .not :: st)

theorem Awaits.move {st : List Item} (h : Awaits st) (input : List ParamToken) :
    Kconfig.move (st, input) = operandMove false st input := by
  cases h with
  | low h =>
    cases h with
    | «open» h => cases h <;> rfl
    | or => rfl
  | and | not => rfl

/-- Tokens that make an expression where an operand may begin. -/
def Operand (toks : List ParamToken) (e : Expr) : Prop :=
  ∃ e', e'.Same e ∧ ∀ st rest, Awaits st → NoComparison rest →
    Moves (st, toks ++ rest) (.exp e' :: st, rest)

/-- Tokens that make an expression where a conjunction may begin, or go on. -/
structure Conjunction (toks : List ParamToken) (e : Expr) : Prop where
  first : ∃ e', e'.Same e ∧ ∀ st rest, Low st → NoComparison rest →
    Moves (st, toks ++ rest) (.exp e' :: st, rest)
  next (x : Expr) : ∃ e', e'.Same (.and x e) ∧ ∀ st rest, Low st → NoComparison rest →
    Moves (.tok .and :: .exp x :: st, toks ++ rest) (.exp e' :: st, rest)

/-- Tokens that make an expression where a disjunction may begin, or go on. -/
structure Disjunction (toks : List ParamToken) (e : Expr) : Prop where
  first : ∃ e', e'.Same e ∧ ∀ st rest, Open st → NoComparison rest → rest.head? ≠ some .and →
    Moves (st, toks ++ rest) (.exp e' :: st, rest)
  next (x : Expr) : ∃ e', e'.Same (.or x e) ∧ ∀ st rest, Open st → NoComparison rest →
    rest.head? ≠ some .and → Moves (.tok .or :: .exp x :: st, toks ++ rest) (.exp e' :: st, rest)

/-! ## What single moves do -/

section Move
variable {st : List Item} {rest : List ParamToken} {e l : Expr} {s : Sym}

theorem move_word (h : Awaits st) (w : Text) :
    move (st, .word w :: rest) = some (.sym (.lookup w false) :: st, rest) := h.move _

theorem move_not (h : Awaits st) : move (st, .not :: rest) = some (.tok .not :: st, rest) :=
  h.move _

theorem move_openParen (h : Awaits st) :
    move (st, .openParen :: rest) = some (.tok .openParen :: st, rest) := h.move _

/-- Only a comparison goes on with a symbol. -/
theorem symbolMove_eq (h : Awaits st) (input : List ParamToken) :
    symbolMove s st input =
      if input.head? = some .equal ∨ input.head? = some .unequal then shift (.sym s :: st) input
      else some (.exp (.symbol s) :: st, input) := by
  cases h with
  | low h =>
    cases h with
    | «open» h =>
      cases h <;> cases input with
      | nil => rfl
      | cons t input => cases t <;> rfl
    | or =>
      cases input with
      | nil => rfl
      | cons t input => cases t <;> rfl
  | and | not =>
    cases input with
    | nil => rfl
    | cons t input => cases t <;> rfl

theorem move_symbol (h : Awaits st) (hrest : NoComparison rest) :
    move (.sym s :: st, rest) = some (.exp (.symbol s) :: st, rest) :=
  (symbolMove_eq h rest).trans (if_neg (not_or.mpr hrest))

theorem move_comparison (h : Awaits st) {t : ParamToken} (ht : t = .equal ∨ t = .unequal) :
    move (.sym s :: st, t :: rest) = some (.tok t :: .sym s :: st, rest) :=
  (symbolMove_eq h _).trans (if_pos (ht.imp (congrArg some) (congrArg some)))

theorem move_reduce_not :
    move (.exp e :: .tok .not :: st, rest) = some (.exp (.not e) :: st, rest) := by
  cases rest with
  | nil => rfl
  | cons t rest => cases t <;> rfl

theorem move_reduce_and :
    move (.exp e :: .tok .and :: .exp l :: st, rest) = some (.exp (.and l e) :: st, rest) := by
  cases rest with
  | nil => rfl
  | cons t rest => cases t <;> rfl

/-- A conjunction is read to its end before the disjunction is reduced. -/
theorem move_reduce_or (hrest : rest.head? ≠ some .and) :
    move (.exp e :: .tok .or :: .exp l :: st, rest) = some (.exp (.or l e) :: st, rest) := by
  cases rest with
  | nil => rfl
  | cons t rest =>
    cases t with
    | and => exact absurd rfl hrest
    | _ => rfl

theorem move_and (h : Low st) :
    move (.exp e :: st, .and :: rest) = some (.tok .and :: .exp e :: st, rest) := by
  cases h with
  | «open» h => cases h <;> rfl
  | or => rfl

theorem move_or (h : Open st) :
    move (.exp e :: st, .or :: rest) = some (.tok .or :: .exp e :: st, rest) := by
  cases h <;> rfl

end Move

/-! ## What tokens make -/

theorem Moves.head {p p' p'' : Parse} (h : move p = some p') (hp : Moves p' p'') : Moves p p'' :=
  Relation.ReflTransGen.head h hp

theorem Moves.tail {p p' p'' : Parse} (hp : Moves p p') (h : move p' = some p'') : Moves p p'' :=
  Relation.ReflTransGen.tail hp h

section Make
variable {toks toks' : List ParamToken} {e l r : Expr} {s a b : Sym}

theorem Operand.symbol (hs : s.Plain) : Operand [s.token] (.symbol s) := by
  refine ⟨.symbol s, fun _ _ => rfl, fun st rest hst hrest => ?_⟩
  apply Moves.head (move_word hst _)
  rw [hs.lookup_name]
  exact .single (move_symbol hst hrest)

theorem Operand.equal (ha : a.Plain) (hb : b.Plain) :
    Operand [a.token, .equal, b.token] (.equal a b) := by
  refine ⟨.equal a b, fun _ _ => rfl, fun st rest hst _ => ?_⟩
  apply Moves.head (move_word hst _)
  rw [ha.lookup_name]
  apply Moves.head (move_comparison hst (.inl rfl))
  have hword : move (.tok .equal :: .sym a :: st, b.token :: rest) =
      some (.sym b :: .tok .equal :: .sym a :: st, rest) :=
    congrArg (fun s => some (Item.sym s :: .tok .equal :: .sym a :: st, rest)) hb.lookup_name
  exact .head hword (.single rfl)

theorem Operand.unequal (ha : a.Plain) (hb : b.Plain) :
    Operand [a.token, .unequal, b.token] (.unequal a b) := by
  refine ⟨.unequal a b, fun _ _ => rfl, fun st rest hst _ => ?_⟩
  apply Moves.head (move_word hst _)
  rw [ha.lookup_name]
  apply Moves.head (move_comparison hst (.inr rfl))
  have hword : move (.tok .unequal :: .sym a :: st, b.token :: rest) =
      some (.sym b :: .tok .unequal :: .sym a :: st, rest) :=
    congrArg (fun s => some (Item.sym s :: .tok .unequal :: .sym a :: st, rest)) hb.lookup_name
  exact .head hword (.single rfl)

theorem Operand.not (h : Operand toks e) : Operand (.not :: toks) (.not e) := by
  obtain ⟨e', hsame, hmoves⟩ := h
  refine ⟨.not e', fun type ρ => congrArg Tristate.eNot (hsame type ρ), ?_⟩
  intro st rest hst hrest
  exact .head (move_not hst) (.tail (hmoves _ rest (.not st) hrest) move_reduce_not)

theorem Operand.conjunction (h : Operand toks e) : Conjunction toks e := by
  obtain ⟨e', hsame, hmoves⟩ := h
  constructor
  · exact ⟨e', hsame, fun st rest hst => hmoves st rest (.low hst)⟩
  · intro x
    refine ⟨.and x e', fun type ρ => congrArg (min (x.value type ρ)) (hsame type ρ), ?_⟩
    intro st rest _ hrest
    exact .tail (hmoves _ rest (.and x st) hrest) move_reduce_and

theorem Conjunction.disjunction (h : Conjunction toks e) : Disjunction toks e := by
  obtain ⟨e', hsame, hmoves⟩ := h.first
  constructor
  · exact ⟨e', hsame, fun st rest hst hrest _ => hmoves st rest (.open hst) hrest⟩
  · intro x
    refine ⟨.or x e', fun type ρ => congrArg (max (x.value type ρ)) (hsame type ρ), ?_⟩
    intro st rest _ hrest hand
    exact .tail (hmoves _ rest (.or x st) hrest) (move_reduce_or hand)

/-- The conjunction that comes back is associated to the left. -/
theorem Conjunction.and (hl : Conjunction toks l) (hr : Conjunction toks' r) :
    Conjunction (toks ++ [.and] ++ toks') (.and l r) := by
  -- after the left conjunction the right one goes on with it
  have hgo : ∀ l', ∃ e', e'.Same (.and l' r) ∧ ∀ st rest, Low st → NoComparison rest →
      ∀ p, Moves p (.exp l' :: st, [.and] ++ toks' ++ rest) → Moves p (.exp e' :: st, rest) := by
    intro l'
    obtain ⟨e', hsame, hmoves⟩ := hr.next l'
    refine ⟨e', hsame, fun st rest hst hrest p hp => ?_⟩
    exact (hp.tail (move_and hst)).trans (hmoves st rest hst hrest)
  constructor
  · obtain ⟨l', hl', hmoves⟩ := hl.first
    obtain ⟨e', he', hgo⟩ := hgo l'
    refine ⟨e', fun type ρ => ?_, fun st rest hst hrest => hgo st rest hst hrest _ ?_⟩
    · rw [he' type ρ, Expr.value, hl' type ρ, Expr.value]
    · have hand : NoComparison ([.and] ++ toks' ++ rest) := noComparison_cons (by simp)
      simpa using hmoves st _ hst hand
  · intro x
    obtain ⟨l', hl', hmoves⟩ := hl.next x
    obtain ⟨e', he', hgo⟩ := hgo l'
    refine ⟨e', fun type ρ => ?_, fun st rest hst hrest => hgo st rest hst hrest _ ?_⟩
    · rw [he' type ρ, Expr.value, hl' type ρ]
      exact min_assoc _ _ _
    · have hand : NoComparison ([.and] ++ toks' ++ rest) := noComparison_cons (by simp)
      simpa using hmoves st _ hst hand

/-- The disjunction that comes back is associated to the left. -/
theorem Disjunction.or (hl : Disjunction toks l) (hr : Disjunction toks' r) :
    Disjunction (toks ++ [.or] ++ toks') (.or l r) := by
  have hgo : ∀ l', ∃ e', e'.Same (.or l' r) ∧ ∀ st rest, Open st → NoComparison rest →
      rest.head? ≠ some .and →
      ∀ p, Moves p (.exp l' :: st, [.or] ++ toks' ++ rest) → Moves p (.exp e' :: st, rest) := by
    intro l'
    obtain ⟨e', hsame, hmoves⟩ := hr.next l'
    refine ⟨e', hsame, fun st rest hst hrest hand p hp => ?_⟩
    exact (hp.tail (move_or hst)).trans (hmoves st rest hst hrest hand)
  constructor
  · obtain ⟨l', hl', hmoves⟩ := hl.first
    obtain ⟨e', he', hgo⟩ := hgo l'
    refine ⟨e', fun type ρ => ?_, fun st rest hst hrest hand => hgo st rest hst hrest hand _ ?_⟩
    · rw [he' type ρ, Expr.value, hl' type ρ, Expr.value]
    · have hor : NoComparison ([.or] ++ toks' ++ rest) := noComparison_cons (by simp)
      simpa using hmoves st _ hst hor (by simp)
  · intro x
    obtain ⟨l', hl', hmoves⟩ := hl.next x
    obtain ⟨e', he', hgo⟩ := hgo l'
    refine ⟨e', fun type ρ => ?_, fun st rest hst hrest hand => hgo st rest hst hrest hand _ ?_⟩
    · rw [he' type ρ, Expr.value, hl' type ρ]
      exact max_assoc _ _ _
    · have hor : NoComparison ([.or] ++ toks' ++ rest) := noComparison_cons (by simp)
      simpa using hmoves st _ hst hor (by simp)

theorem Disjunction.operand (h : Disjunction toks e) :
    Operand ([.openParen] ++ toks ++ [.closeParen]) e := by
  obtain ⟨e', hsame, hmoves⟩ := h.first
  refine ⟨e', hsame, fun st rest hst _ => ?_⟩
  have hbody := hmoves (.tok .openParen :: st) ([.closeParen] ++ rest) (.paren st) ⟨nofun, nofun⟩
    nofun
  have hclosed : Moves (.tok .openParen :: st, toks ++ ([.closeParen] ++ rest))
      (.exp e' :: st, rest) := (hbody.tail rfl).tail rfl
  simpa using hclosed.head (move_openParen hst)

end Make

/-- The tokens of a printed expression, within each of the operators. -/
structure Expr.Returns (e : Expr) : Prop where
  operand : Operand (e.tokens .not) e
  conjunction : Conjunction (e.tokens .and) e
  disjunction : Disjunction (e.tokens .or) e

theorem Expr.tokens_none (e : Expr) : e.tokens .none = e.tokens .or := by
  cases e <;> rfl

theorem Operand.returns {e : Expr} (h : Operand (e.tokens .not) e)
    (hand : e.tokens .and = e.tokens .not) (hor : e.tokens .or = e.tokens .not) : e.Returns where
  operand := h
  conjunction := hand ▸ h.conjunction
  disjunction := hor ▸ h.conjunction.disjunction

theorem Expr.returns (e : Expr) (he : ∀ s ∈ e.syms, s.Plain) : e.Returns := by
  induction e with
  | symbol s => exact (Operand.symbol (he s List.mem_cons_self)).returns rfl rfl
  | not e ih => exact (ih he).operand.not.returns rfl rfl
  | and l r ihl ihr =>
    have hl := ihl fun s hs => he s (List.mem_append_left _ hs)
    have hr := ihr fun s hs => he s (List.mem_append_right _ hs)
    have hand := hl.conjunction.and hr.conjunction
    exact ⟨hand.disjunction.operand, hand, hand.disjunction⟩
  | or l r ihl ihr =>
    have hl := ihl fun s hs => he s (List.mem_append_left _ hs)
    have hr := ihr fun s hs => he s (List.mem_append_right _ hs)
    have hor := hl.disjunction.or hr.disjunction
    exact ⟨hor.operand, hor.operand.conjunction, hor⟩
  | equal a b =>
    exact (Operand.equal (he a (by simp [syms])) (he b (by simp [syms]))).returns rfl rfl
  | unequal a b =>
    exact (Operand.unequal (he a (by simp [syms])) (he b (by simp [syms]))).returns rfl rfl

/-! ## The text of an expression is parsed -/

/-- Nothing goes on with an expression. -/
def Ends (rest : List ParamToken) : Prop :=
  NoComparison rest ∧ rest.head? ≠ some .and ∧ rest.head? ≠ some .or

theorem move_accepted {e : Expr} {rest : List ParamToken} (h : Ends rest) :
    move ([.exp e], rest) = none := by
  cases rest with
  | nil => rfl
  | cons t rest =>
    cases t with
    | and => exact absurd rfl h.2.1
    | or => exact absurd rfl h.2.2
    | _ => rfl

/-- An expression that is printed in front of other text is parsed up to that text. -/
theorem exists_parseExpr (e : Expr) (he : ∀ s ∈ e.syms, s.Plain) :
    ∃ e', e'.Same e ∧ ∀ rest more, Stops rest → Lexes rest more → Ends more →
      parseExpr (exprText e ++ rest) = some (e', more) := by
  obtain ⟨e', hsame, hmoves⟩ := (e.returns he).disjunction.first
  refine ⟨e', hsame, fun rest more hrest hmore hends => ?_⟩
  have htoks := (lexes_exprText he hrest hmore).paramTokens
  rw [parseExpr, htoks, Option.bind_some, e.tokens_none]
  apply parse_of_moves (hmoves [] more .bottom hends.1 hends.2.1) (move_accepted hends)
  rw [Parse.weight, List.map_nil, List.sum_nil, Nat.zero_add]
  exact Nat.lt_succ_self _

/-- The text of an expression over plain symbols, at the end of a file or of a line, is parsed as
an expression with the same value under every valuation. -/
theorem parseExpr_exprText (e : Expr) (he : ∀ s ∈ e.syms, s.Plain) :
    ∃ e', (∀ type ρ, e'.value type ρ = e.value type ρ) ∧
      parseExpr (exprText e) = some (e', []) ∧
      ∀ rest, parseExpr (exprText e ++ '\n' :: rest) = some (e', [.eol]) := by
  obtain ⟨e', hsame, hparse⟩ := exists_parseExpr e he
  refine ⟨e', hsame, ?_, fun rest => ?_⟩
  · have hend := hparse [] [] nofun .nil ⟨⟨nofun, nofun⟩, nofun, nofun⟩
    rwa [List.append_nil] at hend
  · exact hparse ('\n' :: rest) [.eol] (stops_cons rfl rest) .eol ⟨⟨nofun, nofun⟩, nofun, nofun⟩

/-- `!(A || B && C!=y)` -/
def sampleExpr : Expr :=
  .not (.or (.symbol (.config nameA)) (.and (.symbol (.config nameB))
    (.unequal (.config ⟨['C'], by decide⟩) .yes)))

theorem parseExpr_exprText_sampleExpr :
    ∃ e', (∀ type ρ, e'.value type ρ = sampleExpr.value type ρ) ∧
      parseExpr (exprText sampleExpr) = some (e', []) ∧
      ∀ rest, parseExpr (exprText sampleExpr ++ '\n' :: rest) = some (e', [.eol]) := by
  apply parseExpr_exprText
  have hletter : ∀ c : Char, isNameChar c = true → ∀ h, (Sym.config ⟨[c], h⟩).Plain :=
    fun c hc h => .config ⟨List.cons_ne_nil c [], fun d hd => List.mem_singleton.mp hd ▸ hc,
      by simp, by simp⟩
  simp only [sampleExpr, Expr.syms, List.cons_append, List.nil_append, List.forall_mem_cons]
  exact ⟨hletter _ rfl _, hletter _ rfl _, hletter _ rfl _, .yes, List.forall_mem_nil _⟩

example : exprText sampleExpr =
    ['!', '(', 'A', ' ', '|', '|', ' ', 'B', ' ', '&', '&', ' ', 'C', '!', '=', 'y', ')'] := rfl

end Grasshopper.Kconfig
