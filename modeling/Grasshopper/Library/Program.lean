import Mathlib.Data.List.Infix
import Mathlib.Data.Nat.Init
import Mathlib.Logic.Relation
import Mathlib.Order.Defs.Unbundled

/-! # Programs that may run for ever

A program works on a state, reports events, and returns, exits, or goes on for ever. It is given
by what it has done with each amount of fuel, so it can be executed; what it does with any amount
of fuel is described by `Returns` and `Reports`.
-/

variable {σ ε α β : Type}

/-- How far a program gets. -/
inductive Outcome (σ α : Type) where
  | returned (a : α) (st : σ)
  | exited
  | running

/-- The program has returned, and a test passes. -/
def Outcome.passes (p : α → σ → Bool) : Outcome σ α → Bool
  | returned a st => p a st
  | _ => false

/-- The events that were reported, and how far the program got. -/
abbrev Progress (σ ε α : Type) := List ε × Outcome σ α

namespace Progress

/-- What may follow when there is more fuel. -/
def Grows (r r' : Progress σ ε α) : Prop := r = r' ∨ r.2 = .running ∧ r.1 <+: r'.1

theorem Grows.refl (r : Progress σ ε α) : r.Grows r := .inl rfl

theorem Grows.trans {r₁ r₂ r₃ : Progress σ ε α} (h : r₁.Grows r₂) (h' : r₂.Grows r₃) :
    r₁.Grows r₃ := by
  rcases h with rfl | ⟨hr, hl⟩
  · exact h'
  · rcases h' with rfl | ⟨-, hl'⟩
    · exact .inr ⟨hr, hl⟩
    · exact .inr ⟨hr, hl.trans hl'⟩

theorem Grows.isPrefix {r r' : Progress σ ε α} (h : r.Grows r') : r.1 <+: r'.1 := by
  rcases h with rfl | ⟨-, hl⟩
  · exact List.prefix_rfl
  · exact hl

theorem Grows.returned {r r' : Progress σ ε α} (h : r.Grows r') {a : α} {st : σ}
    (hr : r.2 = .returned a st) : r' = r := by
  rcases h with rfl | ⟨hrun, -⟩
  · rfl
  · rw [hr] at hrun
    cases hrun

/-- One program after another. -/
def bind (r : Progress σ ε α) (f : α → σ → Progress σ ε β) : Progress σ ε β :=
  match r with
  | (log, .returned a st) => (log ++ (f a st).1, (f a st).2)
  | (log, .exited) => (log, .exited)
  | (log, .running) => (log, .running)

theorem isPrefix_bind (r : Progress σ ε α) (f : α → σ → Progress σ ε β) : r.1 <+: (r.bind f).1 := by
  rcases r with ⟨log, ⟨a, st⟩ | _ | _⟩
  · exact List.prefix_append _ _
  · exact List.prefix_rfl
  · exact List.prefix_rfl

theorem Grows.bind {r r' : Progress σ ε α} {f g : α → σ → Progress σ ε β} (h : r.Grows r')
    (hf : ∀ a st, (f a st).Grows (g a st)) : (r.bind f).Grows (r'.bind g) := by
  rcases h with rfl | ⟨hrun, hl⟩
  · rcases r with ⟨log, ⟨a, st⟩ | _ | _⟩
    · rcases hf a st with heq | ⟨hrun, hl⟩
      · exact .inl (by simp only [Progress.bind, heq])
      · exact .inr ⟨hrun, List.prefix_append_right_inj log |>.mpr hl⟩
    · exact .refl _
    · exact .refl _
  · obtain ⟨log, o⟩ := r
    obtain rfl : o = .running := hrun
    exact .inr ⟨rfl, hl.trans (isPrefix_bind r' g)⟩

end Progress

/-- What is done with each amount of fuel. -/
structure Program (σ ε α : Type) where
  run : ℕ → σ → Progress σ ε α
  grows : ∀ n st, (run n st).Grows (run (n + 1) st)

namespace Program

theorem grows_le (c : Program σ ε α) {n m : ℕ} (h : n ≤ m) (st : σ) :
    (c.run n st).Grows (c.run m st) := by
  induction h with
  | refl => exact .refl _
  | step _ ih => exact ih.trans (c.grows _ st)

instance : Monad (Program σ ε) where
  pure a := ⟨fun _ st => ([], .returned a st), fun _ _ => .refl _⟩
  bind c f :=
    ⟨fun n st => (c.run n st).bind fun a st => (f a).run n st,
      fun n st => (c.grows n st).bind fun a st => (f a).grows n st⟩

/-- A program that always returns. -/
def step (f : σ → α × σ) : Program σ ε α :=
  ⟨fun _ st => ([], .returned (f st).1 (f st).2), fun _ _ => .refl _⟩

def getState : Program σ ε σ := step fun st => (st, st)

def modifyState (f : σ → σ) : Program σ ε Unit := step fun st => ((), f st)

def report (e : ε) : Program σ ε Unit :=
  ⟨fun _ st => ([e], .returned () st), fun _ _ => .refl _⟩

/-- `exit`. -/
def exit : Program σ ε α := ⟨fun _ _ => ([], .exited), fun _ _ => .refl _⟩

/-- A program that never returns. -/
def diverge : Program σ ε α := ⟨fun _ _ => ([], .running), fun _ _ => .refl _⟩

/-- Some rounds of a loop. -/
def rounds (body : Program σ ε (Option α)) (n : ℕ) : ℕ → σ → Progress σ ε α
  | 0, _ => ([], .running)
  | k + 1, st => (body.run n st).bind fun
    | some a, st => ([], .returned a st)
    | none, st => rounds body n k st

theorem rounds_grows_fuel (body : Program σ ε (Option α)) (n k : ℕ) (st : σ) :
    (rounds body n k st).Grows (rounds body (n + 1) k st) := by
  induction k generalizing st with
  | zero => exact .refl _
  | succ k ih =>
    refine (body.grows n st).bind fun o st => ?_
    cases o with
    | some a => exact .refl _
    | none => exact ih st

theorem rounds_grows (body : Program σ ε (Option α)) (n k : ℕ) (st : σ) :
    (rounds body n k st).Grows (rounds body n (k + 1) st) := by
  induction k generalizing st with
  | zero => exact .inr ⟨rfl, List.nil_prefix⟩
  | succ k ih =>
    refine (Progress.Grows.refl (body.run n st)).bind fun o st => ?_
    cases o with
    | some a => exact .refl _
    | none => exact ih st

/-- A loop that goes on until its body gives a value. -/
def loop (body : Program σ ε (Option α)) : Program σ ε α :=
  ⟨fun n st => rounds body n n st,
    fun n st => (rounds_grows_fuel body n n st).trans (rounds_grows body (n + 1) n st)⟩

/-! ## Any amount of fuel -/

/-- The program returns. -/
def Returns (c : Program σ ε α) (st : σ) (a : α) (st' : σ) : Prop :=
  ∃ n, (c.run n st).2 = .returned a st'

/-- The program reports an event, whether it returns or not. -/
def Reports (c : Program σ ε α) (st : σ) (e : ε) : Prop := ∃ n, e ∈ (c.run n st).1

section Rules
variable {c : Program σ ε α} {f : α → Program σ ε β} {st st' st'' : σ} {a a' : α} {b : β} {e : ε}

theorem Returns.unique (h : Returns c st a st') (h' : Returns c st a' st'') :
    a = a' ∧ st' = st'' := by
  obtain ⟨n, hn⟩ := h
  obtain ⟨m, hm⟩ := h'
  have hn' := (c.grows_le (Nat.le_max_left n m) st).returned hn
  have hm' := (c.grows_le (Nat.le_max_right n m) st).returned hm
  rw [← hn', hm', hm] at hn
  injection hn with ha hst
  exact ⟨ha.symm, hst.symm⟩

/-- An execution shows that the program returns. -/
theorem exists_returns {p : α → σ → Bool} {n : ℕ} (h : (c.run n st).2.passes p = true) :
    ∃ a st', Returns c st a st' ∧ p a st' = true := by
  cases hr : (c.run n st).2 with
  | returned a st' => exact ⟨a, st', ⟨n, hr⟩, by rwa [hr] at h⟩
  | exited => simp [hr, Outcome.passes] at h
  | running => simp [hr, Outcome.passes] at h

@[simp] theorem returns_pure : Returns (pure a : Program σ ε α) st a' st' ↔ a = a' ∧ st = st' :=
  ⟨fun ⟨_, h⟩ => by injection h with ha hst; exact ⟨ha, hst⟩,
    fun ⟨ha, hst⟩ => ⟨0, by rw [ha, hst]; rfl⟩⟩

@[simp] theorem reports_pure : ¬Reports (pure a : Program σ ε α) st e := fun ⟨_, h⟩ =>
  List.not_mem_nil h

@[simp] theorem returns_step {g : σ → α × σ} :
    Returns (step g : Program σ ε α) st a st' ↔ g st = (a, st') := by
  constructor
  · rintro ⟨_, h⟩
    injection h with ha hst
    exact Prod.ext ha hst
  · intro h
    exact ⟨0, by simp only [step, h]⟩

@[simp] theorem reports_step {g : σ → α × σ} : ¬Reports (step g : Program σ ε α) st e :=
  fun ⟨_, h⟩ => List.not_mem_nil h

@[simp] theorem returns_getState {s : σ} :
    Returns (getState : Program σ ε σ) st s st' ↔ st = s ∧ st = st' := by
  simp [getState]

@[simp] theorem reports_getState : ¬Reports (getState : Program σ ε σ) st e := reports_step

@[simp] theorem returns_modifyState {g : σ → σ} {u : Unit} :
    Returns (modifyState g : Program σ ε Unit) st u st' ↔ g st = st' := by
  simp [modifyState]

@[simp] theorem reports_modifyState {g : σ → σ} :
    ¬Reports (modifyState g : Program σ ε Unit) st e := reports_step

@[simp] theorem returns_report {u : Unit} :
    Returns (report e : Program σ ε Unit) st u st' ↔ st = st' :=
  ⟨fun ⟨_, h⟩ => by injection h, fun h => ⟨0, by rw [h]; rfl⟩⟩

@[simp] theorem reports_report {e' : ε} :
    Reports (report e : Program σ ε Unit) st e' ↔ e' = e := by
  simp [Reports, report]

@[simp] theorem returns_exit : ¬Returns (exit : Program σ ε α) st a st' := fun ⟨_, h⟩ => by
  cases h

@[simp] theorem reports_exit : ¬Reports (exit : Program σ ε α) st e := fun ⟨_, h⟩ =>
  List.not_mem_nil h

@[simp] theorem returns_diverge : ¬Returns (diverge : Program σ ε α) st a st' := fun ⟨_, h⟩ => by
  cases h

@[simp] theorem reports_diverge : ¬Reports (diverge : Program σ ε α) st e := fun ⟨_, h⟩ =>
  List.not_mem_nil h

theorem returns_bind :
    Returns (c >>= f) st b st'' ↔ ∃ a st', Returns c st a st' ∧ Returns (f a) st' b st'' := by
  constructor
  · rintro ⟨n, hn⟩
    change ((c.run n st).bind fun a st => (f a).run n st).2 = _ at hn
    rcases hc : c.run n st with ⟨log, ⟨a, st'⟩ | _ | _⟩
    · rw [hc] at hn
      exact ⟨a, st', ⟨n, by rw [hc]⟩, ⟨n, hn⟩⟩
    · rw [hc] at hn
      cases hn
    · rw [hc] at hn
      cases hn
  · rintro ⟨a, st', ⟨n, hn⟩, ⟨m, hm⟩⟩
    refine ⟨max n m, ?_⟩
    have hc := (c.grows_le (Nat.le_max_left n m) st).returned hn
    have hf := ((f a).grows_le (Nat.le_max_right n m) st').returned hm
    change ((c.run (max n m) st).bind fun a st => (f a).run (max n m) st).2 = _
    rcases hr : c.run n st with ⟨log, o⟩
    rw [hr] at hn hc
    obtain rfl : o = .returned a st' := hn
    rw [hc]
    change ((f a).run (max n m) st').2 = _
    rw [hf, hm]

theorem reports_bind :
    Reports (c >>= f) st e ↔
      Reports c st e ∨ ∃ a st', Returns c st a st' ∧ Reports (f a) st' e := by
  constructor
  · rintro ⟨n, hn⟩
    change e ∈ ((c.run n st).bind fun a st => (f a).run n st).1 at hn
    rcases hc : c.run n st with ⟨log, ⟨a, st'⟩ | _ | _⟩
    · rw [hc] at hn
      rcases List.mem_append.mp hn with hn | hn
      · exact .inl ⟨n, by rw [hc]; exact hn⟩
      · exact .inr ⟨a, st', ⟨n, by rw [hc]⟩, ⟨n, hn⟩⟩
    · rw [hc] at hn
      exact .inl ⟨n, by rw [hc]; exact hn⟩
    · rw [hc] at hn
      exact .inl ⟨n, by rw [hc]; exact hn⟩
  · rintro (⟨n, hn⟩ | ⟨a, st', ⟨n, hn⟩, ⟨m, hm⟩⟩)
    · exact ⟨n, (Progress.isPrefix_bind _ _).subset hn⟩
    · refine ⟨max n m, ?_⟩
      have hc := (c.grows_le (Nat.le_max_left n m) st).returned hn
      have hf := ((f a).grows_le (Nat.le_max_right n m) st').isPrefix.subset hm
      change e ∈ ((c.run (max n m) st).bind fun a st => (f a).run (max n m) st).1
      rcases hr : c.run n st with ⟨log, o⟩
      rw [hr] at hn hc
      obtain rfl : o = .returned a st' := hn
      rw [hc]
      exact List.mem_append_right log hf

end Rules

/-! ## Loops -/

section Loop
variable {body : Program σ ε (Option α)} {st st' st₁ : σ} {a : α} {e : ε}

/-- One round of a loop led to another. -/
def Again (body : Program σ ε (Option α)) (st st' : σ) : Prop := Returns body st none st'

/-- The first round of a loop, and the others. -/
def unrolled (body : Program σ ε (Option α)) : Program σ ε α := do
  match ← body with
  | some a => pure a
  | none => loop body

theorem unrolled_run (body : Program σ ε (Option α)) (n : ℕ) (st : σ) :
    (unrolled body).run n st = (body.run n st).bind fun
      | some a, st => ([], .returned a st)
      | none, st => rounds body n n st := by
  change (body.run n st).bind _ = _
  congr 1
  funext o st
  cases o <;> rfl

theorem loop_grows_unrolled (body : Program σ ε (Option α)) (n : ℕ) (st : σ) :
    ((loop body).run n st).Grows ((unrolled body).run n st) := by
  rw [unrolled_run]
  exact rounds_grows body n n st

theorem unrolled_grows_loop (body : Program σ ε (Option α)) (n : ℕ) (st : σ) :
    ((unrolled body).run n st).Grows ((loop body).run (n + 1) st) := by
  rw [unrolled_run]
  refine (body.grows n st).bind fun o st => ?_
  cases o with
  | some a => exact .refl _
  | none => exact rounds_grows_fuel body n n st

theorem returns_loop : Returns (loop body) st a st' ↔ Returns (unrolled body) st a st' := by
  constructor
  · rintro ⟨n, hn⟩
    exact ⟨n, by rw [(loop_grows_unrolled body n st).returned hn, hn]⟩
  · rintro ⟨n, hn⟩
    exact ⟨n + 1, by rw [(unrolled_grows_loop body n st).returned hn, hn]⟩

theorem reports_loop : Reports (loop body) st e ↔ Reports (unrolled body) st e :=
  ⟨fun ⟨n, hn⟩ => ⟨n, (loop_grows_unrolled body n st).isPrefix.subset hn⟩,
    fun ⟨n, hn⟩ => ⟨n + 1, (unrolled_grows_loop body n st).isPrefix.subset hn⟩⟩

theorem returns_loop_of_some (h : Returns body st (some a) st') : Returns (loop body) st a st' :=
  returns_loop.mpr (returns_bind.mpr ⟨_, _, h, returns_pure.mpr ⟨rfl, rfl⟩⟩)

theorem Again.returns_loop (h : Again body st st₁) (h' : Returns (loop body) st₁ a st') :
    Returns (loop body) st a st' :=
  Program.returns_loop.mpr (returns_bind.mpr ⟨_, _, h, h'⟩)

theorem Again.reports_loop (h : Again body st st₁) (h' : Reports (loop body) st₁ e) :
    Reports (loop body) st e :=
  Program.reports_loop.mpr (reports_bind.mpr (.inr ⟨_, _, h, h'⟩))

theorem reports_loop_of_body (h : Reports body st e) : Reports (loop body) st e :=
  reports_loop.mpr (reports_bind.mpr (.inl h))

/-- A loop returns what its last round gives. -/
theorem Returns.of_loop (h : Returns (loop body) st a st') :
    ∃ st₁, Relation.ReflTransGen (Again body) st st₁ ∧ Returns body st₁ (some a) st' := by
  obtain ⟨n, hn⟩ := h
  change (rounds body n n st).2 = _ at hn
  suffices ∀ k st, (rounds body n k st).2 = .returned a st' →
      ∃ st₁, Relation.ReflTransGen (Again body) st st₁ ∧ Returns body st₁ (some a) st' from
    this n st hn
  clear hn
  intro k
  induction k with
  | zero => exact fun st hn => by cases hn
  | succ k ih =>
    intro st hn
    rcases hc : body.run n st with ⟨log, ⟨o, st₁⟩ | _ | _⟩
    · have hbody : Returns body st o st₁ := ⟨n, by rw [hc]⟩
      rw [rounds, hc] at hn
      cases o with
      | some b =>
        injection hn with ha hst
        subst ha hst
        exact ⟨st, .refl, hbody⟩
      | none =>
        obtain ⟨st₂, hr, hlast⟩ := ih st₁ hn
        exact ⟨st₂, .head hbody hr, hlast⟩
    · rw [rounds, hc] at hn
      cases hn
    · rw [rounds, hc] at hn
      cases hn

/-- What a loop reports is reported by one of its rounds. -/
theorem Reports.of_loop (h : Reports (loop body) st e) :
    ∃ st₁, Relation.ReflTransGen (Again body) st st₁ ∧ Reports body st₁ e := by
  obtain ⟨n, hn⟩ := h
  change e ∈ (rounds body n n st).1 at hn
  suffices ∀ k st, e ∈ (rounds body n k st).1 →
      ∃ st₁, Relation.ReflTransGen (Again body) st st₁ ∧ Reports body st₁ e from this n st hn
  clear hn
  intro k
  induction k with
  | zero => exact fun st hn => (List.not_mem_nil hn).elim
  | succ k ih =>
    intro st hn
    have here (h : e ∈ (body.run n st).1) :
        ∃ st₁, Relation.ReflTransGen (Again body) st st₁ ∧ Reports body st₁ e :=
      ⟨st, .refl, n, h⟩
    rcases hc : body.run n st with ⟨log, ⟨o, st₁⟩ | _ | _⟩
    · rw [rounds, hc] at hn
      rcases List.mem_append.mp hn with hn | hn
      · exact here (by rw [hc]; exact hn)
      · cases o with
        | some b => exact (List.not_mem_nil hn).elim
        | none =>
          obtain ⟨st₂, hr, hlast⟩ := ih st₁ hn
          exact ⟨st₂, .head ⟨n, by rw [hc]⟩ hr, hlast⟩
    · rw [rounds, hc] at hn
      exact here (by rw [hc]; exact hn)
    · rw [rounds, hc] at hn
      exact here (by rw [hc]; exact hn)

end Loop

/-! ## What a program does to the state -/

/-- Whenever the program returns, it has led from a state to one that `R` relates to it. -/
def Leads (R : σ → σ → Prop) (c : Program σ ε α) : Prop :=
  ∀ ⦃st a st'⦄, Returns c st a st' → R st st'

section Leads
variable {R : σ → σ → Prop}

theorem Leads.step {g : σ → α × σ} (h : ∀ st, R st (g st).2) :
    Leads R (step g : Program σ ε α) := fun st a st' hr => by
  rw [returns_step] at hr
  have := h st
  rwa [hr] at this

theorem Leads.modifyState {g : σ → σ} (h : ∀ st, R st (g st)) :
    Leads R (modifyState g : Program σ ε Unit) := .step h

theorem Leads.exit : Leads R (exit : Program σ ε α) := fun _ _ _ hr => (returns_exit hr).elim

theorem Leads.diverge : Leads R (diverge : Program σ ε α) := fun _ _ _ hr =>
  (returns_diverge hr).elim

variable [IsPreorder σ R]

theorem Leads.pure (a : α) : Leads R (pure a : Program σ ε α) := fun _ _ _ hr => by
  obtain ⟨-, rfl⟩ := returns_pure.mp hr
  exact refl_of R _

theorem Leads.getState : Leads R (getState : Program σ ε σ) := .step fun st => refl_of R st

theorem Leads.report (e : ε) : Leads R (report e : Program σ ε Unit) := fun _ _ _ hr => by
  obtain rfl := returns_report.mp hr
  exact refl_of R _

theorem Leads.bind {c : Program σ ε α} {f : α → Program σ ε β} (h : Leads R c)
    (hf : ∀ a, Leads R (f a)) : Leads R (c >>= f) := fun _ _ _ hr => by
  obtain ⟨a, st₁, h₁, h₂⟩ := returns_bind.mp hr
  exact trans_of R (h h₁) (hf a h₂)

theorem Leads.again {body : Program σ ε (Option α)} (h : Leads R body) {st st' : σ}
    (hr : Relation.ReflTransGen (Again body) st st') : R st st' := by
  induction hr with
  | refl => exact refl_of R st
  | tail _ hlast ih => exact trans_of R ih (h hlast)

theorem Leads.loop {body : Program σ ε (Option α)} (h : Leads R body) : Leads R (loop body) :=
  fun _ _ _ hr => by
    obtain ⟨st₁, hagain, hlast⟩ := hr.of_loop
    exact trans_of R (h.again hagain) (h hlast)

end Leads

/-! ## Total correctness -/

/-- The program returns, and `Q` is true of what it returns and leaves. -/
def Halts (c : Program σ ε α) (st : σ) (Q : α → σ → Prop) : Prop :=
  ∃ a st', Returns c st a st' ∧ Q a st'

section Halts
variable {c : Program σ ε α} {f : α → Program σ ε β} {st : σ} {Q Q' : α → σ → Prop}

theorem Halts.mono (h : Halts c st Q) (hQ : ∀ a st', Q a st' → Q' a st') : Halts c st Q' := by
  obtain ⟨a, st', hr, hq⟩ := h
  exact ⟨a, st', hr, hQ a st' hq⟩

theorem Halts.pure {a : α} (h : Q a st) : Halts (pure a : Program σ ε α) st Q :=
  ⟨a, st, returns_pure.mpr ⟨rfl, rfl⟩, h⟩

theorem Halts.step {g : σ → α × σ} (h : Q (g st).1 (g st).2) : Halts (step g : Program σ ε α) st Q :=
  ⟨_, _, returns_step.mpr rfl, h⟩

theorem Halts.getState {Q : σ → σ → Prop} (h : Q st st) : Halts (getState : Program σ ε σ) st Q :=
  .step h

theorem Halts.modifyState {g : σ → σ} {Q : Unit → σ → Prop} (h : Q () (g st)) :
    Halts (modifyState g : Program σ ε Unit) st Q := .step h

theorem Halts.report {e : ε} {Q : Unit → σ → Prop} (h : Q () st) :
    Halts (report e : Program σ ε Unit) st Q :=
  ⟨(), st, returns_report.mpr rfl, h⟩

theorem Halts.bind {Q : β → σ → Prop} (h : Halts c st fun a st' => Halts (f a) st' Q) :
    Halts (c >>= f) st Q := by
  obtain ⟨a, st', hc, b, st'', hf, hq⟩ := h
  exact ⟨b, st'', returns_bind.mpr ⟨a, st', hc, hf⟩, hq⟩

/-- A loop whose first round gives a value. -/
theorem Halts.loop {body : Program σ ε (Option α)}
    (h : Halts body st fun o st' => ∃ a, o = some a ∧ Q a st') : Halts (loop body) st Q := by
  obtain ⟨-, st', hr, a, rfl, hq⟩ := h
  exact ⟨a, st', returns_loop_of_some hr, hq⟩

end Halts

end Program

/-! ## Loops that may fail -/

/-- What every round of a loop keeps is true when the loop is done. -/
theorem foldlM_keeps {P : β → Prop} {f : β → α → Except ε β}
    (hf : ∀ b a b', P b → f b a = .ok b' → P b') {l : List α} {b b' : β} (hb : P b)
    (h : l.foldlM f b = .ok b') : P b' := by
  induction l generalizing b with
  | nil => exact Except.ok.inj h ▸ hb
  | cons a l ih =>
    rw [List.foldlM_cons] at h
    cases ha : f b a with
    | error e => simp [ha, bind, Except.bind] at h
    | ok b₁ =>
      rw [ha] at h
      exact ih (hf b a b₁ hb ha) h

/-! ## Functions with fuel -/

/-- With enough fuel a function has a result, and always this one. -/
def Terminates (f : ℕ → Option α) (a : α) : Prop := ∃ n, ∀ fuel, n ≤ fuel → f fuel = some a

namespace Terminates

variable {f g : ℕ → Option α} {a : α} {b : β}

theorem pure (a : α) : Terminates (fun _ => some a) a := ⟨0, fun _ _ => rfl⟩

theorem of_succ (h : ∀ fuel, f (fuel + 1) = g fuel) (hg : Terminates g a) : Terminates f a := by
  obtain ⟨n, hn⟩ := hg
  refine ⟨n + 1, fun fuel hfuel => ?_⟩
  obtain ⟨k, rfl⟩ := Nat.exists_eq_add_of_le' hfuel
  rw [← Nat.add_assoc, h]
  exact hn _ (Nat.le_add_left n k)

theorem bind {k : α → ℕ → Option β} (hf : Terminates f a) (hk : Terminates (k a) b) :
    Terminates (fun fuel => (f fuel).bind fun x => k x fuel) b := by
  obtain ⟨n, hn⟩ := hf
  obtain ⟨m, hm⟩ := hk
  refine ⟨max n m, fun fuel hfuel => ?_⟩
  have hf : f fuel = some a := hn fuel (Nat.le_trans (Nat.le_max_left n m) hfuel)
  have hk : k a fuel = some b := hm fuel (Nat.le_trans (Nat.le_max_right n m) hfuel)
  change (f fuel).bind (fun x => k x fuel) = some b
  rw [hf, Option.bind_some, hk]

end Terminates
