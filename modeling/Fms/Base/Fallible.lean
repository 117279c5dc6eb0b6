import Mathlib.Tactic.Common

/-! Computations that carry a state and can fail: what a run yields, and loops. -/

namespace Fallible

/-- A failure keeps the state it came up in. -/
abbrev Action (ε σ α : Type) := ExceptT ε (StateM σ) α

variable {ε σ α β : Type}

/-- Started in `s`, the computation returns `a` and leaves `s'`. -/
def Yields (m : Action ε σ α) (s : σ) (a : α) (s' : σ) : Prop := m s = (.ok a, s')

variable {m : Action ε σ α} {f : α → Action ε σ β} {s s' : σ} {a a' : α} {b : β}

theorem Yields.unique {s'' : σ} (one : Yields m s a s') (other : Yields m s a' s'') : a' = a ∧ s'' = s' := by
  cases one.symm.trans other
  exact ⟨rfl, rfl⟩

theorem yields_pure : Yields (pure a : Action ε σ α) s a' s' ↔ a' = a ∧ s' = s := by
  refine ⟨fun run => ?_, fun ⟨result, state⟩ => result ▸ state ▸ rfl⟩
  cases run
  exact ⟨rfl, rfl⟩

theorem yields_throw {e : ε} : ¬ Yields (throw e : Action ε σ α) s a s' := fun run => by cases run

variable {t : σ}

theorem bind_ok (first : m s = (.ok a, t)) : (m >>= f) s = f a t := by
  show (match m s with | (r, t) => ExceptT.bindCont f r t) = f a t
  rw [first]
  rfl

theorem bind_error {e : ε} (first : m s = (.error e, t)) : (m >>= f) s = (.error e, t) := by
  show (match m s with | (r, t) => ExceptT.bindCont f r t) = (.error e, t)
  rw [first]
  rfl

theorem map_apply (m : Action ε σ α) (g : α → β)
    (s : σ) : (do return g (← m) : Action ε σ β) s = ((m s).1.map g, (m s).2) := by
  rcases run : m s with ⟨result, t⟩
  cases result with
  | ok a => exact bind_ok run
  | error e => exact bind_error run

theorem tryCatch_ok {handler : ε → Action ε σ α} (body : m s = (.ok a, t)) :
    (tryCatch m handler : Action ε σ α) s = (.ok a, t) := by
  show (match m s with
    | (r, t) => (match r with
      | .ok a => pure (.ok a)
      | .error e => handler e : StateM σ (Except ε α)) t) = _
  rw [body]
  rfl

theorem tryCatch_error {handler : ε → Action ε σ α} {e : ε} (body : m s = (.error e, t)) :
    (tryCatch m handler : Action ε σ α) s = handler e t := by
  show (match m s with
    | (r, t) => (match r with
      | .ok a => pure (.ok a)
      | .error e => handler e : StateM σ (Except ε α)) t) = _
  rw [body]

theorem yields_bind : Yields (m >>= f) s b s' ↔ ∃ a t, Yields m s a t ∧ Yields (f a) t b s' := by
  refine ⟨fun run => ?_, fun ⟨a, t, first, second⟩ => (bind_ok first).trans second⟩
  rcases first : m s with ⟨result, t⟩
  cases result with
  | error e => cases run.symm.trans (bind_error first)
  | ok a => exact ⟨a, t, first, (bind_ok first).symm.trans run⟩

theorem yields_get : Yields (get : Action ε σ σ) s t s' ↔ t = s ∧ s' = s := yields_pure

theorem yields_modify {g : σ → σ} {u : Unit} : Yields (modify g : Action ε σ Unit) s u s' ↔ s' = g s := by
  refine ⟨fun run => ?_, fun same => same ▸ rfl⟩
  cases run
  rfl

theorem yields_ite {c : Prop} [Decidable c] {m' : Action ε σ α} :
    Yields (if c then m else m') s a s' ↔ c ∧ Yields m s a s' ∨ ¬ c ∧ Yields m' s a s' := by
  split <;> simp [*]

/-- The computation with a step that is taken on every exit from it, as a destructor is. -/
def guarded (leave : σ → σ) (m : Action ε σ α) : Action ε σ α := fun s => ((m s).1, leave (m s).2)

theorem yields_guarded {leave : σ → σ} : Yields (guarded leave m) s a s' ↔ ∃ t, Yields m s a t ∧ s' = leave t := by
  constructor
  · intro run
    have result := congrArg Prod.fst run
    have state := congrArg Prod.snd run
    exact ⟨(m s).2, Prod.ext result rfl, state.symm⟩
  · rintro ⟨t, run, rfl⟩
    show ((m s).1, leave (m s).2) = _
    rw [show m s = (.ok a, t) from run]

/-- The body `n` times in a row. -/
def times : Nat → Action ε σ Unit → Action ε σ Unit
  | 0, _ => pure ()
  | n + 1, body => do
    body
    times n body

/-- The body until it answers no; `spent` where the fuel runs out first. -/
def loop (spent : ε) (body : Action ε σ Bool) : Nat → Action ε σ Unit
  | 0 => throw spent
  | fuel + 1 => do
    if ← body then loop spent body fuel else pure ()

/-- Rounds over a value, until one ends with a result; `spent` where the fuel runs out first. -/
def iterate (spent : ε) (round : α → Action ε σ (α ⊕ β)) : Nat → α → Action ε σ β
  | 0, _ => throw spent
  | fuel + 1, a => do
    match ← round a with
    | .inl next => iterate spent round fuel next
    | .inr b => return b

theorem times_rule {body : Action ε σ Unit} {I : σ → Prop}
    (keeps : ∀ {s s'}, I s → Yields body s () s' → I s') {n : Nat}
    (start : I s) (run : Yields (times n body) s () s') : I s' := by
  induction n generalizing s with
  | zero =>
    obtain ⟨_, rfl⟩ := yields_pure.mp run
    exact start
  | succ n ih =>
    obtain ⟨_, t, first, rest⟩ := yields_bind.mp run
    exact ih (keeps start first) rest

theorem loop_rule {spent : ε} {body : Action ε σ Bool} {I : σ → Prop}
    (keeps : ∀ {s s' b}, I s → Yields body s b s' → I s') {fuel : Nat} (start : I s)
    (run : Yields (loop spent body fuel) s () s') : I s' := by
  induction fuel generalizing s with
  | zero => exact absurd run yields_throw
  | succ fuel ih =>
    obtain ⟨more, t, first, rest⟩ := yields_bind.mp run
    have kept := keeps start first
    cases more with
    | false =>
      obtain ⟨_, rfl⟩ := yields_pure.mp rest
      exact kept
    | true => exact ih kept rest

/-- What the first computation yields, the second does too. -/
def Refines (m m' : Action ε σ α) : Prop := ∀ ⦃s a s'⦄, Yields m s a s' → Yields m' s a s'

namespace Refines

theorem refl (m : Action ε σ α) : Refines m m := fun _ _ _ run => run

theorem throw (e : ε) (m : Action ε σ α) : Refines (throw e) m := fun _ _ _ run => absurd run yields_throw

theorem bind {m m' : Action ε σ α} {f f' : α → Action ε σ β} (first : Refines m m')
    (second : ∀ a, Refines (f a) (f' a)) :
    Refines (m >>= f) (m' >>= f') := by
  intro s b s' run
  obtain ⟨a, t, one, two⟩ := yields_bind.mp run
  exact yields_bind.mpr ⟨a, t, first one, second a two⟩

theorem ite {c : Prop} [Decidable c] {m m' k k' : Action ε σ α} (yes : Refines m m') (no : Refines k k') :
    Refines (if c then m else k) (if c then m' else k') := by
  split
  · exact yes
  · exact no

theorem guarded {m m' : Action ε σ α} (inner : Refines m m') (leave : σ → σ) :
    Refines (guarded leave m) (guarded leave m') := by
  intro s a s' run
  obtain ⟨t, body, same⟩ := yields_guarded.mp run
  exact yields_guarded.mpr ⟨t, inner body, same⟩

theorem times {body body' : Action ε σ Unit} (each : Refines body body') (n : Nat) :
    Refines (times n body) (times n body') := by
  induction n with
  | zero => exact refl _
  | succ n ih => exact each.bind fun _ => ih

theorem loop {spent : ε} {body body' : Action ε σ Bool} (each : Refines body body') (fuel : Nat) :
    Refines (loop spent body fuel) (loop spent body' fuel) := by
  induction fuel with
  | zero => exact refl _
  | succ fuel ih => exact each.bind fun _ => .ite ih (refl _)

end Refines

/-- From every state with `P`, a return leaves `Q` and a failure leaves `E`. -/
def Ensures (P : σ → Prop) (m : Action ε σ α) (Q : α → σ → Prop) (E : σ → Prop) : Prop :=
  ∀ ⦃s⦄, P s → match m s with
    | (.ok a, t) => Q a t
    | (.error _, t) => E t

namespace Ensures
variable {P : σ → Prop} {Q : β → σ → Prop} {R : α → σ → Prop} {E F : σ → Prop}

theorem yields {s s' : σ} {a : α} (triple : Ensures P m R E) (before : P s) (run : Yields m s a s') : R a s' := by
  have after := triple before
  rwa [show m s = (.ok a, s') from run] at after

theorem fails {s s' : σ} {e : ε} (triple : Ensures P m R E) (before : P s) (run : m s = (.error e, s')) : E s' := by
  have after := triple before
  rwa [run] at after

theorem intro (triple : ∀ ⦃s⦄, P s → (∀ a s', m s = (.ok a, s') → R a s') ∧ ∀ e s', m s = (.error e, s') → E s') :
    Ensures P m R E := by
  intro s before
  rcases run : m s with ⟨result, t⟩
  cases result with
  | ok a => exact (triple before).1 a t run
  | error e => exact (triple before).2 e t run

theorem weaken {P' : σ → Prop} {R' : α → σ → Prop} {E' : σ → Prop} (triple : Ensures P m R E)
    (pre : ∀ s, P' s → P s) (post : ∀ a s, R a s → R' a s) (failed : ∀ s, E s → E' s) : Ensures P' m R' E' :=
  .intro fun s before => ⟨fun a s' run => post a s' (triple.yields (pre s before) run),
    fun _ s' run => failed s' (triple.fails (pre s before) run)⟩

theorem bind (first : Ensures P m R E) (second : ∀ a, Ensures (R a) (f a) Q E) : Ensures P (m >>= f) Q E := by
  intro s before
  rcases run : m s with ⟨result, t⟩
  cases result with
  | ok a =>
    rw [bind_ok run]
    exact second a (first.yields before run)
  | error e =>
    rw [bind_error run]
    exact first.fails before run

theorem ite {c : Prop} [Decidable c] {m' : Action ε σ α} (yes : Ensures P m R E) (no : Ensures P m' R E) :
    Ensures P (if c then m else m') R E := by
  split
  · exact yes
  · exact no

theorem guarded {leave : σ → σ} (inner : Ensures P m (fun a s => R a (leave s)) fun s => E (leave s)) :
    Ensures P (guarded leave m) R E := by
  intro s before
  show match ((m s).1, leave (m s).2) with
    | (.ok a, t) => R a t
    | (.error _, t) => E t
  have after := inner before
  rcases run : m s with ⟨result, t⟩
  rw [run] at after
  cases result with
  | ok a => exact after
  | error e => exact after

theorem times {I : σ → Prop} {body : Action ε σ Unit} (each : Ensures I body (fun _ => I) E) (n : Nat) :
    Ensures I (times n body) (fun _ => I) E := by
  induction n with
  | zero => exact fun _ before => before
  | succ n ih => exact each.bind fun _ => ih

theorem loop {I : σ → Prop} {spent : ε} {body : Action ε σ Bool} (each : Ensures I body (fun _ => I) E)
    (ended : ∀ s, I s → E s) (fuel : Nat) : Ensures I (loop spent body fuel) (fun _ => I) E := by
  induction fuel with
  | zero => exact fun s before => ended s before
  | succ fuel ih => exact each.bind fun _ => ih.ite fun _ before => before

theorem iterate {I : α → σ → Prop} {spent : ε} {round : α → Action ε σ (α ⊕ β)}
    (each : ∀ a, Ensures (I a) (round a) (fun outcome s => outcome.elim (I · s) (Q · s)) E)
    (ended : ∀ a s, I a s → E s) (fuel : Nat) (a : α) : Ensures (I a) (iterate spent round fuel a) Q E := by
  induction fuel generalizing a with
  | zero => exact fun s before => ended a s before
  | succ fuel ih =>
    refine (each a).bind fun outcome => ?_
    cases outcome with
    | inl next => exact ih next
    | inr b => exact fun _ after => after

theorem tryCatch {handler : ε → Action ε σ α} (body : Ensures P m R F) (handles : ∀ e, Ensures F (handler e) R E) :
    Ensures P (tryCatch m handler) R E := by
  intro s before
  rcases run : m s with ⟨result, t⟩
  cases result with
  | ok a =>
    rw [tryCatch_ok run]
    exact body.yields before run
  | error e =>
    rw [tryCatch_error run]
    exact handles e (body.fails before run)

end Ensures
end Fallible
