import Fms.Amf.Amf0

namespace Fms.Amf
open ByteWire Fallible

variable {fuel : Nat}

/-- What the pointers to AMF0 and AMF3 values point at. -/
structure ValueGraph (α β : Type) where
  amf0 : α → Node0 α β
  amf3 : β → Node3 β

def Part.map {γ δ : Type} (f : γ → δ) : Part γ → Part δ
  | .bytes own => .bytes own
  | .value inner => .value (f inner)

namespace ValueGraph
variable {α β : Type}

/-- What the switches of the two `write`s do with a value. -/
def parts (g : ValueGraph α β) : α ⊕ β → List (Part (α ⊕ β))
  | .inl value => Amf0.writeNode (g.amf0 value)
  | .inr value => (Amf3.writeNode (g.amf3 value)).map (Part.map .inr)

end ValueGraph

/-- A `frame` that was made: its depth, the size of the output, and whether the node went on. -/
structure Visit where
  depth : Nat
  size : Nat
  ok : Bool

/-- The output and the thread's counters of `amf_write_budget`. `visits` records the frames made
since the budget was last reset. -/
structure Writer where
  buffer : Bytes := []
  depth : Nat := 0
  scopes : Nat := 0
  nodes : Nat := 0
  origin : Nat := 0
  visits : List Visit := []
  fits : buffer.length < 2 ^ 64 := by decide

/-- What ends a write early. A run of the model that is cut off is `spent`. -/
inductive Halt
  | refused (e : AmfError)
  | noMemory
  | spent

abbrev Write := Action Halt Writer

namespace Writer

def emitted (s : Writer) : Nat := wrap64 (2 ^ 64 + s.buffer.length - s.origin)

def reset (s : Writer) : Writer := { s with nodes := 0, origin := s.buffer.length, visits := [] }

/-- Outside every scope, a value has a budget of its own. -/
def start (s : Writer) : Writer := if s.depth = 0 ∧ s.scopes = 0 then s.reset else s

def charge (s : Writer) : Bool × Writer :=
  let depth := s.depth + 1
  let nodes := if depth ≤ WriteBudget.eMaxDepth then s.nodes + 1 else s.nodes
  let ok := decide
    (depth ≤ WriteBudget.eMaxDepth ∧ nodes ≤ WriteBudget.eMaxNodes ∧ s.emitted < WriteBudget.eMaxBytes)
  (ok, { s with depth, nodes, visits := s.visits ++ [{ depth, size := s.buffer.length, ok }] })

def leave (s : Writer) : Writer := { s with depth := s.depth - 1 }

/-- A `frame` around the writing of one node. -/
def framed (refusal : AmfError) (body : Write Unit) : Write Unit :=
  guarded leave do
    let (ok, s) := (← get).start.charge
    set s
    if ok then body else throw (.refused refusal)

/-- A `std::vector` that cannot grow throws. -/
def append (bytes : Bytes) : Write Unit := fun s =>
  if fits : (s.buffer ++ bytes).length < 2 ^ 64 then (.ok (), { s with buffer := s.buffer ++ bytes, fits })
  else (.error .noMemory, s)

def openScope (s : Writer) : Writer := { (if s.scopes = 0 then s.reset else s) with scopes := s.scopes + 1 }

def closeScope (s : Writer) : Writer := { s with scopes := s.scopes - 1 }

/-- `amf_write_budget::scope` around some writes. -/
def inScope (body : Write Unit) : Write Unit :=
  guarded closeScope do
    modify openScope
    body

def emit {γ : Type} (write : γ → Write Unit) : List (Part γ) → Write Unit
  | [] => return
  | .bytes own :: rest => do
    append own
    emit write rest
  | .value inner :: rest => do
    write inner
    emit write rest

section
variable {α β : Type}

def refusal : α ⊕ β → AmfError
  | .inl _ => .amf0Write
  | .inr _ => .amf3Write

/-- The two `write`s, which call each other, as far as `fuel` calls deep. -/
def write (g : ValueGraph α β) : Nat → α ⊕ β → Write Unit
  | 0, _ => throw .spent
  | fuel + 1, value => framed (refusal value) (emit (write g fuel) (g.parts value))

end

/-- What is done in a scope: values and bytes are written, and scopes opened in it. -/
inductive Job (γ : Type)
  | done
  | write (value : γ) (rest : Job γ)
  | append (bytes : Bytes) (rest : Job γ)
  | scope (inner rest : Job γ)

variable {α β : Type}

def Job.run (g : ValueGraph α β) (fuel : Nat) : Job (α ⊕ β) → Write Unit
  | .done => return
  | .write value rest => do
    Writer.write g fuel value
    rest.run g fuel
  | .append bytes rest => do
    Writer.append bytes
    rest.run g fuel
  | .scope inner rest => do
    inScope (inner.run g fuel)
    rest.run g fuel

/-- What has a budget of its own: an outermost scope, or a value written outside every scope. -/
inductive Outermost (γ : Type)
  | scope (job : Job γ)
  | single (value : γ)

def Outermost.run (g : ValueGraph α β) (fuel : Nat) : Outermost (α ⊕ β) → Write Unit
  | .scope job => inScope (job.run g fuel)
  | .single value => Writer.write g fuel value

/-- `s_depth` and `s_scopes`. -/
structure At (depth scopes : Nat) (s : Writer) : Prop where
  depth : s.depth = depth
  scopes : s.scopes = scopes

/-- Whatever the two counters are, they are that again on every exit. -/
def Restores (m : Write Unit) : Prop :=
  ∀ depth scopes, Ensures (At depth scopes) m (fun _ => At depth scopes) (At depth scopes)

variable {P E : Writer → Prop} {m m' : Write Unit} {s : Writer}

@[simp] theorem start_depth (s : Writer) : s.start.depth = s.depth := by unfold start; split <;> rfl
@[simp] theorem start_scopes (s : Writer) : s.start.scopes = s.scopes := by unfold start; split <;> rfl

theorem framed_apply (refusal : AmfError) (body : Write Unit) (s : Writer) : framed refusal body s =
    if s.start.charge.1 then ((body s.start.charge.2).1, leave (body s.start.charge.2).2)
    else (.error (.refused refusal), leave s.start.charge.2) := by
  show ((if s.start.charge.1 then body else throw (.refused refusal) : Write Unit) s.start.charge.2 |>.1,
    leave ((if s.start.charge.1 then body else throw (.refused refusal) : Write Unit) s.start.charge.2).2) = _
  split <;> rfl

variable {refusal : AmfError}

theorem framed_rule {Q : Writer → Prop}
    (goes : ∀ s, P s → s.start.charge.1 = true → Q s.start.charge.2)
    (stops : ∀ s, P s → s.start.charge.1 = false → E s.start.charge.2) (body : Ensures Q m (fun _ => Q) E)
    {P' E' : Writer → Prop} (back : ∀ s, Q s → P' s.leave) (failed : ∀ s, E s → E' s.leave) :
    Ensures P (framed refusal m) (fun _ => P') E' := by
  intro s before
  rw [framed_apply]
  cases ok : s.start.charge.1 with
  | false => exact failed _ (stops s before ok)
  | true =>
    have after := body (goes s before ok)
    rcases run : m s.start.charge.2 with ⟨result, t⟩
    rw [run] at after
    rw [if_pos rfl]
    cases result with
    | ok => exact back t after
    | error => exact failed t after

theorem inScope_rule {P' Q E' : Writer → Prop} (opened : ∀ s, P s → Q s.openScope) (body : Ensures Q m (fun _ => Q) E)
    (back : ∀ s, Q s → P' s.closeScope) (failed : ∀ s, E s → E' s.closeScope) :
    Ensures P (inScope m) (fun _ => P') E' := by
  refine .guarded (.bind (R := fun _ => Q) (fun s before => opened s before) fun _ => ?_)
  exact body.weaken (fun _ inside => inside) (fun _ => back) failed

theorem Restores.seq (first : Restores m) (second : Restores m') : Restores (do m; m') :=
  fun depth scopes => (first depth scopes).bind fun _ => second depth scopes

theorem Restores.framed (body : Restores m) (refusal : AmfError) : Restores (framed refusal m) := by
  intro depth scopes
  have entered (s : Writer) (here : At depth scopes s) : At (depth + 1) scopes s.start.charge.2 :=
    ⟨congrArg (· + 1) ((start_depth s).trans here.depth), (start_scopes s).trans here.scopes⟩
  have left (s : Writer) (inside : At (depth + 1) scopes s) : At depth scopes s.leave :=
    ⟨congrArg (· - 1) inside.depth, inside.scopes⟩
  exact framed_rule (fun s here _ => entered s here) (fun s here _ => entered s here)
    (body (depth + 1) scopes) left left

theorem Restores.inScope (body : Restores m) : Restores (inScope m) := by
  intro depth scopes
  have opened (s : Writer) (here : At depth scopes s) : At depth (scopes + 1) s.openScope := by
    refine ⟨?_, congrArg (· + 1) here.scopes⟩
    rw [← here.depth]
    unfold openScope
    split <;> rfl
  have closed (s : Writer) (inside : At depth (scopes + 1) s) : At depth scopes s.closeScope :=
    ⟨inside.depth, congrArg (· - 1) inside.scopes⟩
  exact inScope_rule opened (body depth (scopes + 1)) closed closed

theorem append_rule {bytes : Bytes} (kept : ∀ s fits, P s → P { s with buffer := s.buffer ++ bytes, fits })
    (failed : ∀ s, P s → E s) : Ensures P (append bytes) (fun _ => P) E := by
  intro s before
  unfold append
  split
  · rename_i result state run
    split at run
    · cases run
      exact kept s _ before
    · cases run
  · rename_i result state run
    split at run
    · cases run
    · cases run
      exact failed s before

theorem restores_append (bytes : Bytes) : Restores (append bytes) :=
  fun _ _ => append_rule (fun _ _ here => ⟨here.depth, here.scopes⟩) fun _ here => here

theorem emit_rule {γ : Type} {write : γ → Write Unit} (each : ∀ x, Ensures P (write x) (fun _ => P) E)
    (bytes : ∀ own, Ensures P (append own) (fun _ => P) E) (parts : List (Part γ)) :
    Ensures P (emit write parts) (fun _ => P) E := by
  induction parts with
  | nil => exact fun _ here => here
  | cons part parts ih =>
    cases part with
    | bytes own => exact (bytes own).bind fun _ => ih
    | value inner => exact (each inner).bind fun _ => ih

theorem restores_write (g : ValueGraph α β) (fuel : Nat) (value : α ⊕ β) : Restores (write g fuel value) := by
  induction fuel generalizing value with
  | zero => exact fun _ _ _ here => here
  | succ fuel ih =>
    refine Restores.framed (fun depth scopes => ?_) _
    exact emit_rule (fun inner => ih inner depth scopes) (fun own => restores_append own depth scopes) _

theorem restores_job (g : ValueGraph α β) (fuel : Nat) (job : Job (α ⊕ β)) : Restores (job.run g fuel) := by
  induction job with
  | done => exact fun _ _ _ here => here
  | write value rest ih => exact (restores_write g fuel value).seq ih
  | append bytes rest ih => exact (restores_append bytes).seq ih
  | scope inner rest inside ih => exact inside.inScope.seq ih

/-- Every frame went on so far, each was counted, and the budget is not overdrawn. -/
structure Sane (depth scopes origin : Nat) (s : Writer) : Prop where
  depth : s.depth = depth
  scopes : s.scopes = scopes
  since : s.origin = origin
  started : s.origin ≤ s.buffer.length
  counted : s.visits.length = s.nodes
  nodes : s.nodes ≤ WriteBudget.eMaxNodes
  each : ∀ v ∈ s.visits, v.depth ≤ WriteBudget.eMaxDepth + 1 ∧ (v.ok = true → v.size < origin + WriteBudget.eMaxBytes)

/-- At most one frame more than the budget allows was made. -/
structure Bounded (origin : Nat) (s : Writer) : Prop where
  few : s.visits.length ≤ WriteBudget.eMaxNodes + 1
  each : ∀ v ∈ s.visits, v.depth ≤ WriteBudget.eMaxDepth + 1 ∧ (v.ok = true → v.size < origin + WriteBudget.eMaxBytes)

variable {depth scopes origin : Nat}

theorem Sane.bounded (sane : Sane depth scopes origin s) : Bounded origin s :=
  ⟨(sane.counted.trans_le sane.nodes).trans (Nat.le_succ _), sane.each⟩

theorem emitted_eq (started : s.origin ≤ s.buffer.length) : s.emitted = s.buffer.length - s.origin := by
  have fits := s.fits
  unfold emitted wrap64
  rw [Nat.add_sub_assoc started, Nat.add_mod_left]
  exact Nat.mod_eq_of_lt (by omega)

theorem Sane.visit (sane : Sane depth scopes origin s) (shallow : depth ≤ WriteBudget.eMaxDepth) :
    ∀ v ∈ s.charge.2.visits, v.depth ≤ WriteBudget.eMaxDepth + 1 ∧
      (v.ok = true → v.size < origin + WriteBudget.eMaxBytes) := by
  intro v member
  rcases List.mem_append.mp member with old | new
  · exact sane.each v old
  · rw [List.mem_singleton.mp new]
    have inside := sane.depth
    refine ⟨by simp only; omega, fun ok => ?_⟩
    have small := (of_decide_eq_true ok).2.2
    rw [emitted_eq sane.started, sane.since] at small
    have started := sane.since ▸ sane.started
    simp only
    omega

theorem Sane.charge (sane : Sane depth scopes origin s) (shallow : depth ≤ WriteBudget.eMaxDepth)
    (ok : s.charge.1 = true) :
    Sane (depth + 1) scopes origin s.charge.2 ∧ depth + 1 ≤ WriteBudget.eMaxDepth := by
  obtain ⟨below, few, _⟩ := of_decide_eq_true ok
  have counts : s.charge.2.nodes = s.nodes + 1 := if_pos below
  refine ⟨⟨congrArg (· + 1) sane.depth, sane.scopes, sane.since, sane.started, ?_, few, sane.visit shallow⟩,
    sane.depth ▸ below⟩
  rw [counts, ← sane.counted]
  exact List.length_append

theorem Sane.charge_refused (sane : Sane depth scopes origin s)
    (shallow : depth ≤ WriteBudget.eMaxDepth) : Bounded origin s.charge.2 := by
  refine ⟨?_, sane.visit shallow⟩
  have length : s.charge.2.visits.length = s.visits.length + 1 := List.length_append
  rw [length, sane.counted]
  exact Nat.succ_le_succ sane.nodes

theorem framed_visits (shallow : depth ≤ WriteBudget.eMaxDepth)
    (body : depth + 1 ≤ WriteBudget.eMaxDepth →
      Ensures (Sane (depth + 1) scopes origin) m (fun _ => Sane (depth + 1) scopes origin) (Bounded origin)) :
    Ensures (fun s => Sane depth scopes origin s.start) (framed refusal m) (fun _ => Sane depth scopes origin)
      (Bounded origin) := by
  by_cases below : depth + 1 ≤ WriteBudget.eMaxDepth
  · refine framed_rule (fun s sane ok => (sane.charge shallow ok).1) (fun s sane _ => sane.charge_refused shallow)
      (body below) (fun s inside => ?_) fun s stopped => ⟨stopped.few, stopped.each⟩
    exact ⟨congrArg (· - 1) inside.depth, inside.scopes, inside.since, inside.started, inside.counted, inside.nodes,
      inside.each⟩
  · intro s sane
    have refused : s.start.charge.1 = false := Bool.eq_false_iff.mpr fun ok => below (sane.charge shallow ok).2
    rw [framed_apply, if_neg (Bool.eq_false_iff.mp refused)]
    have stopped := sane.charge_refused shallow
    exact ⟨stopped.few, stopped.each⟩

/-- Where a value or a scope is open, no budget is started. -/
theorem Sane.start (sane : Sane depth scopes origin s)
    (inside : 0 < depth ∨ 0 < scopes) : Sane depth scopes origin s.start := by
  have kept : s.start = s := if_neg (by rw [sane.depth, sane.scopes]; omega)
  rwa [kept]

theorem append_visits (bytes : Bytes) :
    Ensures (Sane depth scopes origin) (append bytes) (fun _ => Sane depth scopes origin) (Bounded origin) := by
  refine append_rule (fun s _ sane => ⟨sane.depth, sane.scopes, sane.since, ?_, sane.counted, sane.nodes, sane.each⟩)
    fun _ => Sane.bounded
  exact sane.started.trans (by simp)

theorem write_visits (g : ValueGraph α β) (fuel : Nat) (value : α ⊕ β) (shallow : depth ≤ WriteBudget.eMaxDepth)
    (inside : 0 < depth ∨ 0 < scopes) :
    Ensures (Sane depth scopes origin) (write g fuel value) (fun _ => Sane depth scopes origin) (Bounded origin) := by
  induction fuel generalizing value depth with
  | zero => exact fun _ sane => sane.bounded
  | succ fuel ih =>
    refine (framed_visits shallow fun below => ?_).weaken (fun _ sane => sane.start inside)
      (fun _ _ sane => sane) fun _ => id
    exact emit_rule (fun inner => ih inner below (.inl depth.succ_pos)) append_visits _

theorem job_visits (g : ValueGraph α β) (fuel : Nat) (job : Job (α ⊕ β)) (inside : 0 < scopes) :
    Ensures (Sane 0 scopes origin) (job.run g fuel) (fun _ => Sane 0 scopes origin) (Bounded origin) := by
  induction job generalizing scopes with
  | done => exact fun _ sane => sane
  | write value rest ih => exact (write_visits g fuel value (Nat.zero_le _) (.inr inside)).bind fun _ => ih inside
  | append bytes rest ih => exact (append_visits bytes).bind fun _ => ih inside
  | scope inner rest within ih =>
    refine .bind (R := fun _ => Sane 0 scopes origin) ?_ fun _ => ih inside
    have opened (s : Writer) (sane : Sane 0 scopes origin s) : Sane 0 (scopes + 1) origin s.openScope := by
      have kept : s.openScope = { s with scopes := s.scopes + 1 } := by
        rw [openScope, if_neg (by rw [sane.scopes]; omega)]
      rw [kept]
      exact ⟨sane.depth, congrArg (· + 1) sane.scopes, sane.since, sane.started, sane.counted, sane.nodes, sane.each⟩
    refine inScope_rule opened (within scopes.succ_pos) (fun s sane => ?_) fun s stopped =>
      ⟨stopped.few, stopped.each⟩
    exact ⟨sane.depth, congrArg (· - 1) sane.scopes, sane.since, sane.started, sane.counted, sane.nodes, sane.each⟩

theorem outermost_visits (g : ValueGraph α β) (some : 0 < fuel) (outermost : Outermost (α ⊕ β)) :
    Ensures (fun s => At 0 0 s ∧ s.buffer.length = origin) (outermost.run g fuel) (fun _ => Bounded origin)
      (Bounded origin) := by
  cases outermost with
  | scope job =>
    have opened (s : Writer) (here : At 0 0 s ∧ s.buffer.length = origin) : Sane 0 1 origin s.openScope := by
      have reset : s.openScope = { s.reset with scopes := s.scopes + 1 } := by rw [openScope, if_pos here.1.scopes]
      rw [reset]
      exact ⟨here.1.depth, congrArg (· + 1) here.1.scopes, here.2, Nat.le_refl _, rfl, Nat.zero_le _, nofun⟩
    exact inScope_rule opened (job_visits g fuel job Nat.one_pos)
      (fun s sane => ⟨sane.bounded.few, sane.bounded.each⟩)
      fun s stopped => ⟨stopped.few, stopped.each⟩
  | single value =>
    obtain ⟨fuel, rfl⟩ := Nat.exists_eq_add_one.mpr some
    have fresh (s : Writer) (here : At 0 0 s ∧ s.buffer.length = origin) : Sane 0 0 origin s.start := by
      rw [Writer.start, if_pos ⟨here.1.depth, here.1.scopes⟩]
      exact ⟨here.1.depth, here.1.scopes, here.2, Nat.le_refl _, rfl, Nat.zero_le _, nofun⟩
    have inner : Ensures (Sane 1 0 origin) (emit (write g fuel) (g.parts value)) (fun _ => Sane 1 0 origin)
        (Bounded origin) :=
      emit_rule (fun inner => write_visits g fuel inner (by decide) (.inl Nat.one_pos)) append_visits _
    exact (framed_visits (Nat.zero_le _) fun _ => inner).weaken fresh (fun _ _ => Sane.bounded) fun _ => id

/-- At that depth the two do the same, and neither is cut off. -/
def Settled (depth : Nat) (m m' : Write Unit) : Prop := ∀ s, s.depth = depth → m s = m' s ∧ (m s).1 ≠ .error .spent

variable {k k' : Write Unit}

theorem Settled.seq (first : Settled depth m m') (restores : Restores m) (second : Settled depth k k') :
    Settled depth (do m; k) (do m'; k') := by
  intro s here
  obtain ⟨same, whole⟩ := first s here
  have back := restores depth s.scopes ⟨here, rfl⟩
  rcases run : m s with ⟨result, t⟩
  rw [run] at same whole back
  cases result with
  | ok =>
    rw [bind_ok run, bind_ok same.symm]
    exact second t back.depth
  | error e =>
    rw [bind_error run, bind_error same.symm]
    exact ⟨rfl, whole⟩

theorem settled_append (bytes : Bytes) : Settled depth (append bytes) (append bytes) := by
  intro s _
  refine ⟨rfl, ?_⟩
  unfold append
  split <;> nofun

theorem settled_emit {γ : Type} {write write' : γ → Write Unit} (each : ∀ x, Settled depth (write x) (write' x))
    (restores : ∀ x, Restores (write x)) (parts : List (Part γ)) :
    Settled depth (emit write parts) (emit write' parts) := by
  induction parts with
  | nil => exact fun s _ => ⟨rfl, nofun⟩
  | cons part parts ih =>
    cases part with
    | bytes own => exact (settled_append own).seq (restores_append own) ih
    | value inner => exact (each inner).seq (restores inner) ih

/-- A node too deep is refused whatever is in it. -/
theorem settled_framed (body : depth + 1 ≤ WriteBudget.eMaxDepth → Settled (depth + 1) m m') :
    Settled depth (framed refusal m) (framed refusal m') := by
  intro s here
  rw [framed_apply, framed_apply]
  cases ok : s.start.charge.1 with
  | false => exact ⟨rfl, nofun⟩
  | true =>
    have inside : s.start.charge.2.depth = depth + 1 := congrArg (· + 1) ((start_depth s).trans here)
    have below : s.start.depth + 1 ≤ WriteBudget.eMaxDepth := (of_decide_eq_true ok).1
    rw [start_depth, here] at below
    obtain ⟨same, whole⟩ := body below _ inside
    rw [if_pos rfl, if_pos rfl, same]
    exact ⟨rfl, same ▸ whole⟩

theorem settled_write (g : ValueGraph α β) (more : Nat) (some : 0 < fuel)
    (enough : WriteBudget.eMaxDepth < depth + fuel)
    (value : α ⊕ β) : Settled depth (write g fuel value) (write g (fuel + more) value) := by
  induction fuel generalizing depth value with
  | zero => exact absurd some (Nat.lt_irrefl 0)
  | succ fuel ih =>
    rw [Nat.add_right_comm]
    refine settled_framed fun below => settled_emit (fun inner => ?_) (restores_write g fuel) _
    exact ih (by omega) (by omega) inner

theorem settled_inScope (body : Settled depth m m') : Settled depth (inScope m) (inScope m') := by
  intro s here
  have kept : s.openScope.depth = depth := by
    rw [← here]
    unfold openScope
    split <;> rfl
  obtain ⟨same, whole⟩ := body s.openScope kept
  show ((m s.openScope).1, closeScope (m s.openScope).2) = ((m' s.openScope).1, closeScope (m' s.openScope).2) ∧ _
  rw [same]
  exact ⟨rfl, whole⟩

theorem settled_job (g : ValueGraph α β) (more : Nat) (enough : WriteBudget.eMaxDepth < fuel) (job : Job (α ⊕ β)) :
    Settled 0 (job.run g fuel) (job.run g (fuel + more)) := by
  induction job with
  | done => exact fun s _ => ⟨rfl, nofun⟩
  | write value rest ih =>
    exact (settled_write g more (by omega) (by omega) value).seq (restores_write g fuel value) ih
  | append bytes rest ih => exact (settled_append bytes).seq (restores_append bytes) ih
  | scope inner rest within ih => exact (settled_inScope within).seq (restores_job g fuel inner).inScope ih

theorem settled_outermost (g : ValueGraph α β) (more : Nat) (enough : WriteBudget.eMaxDepth < fuel)
    (outermost : Outermost (α ⊕ β)) : Settled 0 (outermost.run g fuel) (outermost.run g (fuel + more)) := by
  cases outermost with
  | scope job => exact settled_inScope (settled_job g more enough job)
  | single value => exact settled_write g more (by omega) (by omega) value

theorem Restores.apply (restores : Restores m) (s : Writer) : (m s).2.depth = s.depth ∧
    (m s).2.scopes = s.scopes := by
  have back := restores s.depth s.scopes ⟨rfl, rfl⟩
  rcases run : m s with ⟨result, t⟩
  rw [run] at back
  cases result with
  | ok => exact ⟨back.depth, back.scopes⟩
  | error => exact ⟨back.depth, back.scopes⟩

/-- Over every graph: an outermost scope, whatever scopes are opened and values written in it, or a
value written outside every scope, ends after at most 2 ^ 20 + 1 frames, none deeper than 33, and
none went on once 0xFFFFFF bytes had been added. A write, wherever it is called, and a scope leave the
two counters as they found them, also where they throw. -/
theorem writing_stops (g : ValueGraph α β) (outermost : Outermost (α ⊕ β)) {s : Writer} (top : s.depth = 0)
    (unscoped : s.scopes = 0) {fuel : Nat} (enough : 33 ≤ fuel) :
    (outermost.run g fuel s).1 ≠ .error .spent ∧
    (∀ more, outermost.run g (fuel + more) s = outermost.run g fuel s) ∧
    (outermost.run g fuel s).2.visits.length ≤ 2 ^ 20 + 1 ∧
    (∀ v ∈ (outermost.run g fuel s).2.visits, v.depth ≤ 33 ∧ (v.ok = true → v.size - s.buffer.length < 0xFFFFFF)) ∧
    (∀ value t, (write g fuel value t).2.depth = t.depth ∧ (write g fuel value t).2.scopes = t.scopes) ∧
    ∀ (job : Job (α ⊕ β)) t, (inScope (job.run g fuel) t).2.depth = t.depth ∧
      (inScope (job.run g fuel) t).2.scopes = t.scopes := by
  have ends (more : Nat) := settled_outermost g more enough outermost s top
  have visits : Bounded s.buffer.length (outermost.run g fuel s).2 := by
    have after := outermost_visits g (show 0 < fuel by omega) outermost ⟨⟨top, unscoped⟩, rfl⟩
    rcases run : outermost.run g fuel s with ⟨result, t⟩
    rw [run] at after
    cases result with
    | ok => exact after
    | error => exact after
  refine ⟨(ends 0).2, fun more => (ends more).1.symm, visits.few, fun v member => ?_, fun value t =>
    ?_, fun job t => ?_⟩
  · obtain ⟨shallow, small⟩ := visits.each v member
    refine ⟨shallow, fun ok => ?_⟩
    have size := small ok
    have bytes : WriteBudget.eMaxBytes = 0xFFFFFF := rfl
    omega
  · exact (restores_write g fuel value).apply t
  · exact (restores_job g fuel job).inScope.apply t

/-- An array that contains itself twice, and a container of a dictionary that maps itself to itself. -/
def looped : ValueGraph Bool Unit where
  amf0 isArray := if isArray then .strictArray [true, true, false] else .amf3Container ()
  amf3 _ := .dictionary false [((), ())]

theorem writing_stops_looped : looped.parts (.inr ()) ≠ [] ∧
    ((Outermost.single (.inl true)).run looped 33 {}).1 ≠ .error .spent ∧
    ((Outermost.single (.inl true)).run looped 33 {}).2.visits.length ≤ 2 ^ 20 + 1 := by
  have stops := writing_stops (s := {}) looped (.single (.inl true)) rfl rfl (Nat.le_refl 33)
  exact ⟨nofun, stops.1, stops.2.2.1⟩

end Writer

end Fms.Amf
