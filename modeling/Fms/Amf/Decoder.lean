import Fms.Amf.Value
import Fms.Base.Fallible
import Fms.ByteBuffer

namespace Fms.Amf
open ByteWire Fallible

variable {α : Type} {s s' : Decoder}

inductive AmfError
  | bufferEof
  | amf0Read
  | amf3Read
  | amf0Write
  | amf3Write
  deriving DecidableEq, Repr

/-- `amf_read_budget`. -/
structure ReadBudget where
  stringBytes : Nat := 0
  nodes : Nat := 0
  deriving DecidableEq, Repr

def ReadBudget.eMaxStringBytes : Nat := 32 <<< 20
def ReadBudget.eMaxNodes : Nat := 1 <<< 16

/-- Recursion bound of both readers. -/
def eMaxDepth : Nat := 32

/-- `class_data`: the traits of AMF3 objects. -/
structure ClassData where
  properties : List Bytes := []
  className : Bytes := []
  isDynamic : Bool := false
  deriving DecidableEq, Repr

/-- What the codec at work sees: the unread input, the heap and its tables. `refs` are the
referenceable values with their completion flags (`m_ref_table` and `m_ref_complete` of
`amf0`, `m_object_refs` and `m_object_complete` of `amf3`). `budget` is the one charged,
that of the read scope where one is open. `depth` is `m_depth`, which a nested codec goes on
counting, and `scopes` the thread's `s_read_scopes`. -/
structure Decoder where
  input : Bytes
  heap : List Cell := []
  refs : List (Nat × Bool) := []
  stringRefs : List Bytes := []
  traitsRefs : List ClassData := []
  budget : ReadBudget := {}
  depth : Nat := 0
  scopes : Nat := 0

def Decoder.inScope (s : Decoder) : Bool := s.scopes ≠ 0

abbrev Decode := Action AmfError Decoder

/-- Which complete value a reference may take, by the levels left for it. -/
abbrev RefPolicy := List Cell → Nat → Nat → Bool

/-- The source takes any. -/
def anyRef : RefPolicy := fun _ _ _ => true

/-- A read of the input that throws `buffer_eof_exception` where it runs past the end. -/
def lift {α : Type} (read : Bytes → Option (α × Bytes)) : Decode α := do
  match read (← get).input with
  | some (a, rest) =>
    modify fun s => { s with input := rest }
    return a
  | none => throw .bufferEof

theorem yields_lift {read : Bytes → Option (α × Bytes)} {a : α} :
    Yields (lift read) s a s' ↔ ∃ rest, read s.input = some (a, rest) ∧ s' = { s with input := rest } := by
  unfold lift
  rw [yields_bind]
  constructor
  · rintro ⟨t, u, got, run⟩
    obtain ⟨rfl, rfl⟩ := yields_get.mp got
    cases found : read u.input with
    | none =>
      rw [found] at run
      exact absurd run yields_throw
    | some result =>
      rw [found] at run
      obtain ⟨_, v, step, last⟩ := yields_bind.mp run
      obtain ⟨rfl, rfl⟩ := yields_pure.mp last
      exact ⟨result.2, rfl, yields_modify.mp step⟩
  · rintro ⟨rest, found, rfl⟩
    refine ⟨s, s, yields_get.mpr ⟨rfl, rfl⟩, ?_⟩
    rw [found]
    exact yields_bind.mpr ⟨(), _, yields_modify.mpr rfl, yields_pure.mpr ⟨rfl, rfl⟩⟩

theorem lift_bind {β : Type} {read : Bytes → Option (α × Bytes)} {k : α → Decode β} {a : α} {rest : Bytes}
    (got : read s.input = some (a, rest)) : (lift read >>= k) s = k a { s with input := rest } :=
  bind_ok (yields_lift.mpr ⟨rest, got, rfl⟩)

def available : Decode Nat := do return (← get).input.length

theorem yields_available {n : Nat} (run : Yields available s n s') : n = s.input.length ∧ s' = s := by
  cases run
  exact ⟨rfl, rfl⟩

def chargeNode (refusal : AmfError) : Decode Unit := do
  modify fun s => { s with budget := { s.budget with nodes := s.budget.nodes + 1 } }
  if (← get).budget.nodes > ReadBudget.eMaxNodes then throw refusal

theorem chargeNode_eq (refusal : AmfError) (s : Decoder) : chargeNode refusal s =
    (if s.budget.nodes + 1 > ReadBudget.eMaxNodes then .error refusal else .ok (),
      { s with budget := { s.budget with nodes := s.budget.nodes + 1 } }) := by
  let t : Decoder := { s with budget := { s.budget with nodes := s.budget.nodes + 1 } }
  show (if s.budget.nodes + 1 > ReadBudget.eMaxNodes then throw refusal else pure () : Decode Unit) t = _
  split <;> rfl

theorem yields_chargeNode {refusal : AmfError} {u : Unit} (run : Yields (chargeNode refusal) s u s') :
    s' = { s with budget := { s.budget with nodes := s.budget.nodes + 1 } } := by
  obtain ⟨_, t, step, check⟩ := yields_bind.mp run
  obtain ⟨seen, v, got, check'⟩ := yields_bind.mp check
  obtain ⟨_, same⟩ := yields_get.mp got
  rcases yields_ite.mp check' with ⟨_, refused⟩ | ⟨_, passed⟩
  · exact absurd refused yields_throw
  · rw [(yields_pure.mp passed).2, same]
    exact yields_modify.mp step

/-- The `depth_guard` of `read`. -/
def level {α : Type} (action : Decode α) : Decode α :=
  guarded (fun s => { s with depth := s.depth - 1 }) do
    modify fun s => { s with depth := s.depth + 1 }
    action

theorem yields_level {action : Decode α} {a : α} : Yields (level action) s a s' ↔
    ∃ t, Yields action { s with depth := s.depth + 1 } a t ∧ s' = { t with depth := t.depth - 1 } := by
  unfold level
  rw [yields_guarded]
  refine exists_congr fun t => and_congr_left fun _ =>
    yields_bind.trans ⟨?_, fun run => ⟨(), _, yields_modify.mpr rfl, run⟩⟩
  rintro ⟨_, u, enter, run⟩
  rwa [yields_modify.mp enter] at run

/-- The bound less what was charged, as `std::size_t` subtracts. -/
def ReadBudget.room (b : ReadBudget) : Nat := wrap64 (2 ^ 64 + ReadBudget.eMaxStringBytes - b.stringBytes)

theorem ReadBudget.room_eq {b : ReadBudget} (bound : b.stringBytes ≤ ReadBudget.eMaxStringBytes) :
    b.room = ReadBudget.eMaxStringBytes - b.stringBytes := by
  have limit : ReadBudget.eMaxStringBytes < 2 ^ 64 := by decide
  unfold room wrap64
  rw [Nat.add_sub_assoc bound, Nat.add_mod_left]
  exact Nat.mod_eq_of_lt (by omega)

/-- The budget with that many bytes more charged. -/
def ReadBudget.charge (b : ReadBudget) (n : Nat) : ReadBudget := { b with stringBytes := wrap64 (b.stringBytes + n) }

theorem ReadBudget.charge_eq {b : ReadBudget} {n : Nat} (bound : b.stringBytes + n ≤ ReadBudget.eMaxStringBytes) :
    b.charge n = { b with stringBytes := b.stringBytes + n } := by
  have limit : ReadBudget.eMaxStringBytes < 2 ^ 64 := by decide
  unfold charge wrap64
  rw [Nat.mod_eq_of_lt (by omega)]

def chargeStringBytes (n : Nat) : Decode Unit := do
  if n > (← get).budget.room then throw .amf3Read
  else modify fun s => { s with budget := s.budget.charge n }

theorem chargeStringBytes_eq (n : Nat) (s : Decoder) : chargeStringBytes n s =
    if n > s.budget.room then (.error .amf3Read, s) else (.ok (), { s with budget := s.budget.charge n }) := by
  show (if n > s.budget.room then throw .amf3Read else modify fun s =>
    { s with budget := s.budget.charge n } : Decode Unit) s = _
  split <;> rfl

def alloc (cell : Cell) : Decode Nat := do
  let a := (← get).heap.length
  modify fun s => { s with heap := s.heap ++ [cell] }
  return a

/-- Change the object at an address in place. -/
def update (a : Nat) (change : Cell → Cell) : Decode Unit :=
  modify fun s => { s with heap := s.heap.modify a change }

/-- `register_ref` and `register_object`. -/
def register (a : Nat) (isComplete : Bool) : Decode Nat := do
  let ref := (← get).refs.length
  modify fun s => { s with refs := s.refs ++ [(a, isComplete)] }
  return ref

def complete (ref : Nat) : Decode Unit :=
  modify fun s => { s with refs := s.refs.modify ref fun (a, _) => (a, true) }

/-- A reference: only to an entry that is complete. -/
def resolve (policy : RefPolicy) (refusal : AmfError) (left idx : Nat) : Decode Nat := do
  let s ← get
  match s.refs[idx]? with
  | some (a, true) => if policy s.heap left a then return a else throw refusal
  | _ => throw refusal

/-- A container: referenceable before it is filled, complete after. -/
def populate (empty : Cell) (fill : Nat → Decode Unit) : Decode Nat := do
  let a ← alloc empty
  let ref ← register a false
  fill a
  complete ref
  return a

end Fms.Amf
