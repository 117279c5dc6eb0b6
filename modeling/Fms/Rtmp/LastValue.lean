import Mathlib.Algebra.Order.BigOperators.Group.List
import Fms.Amf.RoundTrip0
import Fms.Rtmp.Thread

namespace Fms.Amf
open ByteWire Fallible Heap

/-- The codec writes the value and, where it ends the input, reads it back, whatever was read
before it. -/
structure Amf0.RoundTrips {d : Nat} (v : Value0 d) : Prop where
  writes : ∃ e, Yields (Amf0.write v) {} () e
  reads : ∀ heap, Accepts (· = heap) (Amf0.readAt anyRef eMaxDepth) (Amf0.encode d v) (Amf0.nodes d v) [] fun a h =>
    Beyond ∅ heap h ∧ Shows0 h heap.length d a v

/-- The trees of the AMF0 language that are read back at the end of the input do so anywhere. -/
theorem Amf0.roundTrips {v : Value0 eMaxDepth} (legal : v.WellFormed eMaxDepth)
    (few : Amf0.nodes eMaxDepth v ≤ ReadBudget.eMaxNodes)
    (short : (Amf0.encode eMaxDepth v).length < WriteBudget.eMaxBytes)
    (roomy : Amf0.Roomy eMaxDepth v []) : Amf0.RoundTrips v where
  writes := by
    obtain ⟨e, run, _⟩ := Amf0.write_spec (e := {}) (Nat.le_refl _) v rfl (few.trans (by decide)) short
    exact ⟨e, run⟩
  reads := Amf0.readsBack anyRef eMaxDepth v legal roomy

theorem Amf0.RoundTrips.readHere {d : Nat} {v : Value0 d} (back : Amf0.RoundTrips v) {s : Decoder}
    {nodes strings : Nat} (top : s.depth = 0)
    (ready : Ready (Amf0.encode d v) (Amf0.nodes d v + nodes) ((Amf0.encode d v).length + strings) s) :
    ∃ a u, Yields Amf0.readHere s a u ∧ Ready [] nodes strings u ∧ Beyond ∅ s.heap u.heap ∧
      Shows0 u.heap s.heap.length d a v := by
  let fresh : Decoder :=
    { s with refs := [], stringRefs := [], traitsRefs := [], budget := if s.inScope then s.budget else {} }
  have spent : fresh.budget.nodes ≤ s.budget.nodes ∧ fresh.budget.stringBytes ≤ s.budget.stringBytes := by
    show (if s.inScope then s.budget else {}).nodes ≤ _ ∧ (if s.inScope then s.budget else {}).stringBytes ≤ _
    split
    · exact ⟨Nat.le_refl _, Nat.le_refl _⟩
    · exact ⟨Nat.zero_le _, Nat.zero_le _⟩
  have room : Ready (Amf0.encode d v ++ []) (Amf0.nodes d v + nodes) ((Amf0.encode d v).length + strings) fresh := by
    obtain ⟨input, few, small⟩ := ready
    exact ⟨input.trans (List.append_nil _).symm, by omega, by omega⟩
  obtain ⟨a, u, run, after, beyond, shows⟩ := back.reads s.heap room rfl
  refine ⟨a, u, ?_, after, beyond, shows⟩
  unfold Yields
  rw [Amf0.readHere_top top]
  exact yields_bind.mpr ⟨(), fresh, yields_modify.mpr rfl, run⟩

def element (value : Scalar0) : Value0 31 := Node0.scalar value

def repeated (value : Scalar0) (n : Nat) : Value0 eMaxDepth := Node0.strictArray (List.replicate n (element value))

section
variable {value : Scalar0} {n : Nat}

/-- A marker is all there is to the value. -/
def Blank (value : Scalar0) : Prop := value = .null ∨ value = .undefined

theorem length_elements (blank : Blank value) :
    ((List.replicate n (element value)).flatMap (Amf0.encode 31)).length = n := by
  have one : (Amf0.encode 31 (element value)).length = 1 := by rcases blank with rfl | rfl <;> rfl
  rw [List.length_flatMap, List.map_replicate, one, List.sum_replicate_nat, Nat.mul_one]

theorem length_repeated (blank : Blank value) : (Amf0.encode eMaxDepth (repeated value n)).length = 5 + n := by
  have whole := congrArg List.length (Amf0.encode_strictArray (d := 31) (List.replicate n (element value)))
  rw [List.length_cons, List.length_append, length_u32Be, length_elements blank] at whole
  exact whole.trans (by omega)

theorem nodes_repeated : Amf0.nodes eMaxDepth (repeated value n) = 1 + n := by
  have each : ((List.replicate n (element value)).map (Amf0.nodes 31)).sum = n := by
    rw [List.map_replicate, List.sum_replicate_nat]
    exact Nat.mul_one n
  have whole := Amf0.nodes_strictArray (d := 31) (List.replicate n (element value))
  rwa [each] at whole

theorem roundTrips_repeated (blank : Blank value) (some : 3 ≤ n)
    (few : n < 65536) : Amf0.RoundTrips (repeated value n) := by
  have plain : Value0.WellFormed 31 (element value) := by
    refine ⟨?_, fun _ inner => absurd inner List.not_mem_nil, fun _ inner => absurd inner List.not_mem_nil⟩
    rcases blank with rfl | rfl <;> trivial
  refine Amf0.roundTrips ⟨trivial, fun w member => ?_, fun _ inner => absurd inner List.not_mem_nil⟩ ?_ ?_ ⟨?_, ?_⟩
  · rw [List.eq_of_mem_replicate member]
    exact plain
  · rw [nodes_repeated]
    show 1 + n ≤ 65536
    omega
  · rw [length_repeated blank]
    show 5 + n < 0xFFFFFF
    omega
  · rw [List.append_nil]
    exact some.trans_eq (length_elements blank).symm
  · intro pre w post split
    have member : w ∈ List.replicate n (element value) := by
      rw [split]
      exact List.mem_append_right _ (List.mem_cons_self ..)
    rw [List.eq_of_mem_replicate member]
    trivial

theorem repeated_shown {heap : List Cell} {lo a : Nat} (shows : Shows0 heap lo eMaxDepth a (repeated value (n + 1))) :
    ∃ b rest, heap[a]? = some (.amf0 (.strictArray (b :: rest))) ∧ rest.length = n ∧
      heap[b]? = some (.amf0 (.scalar value)) := by
  obtain ⟨_, node, here, rel⟩ := shows
  cases rel with
  | strictArray all =>
    obtain ⟨b, rest, shown, others, rfl⟩ := List.forall₂_cons_right_iff.mp (List.replicate_succ ▸ all)
    obtain ⟨_, leaf, stored, same⟩ := shown
    cases same
    exact ⟨b, rest, here, others.length_eq.trans List.length_replicate, stored⟩

end

variable {heap : List Cell}

theorem places_one {a : Nat} {cell : Cell}
    (here : heap[a]? = some cell) : cell.links.length ≤ places heap :=
  List.single_le_sum (fun _ _ => Nat.zero_le _) _ (List.mem_map_of_mem (List.mem_of_getElem? here))

end Fms.Amf
