import Fms.Amf.Encoding
import Fms.Base.Heap

namespace Fms.Amf
open ByteWire Fallible Heap

/-- That input is left, and a budget for so many values and string bytes more. -/
structure Ready (input : Bytes) (nodes strings : Nat) (s : Decoder) : Prop where
  input : s.input = input
  nodes : s.budget.nodes + nodes ≤ ReadBudget.eMaxNodes
  strings : s.budget.stringBytes + strings ≤ ReadBudget.eMaxStringBytes

/-- Where the heap is as `P` says and `bytes` come before `t`, the computation returns: it
has read `bytes`, charged no more than `cost` values, and the result and the heap are as
`Q` says. -/
def Accepts {α : Type} (P : List Cell → Prop) (m : Decode α) (bytes : Bytes) (cost : Nat) (t : Bytes)
    (Q : α → List Cell → Prop) : Prop :=
  ∀ ⦃s nodes strings⦄, Ready (bytes ++ t) (cost + nodes) (bytes.length + strings) s → P s.heap →
    ∃ a s', Yields m s a s' ∧ Ready t nodes strings s' ∧ Q a s'.heap

section
variable {α β : Type} {P P' : List Cell → Prop} {m : Decode α} {f : α → Decode β} {bytes b₁ b₂ t : Bytes}
  {cost c₁ c₂ : Nat} {Q Q' : α → List Cell → Prop} {R : β → List Cell → Prop}

theorem Accepts.of_small (accepts : bytes.length ≤ ReadBudget.eMaxStringBytes → Accepts P m bytes cost t Q) :
    Accepts P m bytes cost t Q := by
  intro s nodes strings ready before
  have bound := ready.strings
  exact accepts (by omega) ready before

theorem Accepts.weaken (accepts : Accepts P m bytes cost t Q) (post : ∀ a h, Q a h → Q' a h) :
    Accepts P m bytes cost t Q' := by
  intro s nodes strings ready before
  obtain ⟨a, s', run, after, holds⟩ := accepts ready before
  exact ⟨a, s', run, after, post a _ holds⟩

theorem Accepts.strengthen (accepts : Accepts P m bytes cost t Q)
    (pre : ∀ h, P' h → P h) : Accepts P' m bytes cost t Q :=
  fun _ _ _ ready before => accepts ready (pre _ before)

theorem Accepts.bind (first : Accepts P m b₁ c₁ (b₂ ++ t) Q) (second : ∀ a, Accepts (Q a) (f a) b₂ c₂ t R) :
    Accepts P (m >>= f) (b₁ ++ b₂) (c₁ + c₂) t R := by
  intro s nodes strings ready before
  have bytesLeft : b₁ ++ b₂ ++ t = b₁ ++ (b₂ ++ t) := List.append_assoc _ _ _
  have length : (b₁ ++ b₂).length + strings = b₁.length + (b₂.length + strings) := by
    rw [List.length_append, Nat.add_assoc]
  rw [bytesLeft, length, Nat.add_assoc] at ready
  obtain ⟨a, u, one, middle, between⟩ := first ready before
  obtain ⟨b, v, two, after, holds⟩ := second a middle between
  exact ⟨b, v, yields_bind.mpr ⟨a, u, one, two⟩, after, holds⟩

variable {a : α}

theorem Accepts.known (first : Accepts P m b₁ c₁ (b₂ ++ t) fun x h => x = a ∧ P' h)
    (second : Accepts P' (f a) b₂ c₂ t R) : Accepts P (m >>= f) (b₁ ++ b₂) (c₁ + c₂) t R := by
  refine first.bind fun x s nodes strings ready before => ?_
  rw [before.1]
  exact second ready before.2

theorem Accepts.still (first : Accepts P m [] 0 (b₂ ++ t) fun x h => x = a ∧ P' h)
    (second : Accepts P' (f a) b₂ c₂ t R) : Accepts P (m >>= f) b₂ c₂ t R := by
  have both := first.known second
  rwa [List.nil_append, Nat.zero_add] at both

theorem Accepts.free (first : Accepts P m b₁ 0 (b₂ ++ t) fun x h => x = a ∧ P' h)
    (second : Accepts P' (f a) b₂ c₂ t R) : Accepts P (m >>= f) (b₁ ++ b₂) c₂ t R := by
  have both := first.known second
  rwa [Nat.zero_add] at both

theorem Accepts.last (first : Accepts P m bytes cost t Q) (second : ∀ a, Accepts (Q a) (f a) [] 0 t R) :
    Accepts P (m >>= f) bytes cost t R := by
  have both : Accepts P (m >>= f) (bytes ++ []) (cost + 0) t R := first.bind second
  rwa [List.append_nil, Nat.add_zero] at both

theorem Accepts.ends (first : Accepts P m bytes cost t fun x h => x = a ∧ P' h)
    (second : Accepts P' (f a) [] 0 t R) : Accepts P (m >>= f) bytes cost t R := by
  have both : Accepts P (m >>= f) (bytes ++ []) (cost + 0) t R := first.known second
  rwa [List.append_nil, Nat.add_zero] at both

theorem Accepts.level (accepts : Accepts P m bytes cost t Q) : Accepts P (level m) bytes cost t Q := by
  intro s nodes strings ready before
  obtain ⟨a, u, run, after, holds⟩ := @accepts { s with depth := s.depth + 1 } nodes strings
    ⟨ready.input, ready.nodes, ready.strings⟩ before
  exact ⟨a, _, yields_level.mpr ⟨u, run, rfl⟩, ⟨after.input, after.nodes, after.strings⟩, holds⟩

theorem accepts_pure (holds : ∀ h, P h → Q a h) : Accepts P (pure a : Decode α) [] 0 t Q := by
  intro s nodes strings ready before
  simp only [List.length_nil, Nat.zero_add] at ready
  exact ⟨a, s, yields_pure.mpr ⟨rfl, rfl⟩, ready, holds _ before⟩

theorem accepts_lift {read : Bytes → Option (α × Bytes)} (got : read (bytes ++ t) = some (a, t)) :
    Accepts P (lift read) bytes 0 t fun x h => x = a ∧ P h := by
  intro s nodes strings ready before
  refine ⟨a, _, yields_lift.mpr ⟨t, ready.input ▸ got, rfl⟩, ⟨rfl, ?_, ?_⟩, rfl, before⟩
  · exact (Nat.zero_add nodes) ▸ ready.nodes
  · have bound := ready.strings
    exact Nat.le_trans (Nat.add_le_add_left (Nat.le_add_left _ _) _) bound

theorem accepts_available : Accepts P available [] 0 t fun n h => n = t.length ∧ P h := by
  intro s nodes strings ready before
  simp only [List.length_nil, Nat.zero_add] at ready
  have here : s.input = t := ready.input
  refine ⟨_, s, yields_bind.mpr ⟨s, s, yields_get.mpr ⟨rfl, rfl⟩, yields_pure.mpr ⟨rfl, rfl⟩⟩, ready, ?_, before⟩
  rw [here]

theorem accepts_chargeNode (refusal : AmfError) : Accepts P (chargeNode refusal) [] 1 t fun x h => x = () ∧ P h := by
  intro s nodes strings ready before
  have room := ready.nodes
  have run : Yields (chargeNode refusal) s () { s with budget := { s.budget with nodes := s.budget.nodes + 1 } } := by
    refine yields_bind.mpr ⟨(), _, yields_modify.mpr rfl, yields_bind.mpr ⟨_, _, yields_get.mpr ⟨rfl, rfl⟩, ?_⟩⟩
    rw [if_neg (Nat.not_lt.mpr (by show s.budget.nodes + 1 ≤ _; omega))]
    exact yields_pure.mpr ⟨rfl, rfl⟩
  refine ⟨(), _, run, ⟨ready.input, by show s.budget.nodes + 1 + nodes ≤ _; omega, ?_⟩, rfl, before⟩
  simpa only [List.length_nil, Nat.zero_add] using ready.strings

/-- Tables may change: no bytes of an encoding refer to them. -/
theorem accepts_modify {g : Decoder → Decoder}
    (same : ∀ s, (g s).input = s.input ∧ (g s).budget = s.budget ∧ (g s).heap = s.heap) :
    Accepts P (modify g : Decode Unit) [] 0 t fun x h => x = () ∧ P h := by
  intro s nodes strings ready before
  simp only [List.length_nil, Nat.zero_add] at ready
  obtain ⟨input, budget, heap⟩ := same s
  refine ⟨(), g s, yields_modify.mpr rfl, ⟨input.trans ready.input, ?_, ?_⟩, rfl, heap ▸ before⟩
  · rw [budget]
    exact ready.nodes
  · rw [budget]
    exact ready.strings

theorem accepts_alloc (heap : List Cell) (cell : Cell) :
    Accepts (· = heap) (alloc cell) [] 0 t fun a h => a = heap.length ∧ h = heap ++ [cell] := by
  intro s nodes strings ready before
  simp only [List.length_nil, Nat.zero_add] at ready
  refine ⟨_, { s with heap := s.heap ++ [cell] }, rfl, ⟨ready.input, ready.nodes, ready.strings⟩, ?_, ?_⟩
  · rw [before]
  · show s.heap ++ [cell] = _
    rw [before]

theorem accepts_update (a : Nat) (change : Cell → Cell) :
    Accepts P (update a change) [] 0 t fun x h => x = () ∧ ∃ old, P old ∧ h = old.modify a change := by
  intro s nodes strings ready before
  simp only [List.length_nil, Nat.zero_add] at ready
  exact ⟨(), _, yields_modify.mpr rfl, ⟨ready.input, ready.nodes, ready.strings⟩, rfl, s.heap, before, rfl⟩

theorem accepts_register (a : Nat) (isComplete : Bool) : Accepts P (register a isComplete) [] 0 t fun _ => P := by
  intro s nodes strings ready before
  simp only [List.length_nil, Nat.zero_add] at ready
  exact ⟨_, { s with refs := s.refs ++ [(a, isComplete)] }, rfl, ⟨ready.input, ready.nodes, ready.strings⟩, before⟩

end

section
variable {ξ : Type} {P : List ξ → List Cell → Prop} {encode : ξ → Bytes} {cost : ξ → Nat} {t : Bytes}

theorem accepts_times {body : Decode Unit} (all : List ξ) (each : ∀ done x rest, all = done ++ x :: rest →
      Accepts (P done) body (encode x) (cost x) (rest.flatMap encode ++ t) fun _ => P (done ++ [x])) :
    Accepts (P []) (times all.length body) (all.flatMap encode) (all.map cost).sum t fun _ => P all := by
  suffices h : ∀ done rest, all = done ++ rest →
      Accepts (P done) (times rest.length body) (rest.flatMap encode) (rest.map cost).sum t fun _ => P all from
    h [] all rfl
  intro done rest
  induction rest generalizing done with
  | nil =>
    rintro rfl
    refine accepts_pure fun h holds => ?_
    rwa [List.append_nil]
  | cons x rest ih =>
    intro split
    exact (each done x rest split).bind fun _ => ih (done ++ [x]) (by rw [split, List.append_assoc]; rfl)

theorem accepts_loop {body : Decode Bool} {spent : AmfError} {stop : Bytes} {Q : List Cell → Prop} (all : List ξ)
    (each : ∀ done x rest, all = done ++ x :: rest →
      Accepts (P done) body (encode x) (cost x) (rest.flatMap encode ++ stop ++ t) fun more h =>
        more = true ∧ P (done ++ [x]) h)
    (last : Accepts (P all) body stop 0 t fun more h => more = false ∧ Q h) {fuel : Nat}
    (enough : all.length < fuel) :
    Accepts (P []) (loop spent body fuel) (all.flatMap encode ++ stop) (all.map cost).sum t fun _ => Q := by
  suffices h : ∀ done rest, all = done ++ rest → ∀ fuel, rest.length < fuel →
      Accepts (P done) (loop spent body fuel) (rest.flatMap encode ++ stop) (rest.map cost).sum t fun _ => Q from
    h [] all rfl fuel enough
  intro done rest
  induction rest generalizing done with
  | nil =>
    intro split fuel enough
    rw [List.append_nil] at split
    cases fuel with
    | zero => exact absurd enough (Nat.not_lt_zero _)
    | succ fuel =>
      rw [← split]
      exact last.ends (accepts_pure fun h holds => holds)
  | cons x rest ih =>
    intro split fuel enough
    cases fuel with
    | zero => exact absurd enough (Nat.not_lt_zero _)
    | succ fuel =>
      have later := ih (done ++ [x]) (by rw [split, List.append_assoc]; rfl) fuel (Nat.lt_of_succ_lt_succ enough)
      have round :=
        (each done x rest split).known (f := fun more => if more = true then loop spent body fuel else pure ())
        later
      rw [List.flatMap_cons, List.append_assoc]
      exact round

end

/-- The container at the end of `heap` is being filled, as `J` says, and nothing else before
it has changed. -/
def Filling (heap : List Cell) (cell : Cell) (J : List Cell → Cell → Prop) (h : List Cell) : Prop :=
  Beyond {heap.length} (heap ++ [cell]) h ∧ ∃ c, h[heap.length]? = some c ∧ J h c

/-- What is said of a container does not depend on the container itself, nor on what comes
later. -/
def Stable (a : Nat) (J : List Cell → Cell → Prop) : Prop := ∀ ⦃h h' c⦄, Beyond {a} h h' → J h c → J h' c

section
variable {heap : List Cell} {cell : Cell} {J J' : List Cell → Cell → Prop} {bytes t : Bytes} {cost : Nat}

theorem Filling.inside {h : List Cell} (filling : Filling heap cell J h) : heap.length < h.length :=
  (List.getElem?_eq_some_iff.mp filling.2.choose_spec.1).1

theorem accepts_aside {read : Decode Nat} {Shown : List Cell → Nat → Prop}
    (value : ∀ h, heap.length < h.length → Accepts (· = h) read bytes cost t fun b h' => Beyond ∅ h h' ∧ Shown h' b)
    (stable : Stable heap.length J) :
    Accepts (Filling heap cell J) read bytes cost t fun b => Filling heap cell fun h c => J h c ∧ Shown h b := by
  intro s nodes strings ready filling
  obtain ⟨b, u, got, after, beyond, shown⟩ := value s.heap filling.inside ready rfl
  obtain ⟨kept, c, here, holds⟩ := filling
  have inside := (List.getElem?_eq_some_iff.mp here).1
  have away : Beyond {heap.length} s.heap u.heap := beyond.mono (Set.empty_subset _)
  refine ⟨b, u, got, after, kept.trans away, c, ?_, stable away holds, shown⟩
  exact (beyond.2 heap.length inside (Set.notMem_empty _)).trans here

theorem accepts_put {read : Decode Nat} {Shown : List Cell → Nat → Prop} {change : Nat → Cell → Cell}
    (value : ∀ h, heap.length < h.length → Accepts (· = h) read bytes cost t fun b h' => Beyond ∅ h h' ∧ Shown h' b)
    (stable : Stable heap.length J) (stable' : Stable heap.length J')
    (step : ∀ h c b, J h c → Shown h b → J' h (change b c)) :
    Accepts (Filling heap cell J) (do
      let b ← read
      update heap.length (change b)) bytes cost t fun _ => Filling heap cell J' := by
  refine Accepts.last (accepts_aside value stable) fun b => (accepts_update heap.length (change b)).weaken ?_
  rintro _ _ ⟨-, old, ⟨kept, c, here, holds, shown⟩, rfl⟩
  have grown : Beyond {heap.length} old (old.modify heap.length (change b)) :=
    .modify (Set.mem_singleton heap.length) _ _
  refine ⟨kept.trans grown, change b c, ?_, stable' grown (step _ c b holds shown)⟩
  rw [List.getElem?_modify_eq, here]
  rfl

theorem Accepts.populate {fill : Nat → Decode Unit}
    (fills : Accepts (· = heap ++ [cell]) (fill heap.length) bytes cost t fun _ => Filling heap cell J) :
    Accepts (· = heap) (populate cell fill) bytes cost t fun a h =>
      a = heap.length ∧ Beyond ∅ heap h ∧ ∃ c, h[heap.length]? = some c ∧ J h c := by
  refine Accepts.still (accepts_alloc heap cell) ?_
  intro s nodes strings ready before
  obtain ⟨ref, u, one, middle, same⟩ :=
    accepts_register (P := (· = heap ++ [cell])) (t := bytes ++ t) heap.length false
      (by simpa only [List.nil_append, List.length_nil, Nat.zero_add] using ready) before
  obtain ⟨_, v, filling, after, beyond, c, here, holds⟩ := fills middle same
  refine ⟨heap.length, _, yields_bind.mpr ⟨ref, u, one, yields_bind.mpr ⟨(), v, filling,
    yields_bind.mpr ⟨(), _, yields_modify.mpr rfl, yields_pure.mpr ⟨rfl, rfl⟩⟩⟩⟩,
    ⟨after.input, after.nodes, after.strings⟩, rfl, ?_, c, here, holds⟩
  refine ⟨Nat.le_trans (by simp) beyond.1, fun i below _ => ?_⟩
  have kept := beyond.2 i (by simp only [List.length_append]; omega) fun same => Nat.ne_of_lt below same
  rwa [List.getElem?_append_left below] at kept

theorem filling_start (heap : List Cell) (cell : Cell)
    (holds : J (heap ++ [cell]) cell) : ∀ h, h = heap ++ [cell] → Filling heap cell J h := by
  rintro h rfl
  exact ⟨.refl _ _, cell, List.getElem?_concat_length, holds⟩

end

end Fms.Amf
