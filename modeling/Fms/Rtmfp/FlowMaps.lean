import Fms.Base.Transition
import Mathlib

namespace Fms.Rtmfp
open Function

/-- The flows of a session: those it receives on, the stream of each, and those it sends on, held by a
stream (marked where they are for audio and video) or for a group. -/
structure FlowMaps where
  receiving : Finset Nat := ∅
  sending : Finset Nat := ∅
  flowIdToStreamId : Nat → Option Nat := fun _ => none
  streamIdToFlowId : Nat → Finset (Nat × Bool) := fun _ => ∅
  receivingToSending : Nat → Option Nat := fun _ => none
  nextFlowId : Nat := 2

/-- What its options make of a new flow. -/
inductive FlowKind
  | rejected
  | normal (streamId : Nat)
  | netGroup

/-- A user data chunk, a message to be sent on a stream, the end of a stream. -/
inductive FlowEvent
  | userData (flow : Nat) (kind : FlowKind)
  | message (streamId : Nat) (audioVideo : Bool)
  | unreserve (streamId : Nat)

namespace FlowMaps
variable (m : FlowMaps)

def eMaxReceivingFlows : Nat := 1024

/-- `create_associated_sending_flow`, with the stream that holds the flow. -/
def createSendingFlow (streamId : Nat) (audioVideo : Bool) : FlowMaps :=
  { m with
    sending := insert m.nextFlowId m.sending
    streamIdToFlowId := update m.streamIdToFlowId streamId
      (insert (m.nextFlowId, audioVideo) (m.streamIdToFlowId streamId))
    nextFlowId := (m.nextFlowId + 1) % 2 ^ 32 }

/-- `create_receiving_flow`. -/
def createReceivingFlow (flow : Nat) : FlowKind → FlowMaps
  | .rejected => { m with receiving := insert flow m.receiving }
  | .normal streamId =>
    let opened := { m with
      receiving := insert flow m.receiving
      flowIdToStreamId := update m.flowIdToStreamId flow (some streamId) }
    if m.streamIdToFlowId streamId = ∅ then opened.createSendingFlow streamId false else opened
  | .netGroup => { m with
      receiving := insert flow m.receiving
      sending := insert m.nextFlowId m.sending
      receivingToSending := update m.receivingToSending flow (some m.nextFlowId)
      nextFlowId := (m.nextFlowId + 1) % 2 ^ 32 }

/-- `purge_stream_flows`. -/
def purgeStreamFlows (streamId : Nat) : FlowMaps :=
  if streamId = 0 then m
  else { m with
    receiving := m.receiving.filter fun f => m.flowIdToStreamId f ≠ some streamId
    receivingToSending := fun f => if m.flowIdToStreamId f = some streamId then none else m.receivingToSending f
    flowIdToStreamId := fun f => if m.flowIdToStreamId f = some streamId then none else m.flowIdToStreamId f
    sending := m.sending.filter fun id => ∀ f ∈ m.streamIdToFlowId streamId, f.1 ≠ id
    streamIdToFlowId := update m.streamIdToFlowId streamId ∅ }

def step : FlowEvent → FlowMaps
  | .userData flow kind =>
    if flow ∈ m.receiving ∨ m.receiving.card ≥ eMaxReceivingFlows then m else m.createReceivingFlow flow kind
  | .message streamId audioVideo =>
    -- a stream without a flow of that use gets one for audio and video
    if m.streamIdToFlowId streamId ≠ ∅ ∧ ∀ f ∈ m.streamIdToFlowId streamId, f.2 ≠ audioVideo then
      m.createSendingFlow streamId true
    else m
  | .unreserve streamId => m.purgeStreamFlows streamId

structure Sound : Prop where
  fresh : ∀ id ∈ m.sending, id < m.nextFlowId
  served : ∀ s, ∀ f ∈ m.streamIdToFlowId s, f.1 ∈ m.sending
  apart : ∀ s t, ∀ f ∈ m.streamIdToFlowId s, ∀ g ∈ m.streamIdToFlowId t, f.1 = g.1 → s = t
  known : ∀ f ∉ m.receiving, m.flowIdToStreamId f = none
  grouped : ∀ f id, m.receivingToSending f = some id → f ∈ m.receiving ∧ m.flowIdToStreamId f = none
  owned : ∀ id ∈ m.sending, (∃ s, ∃ f ∈ m.streamIdToFlowId s, f.1 = id) ∨ ∃ f, m.receivingToSending f = some id

variable {m}

theorem Sound.createSendingFlow (sound : m.Sound) (left : m.nextFlowId + 1 < 2 ^ 32) (streamId : Nat)
    (audioVideo : Bool) :
    (m.createSendingFlow streamId audioVideo).Sound := by
  have next := Nat.mod_eq_of_lt left
  obtain ⟨fresh, served, apart, known, grouped, owned⟩ := sound
  refine ⟨?_, ?_, ?_, known, grouped, ?_⟩ <;> unfold FlowMaps.createSendingFlow <;> dsimp only
  · grind
  · grind
  · grind
  · intro id member
    rcases Finset.mem_insert.mp member with rfl | old
    · refine .inl ⟨streamId, (m.nextFlowId, audioVideo), ?_, rfl⟩
      grind
    · refine (owned id old).imp_left fun ⟨t, f, held, same⟩ => ⟨t, f, ?_, same⟩
      grind

theorem Sound.createReceivingFlow (sound : m.Sound) (left : m.nextFlowId + 1 < 2 ^ 32) {flow : Nat}
    (new : flow ∉ m.receiving) (kind : FlowKind) : (m.createReceivingFlow flow kind).Sound := by
  have next := Nat.mod_eq_of_lt left
  obtain ⟨fresh, served, apart, known, grouped, owned⟩ := id sound
  unfold FlowMaps.createReceivingFlow
  cases kind with
  | rejected => exact ⟨fresh, served, apart, by grind, by grind, owned⟩
  | normal streamId =>
    have opened : FlowMaps.Sound { m with
        receiving := insert flow m.receiving
        flowIdToStreamId := update m.flowIdToStreamId flow (some streamId) } :=
      ⟨fresh, served, apart, by grind, by grind, owned⟩
    dsimp only
    split
    · exact opened.createSendingFlow left streamId false
    · exact opened
  | netGroup =>
    refine ⟨by grind, by grind, apart, by grind, by grind, fun id member => ?_⟩
    rcases Finset.mem_insert.mp member with rfl | old
    · exact .inr ⟨flow, update_self ..⟩
    · refine (owned id old).imp_right fun ⟨f, holds⟩ => ⟨f, ?_⟩
      grind

theorem Sound.purge (sound : m.Sound) (streamId : Nat) : (m.purgeStreamFlows streamId).Sound := by
  obtain ⟨fresh, served, apart, known, grouped, owned⟩ := id sound
  unfold FlowMaps.purgeStreamFlows
  split
  · exact sound
  · refine ⟨by grind, by grind, by grind, by grind, by grind, fun id member => ?_⟩
    obtain ⟨old, others⟩ := Finset.mem_filter.mp member
    refine (owned id old).imp (fun ⟨t, f, held, same⟩ => ⟨t, f, ?_, same⟩) fun ⟨f, holds⟩ => ⟨f, ?_⟩
    · grind
    · grind

theorem Sound.step (sound : m.Sound) (left : m.nextFlowId + 1 < 2 ^ 32) (e : FlowEvent) : (m.step e).Sound := by
  cases e with
  | userData flow kind =>
    unfold FlowMaps.step
    dsimp only
    split
    · exact sound
    · rename_i new
      exact sound.createReceivingFlow left (fun old => new (.inl old)) kind
  | message streamId audioVideo =>
    unfold FlowMaps.step
    dsimp only
    split
    · exact sound.createSendingFlow left streamId true
    · exact sound
  | unreserve streamId => exact sound.purge streamId

/-- The flows that a session comes to hold while its flow ids last. -/
def Reachable (m : FlowMaps) : Prop := Transition.Reach step (fun m _ => m.nextFlowId + 1 < 2 ^ 32) {} m

/-- The end of a stream takes all its flows away and none of another stream, and a flow that is still
sent on belongs to another stream or to a group. -/
theorem stream_flows_released (reachable : m.Reachable) {streamId : Nat} (real : streamId ≠ 0) :
    let next := m.step (.unreserve streamId)
    (∀ f, next.flowIdToStreamId f ≠ some streamId) ∧ next.streamIdToFlowId streamId = ∅ ∧
      (∀ t ≠ streamId, next.streamIdToFlowId t = m.streamIdToFlowId t ∧
        ∀ f ∈ m.streamIdToFlowId t, f.1 ∈ next.sending) ∧
      ∀ id ∈ next.sending, (∃ t ≠ streamId, ∃ f ∈ m.streamIdToFlowId t, f.1 = id) ∨
        ∃ f, next.receivingToSending f = some id := by
  have start : FlowMaps.Sound {} := by constructor <;> simp
  obtain ⟨_, served, apart, _, _, owned⟩ : m.Sound := reachable.invariant start fun left sound => sound.step left _
  unfold FlowMaps.step purgeStreamFlows
  dsimp only
  rw [if_neg real]
  refine ⟨by grind, update_self .., fun t other => ⟨update_of_ne other .., by grind⟩, fun id member => ?_⟩
  grind

theorem stream_flows_released_first :
    ((({} : FlowMaps).step (.userData 3 (.normal 1))).step (.unreserve 1)).streamIdToFlowId 1 = ∅ :=
  (stream_flows_released (.next .start _ (by decide)) (by decide)).2.1

end FlowMaps
end Fms.Rtmfp
