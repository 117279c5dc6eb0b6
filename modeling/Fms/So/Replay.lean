import Mathlib.Algebra.Order.BigOperators.Group.List
import Fms.Rtmp.Parser
import Fms.So.Codec
import Fms.So.Table

namespace Fms
open ByteWire Fallible Amf

/-- One write budget covers the message, and a peer with this parser takes it. -/
def SoMessage.Sendable (msg : SoMessage) : Prop :=
  msg.encode.length ≤ RtmpParser.eMaxMessageLength.toNat ∧
    ∀ e : Encoder, e.scopes = 0 → ∃ e', Yields msg.serialize e () e' ∧ e'.buffer = e.buffer ++ msg.encode ∧
      e'.scopes = 0

namespace SoManager
variable {m : SoManager}

theorem replayable_spec {value : SoValue} (fits : replayable value = true) :
    value.Writable ∧ value.encode.length ≤ eMaxValueBytes ∧ value.nodes ≤ eMaxValueNodes := by
  cases value with
  | none => cases fits
  | some value =>
    obtain ⟨d, v⟩ := value
    unfold replayable at fits
    simp only at fits
    split at fits
    · rename_i probe run
      obtain ⟨short, few⟩ := (Bool.and_eq_true ..).mp fits
      obtain ⟨buffer, nodes, writes⟩ := Amf0.write_of_yields rfl run
      rw [buffer, List.nil_append] at short
      rw [nodes] at few
      exact ⟨writes, of_decide_eq_true short, of_decide_eq_true few⟩
    · cases fits

theorem length_encodeName (name : Bytes) : (SoEvent.encodeName name).length ≤ 65537 := by
  have cut : name.length % 2 ^ 16 < 65536 := Nat.mod_lt _ (by decide)
  simp only [SoEvent.encodeName, Amf0.writeShortString, List.length_append, length_beBytes, List.length_take]
  omega

theorem length_change (name : Bytes) {value : SoValue} (short : value.encode.length ≤ eMaxValueBytes) :
    (SoEvent.change name value).encode.length ≤ 131078 := by
  have bytes : eMaxValueBytes = 65536 := rfl
  have named := length_encodeName name
  simp only [SoEvent.encode, SoEvent.body, List.length_cons, List.length_append, length_u32Be]
  omega

theorem sum_le_shares {α : Type} {items : List α} {size : α → Nat} {share : Nat}
    (each : ∀ item ∈ items, size item ≤ share) :
    (items.map size).sum ≤ items.length * share := by
  have bound := List.sum_le_card_nsmul (items.map size) share fun n member => by
    obtain ⟨item, stored, rfl⟩ := List.mem_map.mp member
    exact each item stored
  rwa [List.length_map] at bound

/-- A reply over at most 62 properties that can be replayed stays within every limit. -/
theorem useReply_sendable {values : Dict Bytes SoValue} (few : values.size ≤ eMaxProperties)
    (replays : ∀ property value, values.lookup property = some value → replayable value = true) (name : Bytes)
    (version flags : UInt32) : SoMessage.Sendable { name, version, flags, events := useReply values } := by
  have each (entry : (_ : Bytes) × SoValue) (member : entry ∈ values.ordered) :=
    replayable_spec (replays entry.1 entry.2 (AList.mem_lookup_iff.mpr (values.ordered_perm.mem_iff.mp member)))
  have writable : ∀ e ∈ useReply values, e.value.Writable := by
    intro e member
    rcases List.mem_cons.mp member with rfl | member
    · exact SoMessage.writable_none
    rcases List.mem_cons.mp member with rfl | member
    · exact SoMessage.writable_none
    obtain ⟨entry, stored, rfl⟩ := List.mem_map.mp member
    exact (each entry stored).1
  have count : values.ordered.length ≤ 62 := values.length_ordered.trans_le few
  -- the properties together, each within its share
  have bytes : (values.ordered.map fun entry => (SoEvent.change entry.1 entry.2).encode.length).sum ≤
      values.ordered.length * 131078 := sum_le_shares fun entry stored =>
        length_change entry.1 (each entry stored).2.1
  have nodes : (values.ordered.map fun entry => entry.2.nodes).sum ≤ values.ordered.length * 16644 :=
    sum_le_shares fun entry stored => (each entry stored).2.2
  have named := length_encodeName name
  let reply : SoMessage := { name, version, flags, events := useReply values }
  have size : reply.encode.length = (SoEvent.encodeName name).length + 22 +
      (values.ordered.map fun entry => (SoEvent.change entry.1 entry.2).encode.length).sum := by
    simp only [reply, SoMessage.encode, useReply, List.flatMap_cons, List.length_append, length_u32Be,
      List.flatMap_map, List.length_flatMap]
    simp only [SoEvent.encode, SoEvent.body, List.length_cons, List.length_append, length_u32Be, List.length_nil]
    omega
  have charged : reply.nodes = (values.ordered.map fun entry => entry.2.nodes).sum := by
    simp only [reply, SoMessage.nodes, useReply, List.map_cons, List.map_map, List.sum_cons, SoEvent.value,
      SoValue.nodes, Nat.zero_add]
    rfl
  have short : reply.encode.length ≤ 8 * 1024 * 1024 := by omega
  refine ⟨short, fun e unscoped => ⟨_, SoMessage.serialize_spec writable ?_ ?_ unscoped, rfl, unscoped⟩⟩
  · exact (SoMessage.length_upToValues _).trans_lt (short.trans_lt (by decide))
  · have budget : WriteBudget.eMaxNodes = 1048576 := rfl
    show reply.nodes ≤ _
    omega

/-- After any requests and departures, a `use` either is refused without an answer or is answered by
one message, UseSuccess, Clear and a Change for every property there is, that can be sent. -/
theorem use_answer_sendable (reach : Transition.Reach step (fun _ _ => True) {} m) (so : SoMessage)
    (connectionId : Nat) (result : SoMessage) (pending : PendingSends) :
    handleUseEvent m so connectionId result pending = (m, result, pending) ∨
      ∃ reply : SoMessage, reply.events = useReply (m.propertiesOf so.name) ∧ reply.Sendable ∧
        (handleUseEvent m so connectionId result pending).2 =
          if result.events = [] then (reply, pending) else (result, pending ++ [(connectionId, reply)]) := by
  have sound : m.Sound := reach.invariant sound_empty fun {_ call} _ sound => sound.step call
  by_cases taken : m.Welcomes so connectionId
  case neg => exact .inl (handleUseEvent_refused taken)
  obtain ⟨manager, data, _, _, values, answer⟩ := handleUseEvent_taken result pending taken
  have replays : ∀ property value, data.values.lookup property = some value → replayable value = true := by
    intro property value stored
    rw [values, propertiesOf] at stored
    cases here : m.object so.name with
    | none =>
      rw [here] at stored
      cases stored
    | some old =>
      rw [here] at stored
      exact (sound.kept so.name old here).replays property value stored
  have sendable := useReply_sendable data.bounded replays
  rw [answer]
  right
  by_cases empty : result.events = []
  · rw [if_pos empty]
    exact ⟨_, congrArg useReply values, sendable result.name result.version 0x20, (if_pos empty).symm⟩
  · rw [if_neg empty]
    exact ⟨_, congrArg useReply values, sendable so.name so.version 0x20, (if_neg empty).symm⟩

/-- A connection uses an object and sets a property of it. -/
def furnished : SoManager :=
  step {} (.handleSo { name := [120], events := [.use, .requestChange [97] (some ⟨1, .scalar (.boolean true)⟩)] } 1)

theorem use_answer_sendable_furnished : (furnished.propertiesOf [120]).size = 1 ∧
    (handleUseEvent furnished { name := [120] } 2 { name := [120] } [] = (furnished, { name := [120] }, []) ∨
      ∃ reply : SoMessage, reply.events = useReply (furnished.propertiesOf [120]) ∧ reply.Sendable ∧
        (handleUseEvent furnished { name := [120] } 2 { name := [120] } []).2 = (reply, [])) :=
  ⟨by decide, use_answer_sendable (Transition.Reach.start.next _ trivial) { name := [120] } 2 { name := [120] } []⟩

end SoManager

end Fms
