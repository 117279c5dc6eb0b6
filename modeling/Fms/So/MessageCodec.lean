import Fms.Rtmp.LastValue
import Fms.So.Codec

namespace Fms
open ByteWire Fallible Amf Heap

variable {s' : Decoder} {event : DecodedEvent} {room : Nat} {name : Bytes}

/-- A type and a body behind its length. -/
structure SoFrame where
  type : UInt8
  body : Bytes
  counted : body.length < 2 ^ 32

def SoFrame.bytes (f : SoFrame) : Bytes := f.type :: (u32Be (UInt32.ofNat f.body.length) ++ f.body)

namespace RtmpProtocol

/-- What `deserialize_event` makes of a body, all of its input. -/
def readEventBody (type : UInt8) : Decode DecodedEvent :=
  if type = eRequestChange then deserializeRequestChangeEvent type
  else if type = eRequestRemove then deserializeRequestRemoveEvent type
  else if type = eSendMessage then do return { type, data := (← get).input }
  else return { type }

variable {s : Decoder}

variable {events : List DecodedEvent}

/-- The frames are read one by one: each from its own body and nothing else, with the heap and the
budget that the ones before it left. -/
inductive ReadsFrames : Decoder → List SoFrame → List DecodedEvent → Decoder → Prop
  | nil (s : Decoder) : ReadsFrames s [] [] s
  | cons {s u last : Decoder} {f : SoFrame} {event : DecodedEvent} {frames : List SoFrame}
      {events : List DecodedEvent} :
      Yields (readEventBody f.type) { s with input := f.body } event u → ReadsFrames u frames events last →
      ReadsFrames s (f :: frames) (event :: events) last

/-- What the input was makes no difference. -/
theorem ReadsFrames.input {frames : List SoFrame} {s last : Decoder}
    (reads : ReadsFrames s frames events last) (rest : Bytes) :
    ∃ last', ReadsFrames { s with input := rest } frames events last' ∧
      { last' with input := [] } = ({ last with input := [] } : Decoder) := by
  cases reads with
  | nil => exact ⟨_, .nil _, rfl⟩
  | cons first others => exact ⟨_, .cons first others, rfl⟩

theorem encodeName_short (short : name.length ≤ Amf0.eMaxShortString) :
    SoEvent.encodeName name = beBytes 2 name.length ++ name := by
  have word : name.length % 2 ^ 16 = name.length := Nat.mod_eq_of_lt (Nat.lt_succ_of_le short)
  rw [SoEvent.encodeName, word, Amf0.writeShortString_short short]

end RtmpProtocol

namespace SoEvent

/-- The requests of a client, with names and payloads that a length field holds and values that the
codec reads back. -/
def Portable : SoEvent → Prop
  | .use | .release => True
  | .sendMessage data => data.length < 2 ^ 32
  | .requestChange name (some ⟨_, v⟩) => name.length ≤ Amf0.eMaxShortString ∧ Amf0.RoundTrips v
  | .requestRemove name => name.length ≤ Amf0.eMaxShortString
  | _ => False

/-- The event that was read is this one. -/
def Shown (heap : List Cell) : SoEvent → DecodedEvent → Prop
  | .requestChange name (some ⟨d, v⟩), event =>
    ∃ a lo, event = { type := 3, name := some name, value := some a } ∧ Shows0 heap lo d a v
  | .requestRemove name, event => event = { type := 10, name := some name }
  | .sendMessage data, event => event = { type := 6, data }
  | .use, event => event = { type := 1 }
  | .release, event => event = { type := 2 }
  | _, _ => False

theorem Shown.stable {heap heap' : List Cell} (beyond : Beyond ∅ heap heap') {e : SoEvent}
    (shown : e.Shown heap event) :
    e.Shown heap' event := by
  unfold Shown at shown ⊢
  split at shown
  · obtain ⟨a, lo, is, shows⟩ := shown
    exact ⟨a, lo, is, shows.stable beyond fun i member => absurd member (Set.notMem_empty i)⟩
  all_goals exact shown

theorem Portable.writable {e : SoEvent} (portable : e.Portable) : e.value.Writable := by
  cases e with
  | requestChange name value =>
    cases value with
    | none => exact SoMessage.writable_none
    | some value =>
      obtain ⟨e, run⟩ := portable.2.writes
      exact (Amf0.write_of_yields rfl run).2.2
  | change name value => exact portable.elim
  | _ => exact SoMessage.writable_none

end SoEvent

namespace RtmpProtocol
variable {nodes strings : Nat} {s : Decoder} {t : Bytes} {e : SoEvent}

theorem Portable.counted (portable : e.Portable) (small : e.value.size ≤ ReadBudget.eMaxStringBytes) :
    e.body.length < 2 ^ 32 := by
  have limit : ReadBudget.eMaxStringBytes + 65540 < 2 ^ 32 := by decide
  have short {name : Bytes} (within : name.length ≤ Amf0.eMaxShortString) :
      (SoEvent.encodeName name).length ≤ 65537 := by
    have bound : Amf0.eMaxShortString = 65535 := rfl
    rw [encodeName_short within, List.length_append, length_beBytes]
    omega
  cases e with
  | use => exact Nat.zero_lt_of_lt limit
  | release => exact Nat.zero_lt_of_lt limit
  | sendMessage data => exact portable
  | requestRemove name =>
    have named := short portable
    show (SoEvent.encodeName name ++ SoValue.encode none).length < 2 ^ 32
    rw [List.length_append, SoValue.encode, List.length_singleton]
    omega
  | requestChange name value =>
    cases value with
    | none => exact portable.elim
    | some value =>
      have named := short portable.1
      have inside : (Amf0.encode value.1 value.2).length ≤ ReadBudget.eMaxStringBytes := small
      show (SoEvent.encodeName name ++ Amf0.encode value.1 value.2).length < 2 ^ 32
      rw [List.length_append]
      omega
  | _ => exact portable.elim

/-- Two properties, each an array that makes a message of its own. -/
def crowded : SoMessage :=
  { name := [120]
    events :=
      [.requestChange [97] (some ⟨_, repeated .null 40000⟩), .requestChange [98]
        (some ⟨_, repeated .undefined 40000⟩)] }

end RtmpProtocol

end Fms
