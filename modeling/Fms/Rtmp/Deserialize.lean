import Fms.Amf.Amf0
import Fms.Rtmp.Protocol
import Fms.So.Manager

namespace Fms.Amf
open ByteWire Fallible

/-- A `read_scope`: the outermost one starts the budget that every codec of the thread then
spends. -/
def readScope {α : Type} (action : Decode α) : Decode α :=
  guarded (fun s => { s with scopes := s.scopes - 1 }) do
    modify fun s => { s with budget := if s.scopes = 0 then {} else s.budget, scopes := s.scopes + 1 }
    action

/-- The `amf0` of a new message. -/
def newCodec : Decode Unit := modify fun s => { s with refs := [], stringRefs := [], traitsRefs := [], depth := 0 }

/-- A reader of its own over the next `len` bytes; the one it was taken from does not move. -/
def bounded {α : Type} (len : Nat) (action : Decode α) : Decode α := do
  let outer ← get
  modify fun s => { s with input := s.input.take len }
  guarded (fun s => { s with input := outer.input }) action

/-- `read` at the depth the codec is at: only there at the top level is anything reset. -/
def Amf0.readHere : Decode Nat := do
  let depth := (← get).depth
  if depth = 0 then Amf0.resetRefs
  Amf0.readAt anyRef (eMaxDepth - depth)

theorem Amf0.readHere_top {s : Decoder} (top : s.depth = 0) : Amf0.readHere s = Amf0.read s := by
  show (do
    if s.depth = 0 then Amf0.resetRefs
    Amf0.readAt anyRef (eMaxDepth - s.depth) : Decode Nat) s = _
  rw [top]
  rfl

end Fms.Amf

namespace Fms
open ByteWire Fallible Amf

/-- An `event` of a shared-object message, with the address of its value. -/
structure DecodedEvent where
  type : UInt8
  name : Option Bytes := none
  value : Option Nat := none
  data : Bytes := []

/-- What `deserialize` sets on every message it returns. -/
structure Stamp where
  timestamp : UInt32
  streamId : UInt32
  channelId : UInt32
  deriving DecidableEq

def RtmpHeader.stamp (h : RtmpHeader) : Stamp :=
  { timestamp := h.timestamp, streamId := h.streamId, channelId := h.channelId }

/-- The messages with AMF in their bodies, values given by their addresses. -/
inductive Decoded
  | notify (function : Bytes) (params : List Nat)
  | invoke (function : Bytes) (invokeId : UInt64) (params : List Nat)
  | sharedObject (name : Bytes) (version flags : UInt32) (events : List DecodedEvent)
  | aggregate (messages : List (Stamp × Message Decoded))

mutual
/-- `adopt_stream`: the sub-messages at every depth belong to the stream of the whole. -/
def Decoded.adoptStream (streamId channelId : UInt32) : Decoded → Decoded
  | .aggregate messages => .aggregate (adoptAll streamId channelId messages)
  | other => other

def adoptAll (streamId channelId : UInt32) : List (Stamp × Message Decoded) → List (Stamp × Message Decoded)
  | [] => []
  | (stamp, message) :: rest =>
    ({ stamp with streamId, channelId }, message.adoptStream streamId channelId) :: adoptAll streamId channelId rest

def Message.adoptStream (streamId channelId : UInt32) : Message Decoded → Message Decoded
  | .encoded value => .encoded (value.adoptStream streamId channelId)
  | other => other
end

namespace RtmpProtocol

def eMaxParameters : Nat := 64
def eMaxSubMessages : Nat := 1024
def eMaxAggregateDepth : Nat := 4

/-- `read_short_string` with its marker. What it reports about another marker is ignored: the
string stays empty, and the marker is consumed. -/
def readFunction (r : Bytes) : Option (Bytes × Bytes) := do
  let (b, r) ← tryU8 r
  if b = Amf0.Marker.string.toByte then Amf0.readShortString r else return ([], r)

/-- `read_number` with its marker, ignored in the same way. -/
def readInvokeId (r : Bytes) : Option (UInt64 × Bytes) := do
  let (b, r) ← tryU8 r
  if b = Amf0.Marker.number.toByte then Amf0.readNumber r else return (0, r)

/-- Values to the end of the body, with room for that many. -/
def readParameters : Nat → Decode (List Nat)
  | 0 => do
    if (← available) > 0 then throw .amf0Read else return []
  | room + 1 => do
    if (← available) > 0 then
      let value ← Amf0.readHere
      let values ← readParameters room
      return value :: values
    else return []

def deserializeNotify : Decode Decoded :=
  readScope do
    newCodec
    let function ← lift readFunction
    let params ← readParameters eMaxParameters
    return .notify function params

def deserializeInvoke : Decode Decoded :=
  readScope do
    newCodec
    let function ← lift readFunction
    let invokeId ← lift readInvokeId
    let params ← readParameters eMaxParameters
    return .invoke function invokeId params

/-- The AMF3 variants: a zero byte, then the plain body. Anything else is left unread. -/
def behindZero (empty : Decoded) (body : Decode Decoded) : Decode Decoded := do
  match (← get).input with
  | [] => return empty
  | type :: rest =>
    if type = 0 then
      modify fun s => { s with input := rest }
      body
    else return empty

def deserializeNotifyAmf3 : Decode Decoded := behindZero (.notify [] []) deserializeNotify
def deserializeInvokeAmf3 : Decode Decoded := behindZero (.invoke [] 0 []) deserializeInvoke

/-- The types that `deserialize_event` tells apart. -/
def eRequestChange : UInt8 := 3
def eSendMessage : UInt8 := 6
def eRequestRemove : UInt8 := 10

def skip (len : Nat) (refusal : AmfError) : Decode Unit := do
  if len > (← available) then throw refusal else modify fun s => { s with input := s.input.drop len }

theorem yields_skip {s s' : Decoder} {len : Nat} {refusal : AmfError} {u : Unit} : Yields (skip len refusal) s u s' ↔
    len ≤ s.input.length ∧ s' = { s with input := s.input.drop len } := by
  unfold skip
  rw [yields_bind]
  constructor
  · rintro ⟨n, t, got, run⟩
    obtain ⟨rfl, rfl⟩ := yields_available got
    rcases yields_ite.mp run with ⟨_, refused⟩ | ⟨fits, run⟩
    · exact absurd refused yields_throw
    · exact ⟨not_lt.mp fits, yields_modify.mp run⟩
  · rintro ⟨fits, same⟩
    exact ⟨_, s, rfl, yields_ite.mpr (.inr ⟨not_lt.mpr fits, yields_modify.mpr same⟩)⟩

def deserializeRequestChangeEvent (type : UInt8) : Decode DecodedEvent := do
  let name ← lift Amf0.readShortString
  let value ← Amf0.readHere
  return { type, name, value }

def deserializeRequestRemoveEvent (type : UInt8) : Decode DecodedEvent := do
  let name ← lift Amf0.readShortString
  return { type, name }

/-- One event. The two requests are read inside the declared length only. -/
def deserializeEvent : Decode DecodedEvent := do
  let type ← lift tryU8
  let len := (← lift tryU32Be).toNat
  if type = eRequestChange ∨ type = eRequestRemove then
    if len > (← available) then throw .amf0Read
    else
      let event ← bounded len
        (if type = eRequestChange then deserializeRequestChangeEvent type else deserializeRequestRemoveEvent type)
      skip len .bufferEof
      return event
  else if type = eSendMessage then
    let data ← lift (takeBytes len)
    return { type, data }
  else
    skip len .amf0Read
    return { type }

def readEvents : Nat → Decode (List DecodedEvent)
  | 0 => do
    if (← available) > 0 then throw .amf0Read else return []
  | room + 1 => do
    if (← available) > 0 then
      let event ← deserializeEvent
      let events ← readEvents room
      return event :: events
    else return []

def deserializeSharedObject : Decode Decoded :=
  readScope do
    newCodec
    let name ← lift Amf0.readShortString
    let version ← lift tryU32Be
    let flags ← lift tryU32Be
    skip 4 .bufferEof
    let events ← readEvents SoMessage.eMaxEvents
    return .sharedObject name version flags events

/-- What a refused body and an over-read give the aggregate: no sub-message. -/
def dropOverread {α : Type} (action : Decode (Option α)) : Decode (Option α) :=
  tryCatch action fun e => if e = .bufferEof then return none else throw e

/-- The tag header of a sub-message. Its time counts from the previous one's, the first has
the time of the whole. With it goes the time on the wire. -/
def readTag (ts : UInt32) (prev : Option (UInt32 × UInt32)) : Decode (RtmpHeader × UInt32) := do
  let messageType ← lift tryU8
  let messageLength ← lift tryU24Be
  let low ← lift tryU24Be
  let high ← lift tryU8
  let wire := low ||| high.toUInt32 <<< 24
  let timestamp := match prev with
    | none => ts
    | some (prevTs, prevCalcTs) => prevCalcTs + wire - prevTs
  let streamId ← lift tryU24Be
  return ({ messageType, messageLength, timestamp, streamId }, wire)

/-- The wire time and the time of the last sub-message, and the sub-messages so far. -/
abbrev Aggregation := Option (UInt32 × UInt32) × List (Stamp × Message Decoded)

/-- The body behind a tag. One that is longer than the rest ends the loop, and so does a rest
without room for the size that follows. -/
def takeSubMessage (sub : RtmpHeader → Decode (Option (Message Decoded))) (messages : List (Stamp × Message Decoded))
    (h : RtmpHeader) (wire : UInt32) : Decode (Aggregation ⊕ List (Stamp × Message Decoded)) := do
  let len := h.messageLength.toNat
  if len > (← available) then return .inr messages
  else
    let message ← dropOverread (bounded len (sub h))
    let messages := messages ++ (message.map fun m => (h.stamp, m)).toList
    skip len .bufferEof
    if (← available) < 4 then return .inr messages
    else
      skip 4 .bufferEof
      return .inl (some (wire, h.timestamp), messages)

/-- One round of the loop of `rtmp_message_aggregate::deserialize`. -/
def readSubMessage (sub : RtmpHeader → Decode (Option (Message Decoded))) (ts : UInt32) (soFar : Aggregation) :
    Decode (Aggregation ⊕ List (Stamp × Message Decoded)) := do
  if (← available) = 0 then return .inr soFar.2
  else if soFar.2.length = eMaxSubMessages then throw .amf0Read
  else
    let (h, wire) ← readTag ts soFar.1
    takeSubMessage sub soFar.2 h wire

/-- A tag takes eleven bytes, so the fuel is never what ends the loop. -/
def deserializeAggregate (sub : RtmpHeader → Decode (Option (Message Decoded))) (ts : UInt32) : Decode Decoded :=
  readScope do
    let messages ← iterate .bufferEof (readSubMessage sub ts) ((← available) + 1) (none, [])
    return .aggregate messages

/-- The `catch` clauses of `deserialize`: a refused body gives no message, an over-read goes on
to the caller. -/
def dropRefused {α : Type} (action : Decode (Option α)) : Decode (Option α) :=
  tryCatch action fun e => if e = .bufferEof then throw e else return none

def encoded (body : Decode Decoded) : Decode (Option (Message Decoded)) :=
  dropRefused do return some (.encoded (← body))

/-- `deserialize` with what it does about an aggregate. The other bodies hold no AMF. -/
def deserializeWith (aggregate : Decode (Option (Message Decoded)))
    (h : RtmpHeader) : Decode (Option (Message Decoded)) :=
  match MessageType.ofCode h.messageType with
  | some .notify => encoded deserializeNotify
  | some .notifyAMF3 => encoded deserializeNotifyAmf3
  | some .invoke => encoded deserializeInvoke
  | some .invokeAMF3 => encoded deserializeInvokeAmf3
  | some .sharedObject => encoded deserializeSharedObject
  | some .aggregate => aggregate
  | _ => do return RtmpProtocol.deserialize (fun _ _ => none) (← get).input h

/-- `deserialize` with that many levels of aggregates left. -/
def deserializeAt : Nat → RtmpHeader → Decode (Option (Message Decoded))
  | 0, h => deserializeWith (return none) h
  | levels + 1, h =>
    let aggregate := do
      let message ← encoded (deserializeAggregate (deserializeAt levels) h.timestamp)
      return message.map (Message.adoptStream h.streamId h.channelId)
    deserializeWith aggregate h

end RtmpProtocol

mutual
def Decoded.values : Decoded → List Nat
  | .notify _ params => params
  | .invoke _ _ params => params
  | .sharedObject _ _ _ events => events.filterMap DecodedEvent.value
  | .aggregate messages => valuesOfAll messages

def valuesOfAll : List (Stamp × Message Decoded) → List Nat
  | [] => []
  | (_, message) :: rest => message.values ++ valuesOfAll rest

def Message.values : Message Decoded → List Nat
  | .encoded value => value.values
  | _ => []
end

end Fms
