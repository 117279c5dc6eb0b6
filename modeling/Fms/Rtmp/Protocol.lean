import Fms.Rtmp.Channel

namespace Fms
open ByteWire

inductive MessageType
  | chunkSize
  | abort
  | bytesRead
  | ping
  | windowAcknowledgementSize
  | setPeerBandwidth
  | audioData
  | videoData
  | notifyAMF3
  | invokeAMF3
  | notify
  | sharedObject
  | invoke
  | aggregate
  | close
  deriving DecidableEq, Repr

namespace MessageType

def code : MessageType → UInt8
  | chunkSize => 0x01
  | abort => 0x02
  | bytesRead => 0x03
  | ping => 0x04
  | windowAcknowledgementSize => 0x05
  | setPeerBandwidth => 0x06
  | audioData => 0x08
  | videoData => 0x09
  | notifyAMF3 => 0x0f
  | invokeAMF3 => 0x11
  | notify => 0x12
  | sharedObject => 0x13
  | invoke => 0x14
  | aggregate => 0x16
  | close => 0xff

/-- The types `rtmp_protocol::deserialize` knows; the internal close marker is not
one of them. -/
def ofCode (c : UInt8) : Option MessageType :=
  [chunkSize, abort, bytesRead, ping, windowAcknowledgementSize, setPeerBandwidth, audioData, videoData,
    notifyAMF3, invokeAMF3, notify, sharedObject, invoke, aggregate].find? fun t => t.code == c

theorem ofCode_code {t : MessageType} (wire : t ≠ .close) : ofCode t.code = some t := by
  cases t <;> first | rfl | exact absurd rfl wire

end MessageType

/-- A decoded message. Invoke, notify, shared-object and aggregate bodies are
values of a codec of their own. -/
inductive Message (μ : Type)
  | chunkSize (size : UInt32)
  | abort (chunkStreamId : UInt32)
  | bytesRead (count : UInt32)
  | ping (type : UInt16) (values : List UInt32)
  | windowAcknowledgementSize (size : UInt32)
  | setPeerBandwidth (size : UInt32) (limitType : UInt8)
  | audioData (data : Bytes)
  | videoData (data : Bytes)
  | encoded (value : μ)

/-- A message on its way out: the body is what `payload_view` or `serialize` yields,
or nothing when the write bounds refuse it. -/
structure RtmpMessage where
  type : MessageType
  streamId : UInt32
  channelId : UInt32
  timestamp : UInt32
  payload : Option Bytes

namespace RtmpProtocol

def eChunkSize : UInt32 := 128

/-- The framer divides by the chunk size, so a zero never reaches it. -/
def chunkSizeOf (chunkSize : UInt32) : UInt32 := if chunkSize ≠ 0 then chunkSize else eChunkSize

section deserialize
variable {μ : Type} (decode : RtmpHeader → Bytes → Option μ)

def readWords : Nat → Bytes → Option (List UInt32)
  | 0, _ => some []
  | n + 1, buffer => do
    let (v, buffer) ← tryU32Be buffer
    let values ← readWords n buffer
    return v :: values

def deserializePing (buffer : Bytes) (size : UInt32) : Option (Message μ) :=
  if size = 2 ∨ size = 6 ∨ size = 10 ∨ size = 14 then do
    let (type, buffer) ← takeBytes 2 buffer
    let values ← readWords ((size.toNat - 2) / 4) buffer
    return .ping (UInt16.ofNat (beNat type)) values
  else none

def deserializeSetPeerBandwidth (buffer : Bytes) : Option (Message μ) := do
  let (size, buffer) ← tryU32Be buffer
  let (limitType, _) ← tryU8 buffer
  return .setPeerBandwidth size limitType

/-- `deserialize` of one assembled body. An over-read (`buffer_eof_exception`) and a
refused body both drop the message, so both are `none`. -/
def deserialize (buffer : Bytes) (h : RtmpHeader) : Option (Message μ) :=
  match MessageType.ofCode h.messageType with
  | some .audioData => (takeBytes h.messageLength.toNat buffer).map fun (data, _) => .audioData data
  | some .videoData => (takeBytes h.messageLength.toNat buffer).map fun (data, _) => .videoData data
  | some .bytesRead => (tryU32Be buffer).map fun (count, _) => .bytesRead count
  | some .ping => deserializePing buffer h.messageLength
  | some .windowAcknowledgementSize => (tryU32Be buffer).map fun (size, _) => .windowAcknowledgementSize size
  | some .setPeerBandwidth => deserializeSetPeerBandwidth buffer
  | some .chunkSize => (tryU32Be buffer).map fun (size, _) => .chunkSize size
  | some .abort => (tryU32Be buffer).map fun (id, _) => .abort id
  | some .notifyAMF3 | some .invokeAMF3 | some .notify | some .sharedObject | some .invoke
  | some .aggregate => (decode h buffer).map .encoded
  | some .close | none => none

end deserialize

/-- The chunks of a body after the first `chunks - 1`: a continuation header goes
between two chunks, none after the last. -/
def chunkLoop (chunkSize : Nat) (continuation : Bytes) : Nat → Bytes → Bytes
  | 0, src => src
  | i + 1, src => src.take chunkSize ++ continuation ++ chunkLoop chunkSize continuation i (src.drop chunkSize)

def chunkBuffer (chunkSize : UInt32) (src : Bytes) (header : RtmpHeader) : Bytes :=
  if src.length ≠ 0 then
    let chunks := src.length / chunkSize.toNat + if src.length % chunkSize.toNat = 0 then 0 else 1
    chunkLoop chunkSize.toNat header.serializeHeaderContinueSize (chunks - 1) src
  else []

/-- `serialize`: the header it wrote and the bytes, or nothing when the body cannot
be described. A fresh header is filled, as every caller passes one. -/
def serialize (chunkSize : UInt32) (msg : RtmpMessage) (previousHeader : RtmpHeader) :
    Option (RtmpHeader × Bytes) := do
  let payload ← msg.payload
  let payloadLen := UInt32.ofNat payload.length
  if payloadLen > RtmpHeader.eMaxMessageLength then none
  else
    let newHeader : RtmpHeader :=
      { messageLength := payloadLen, messageType := msg.type.code, streamId := msg.streamId,
        channelId := msg.channelId, timestamp := msg.timestamp }
    let (newHeader, head) := newHeader.serialize previousHeader
    return (newHeader, head ++ chunkBuffer (chunkSizeOf chunkSize) (payload.take payloadLen.toNat) newHeader)

end RtmpProtocol

/-- The sending half of a connection: its chunk size and, for every chunk stream, the
header last written on it. -/
structure ChunkWriter where
  outgoingChunkSize : UInt32 := RtmpProtocol.eChunkSize
  sent : AList (fun _ : UInt32 => RtmpHeader) := ∅

namespace ChunkWriter

def setOutgoingChunkSize (w : ChunkWriter) (size : UInt32) : ChunkWriter :=
  if size = 0 then w else { w with outgoingChunkSize := size }

def sentHeader (w : ChunkWriter) (channel : UInt32) : RtmpHeader := (w.sent.lookup channel).getD {}

/-- The chunk size a message announces, if it announces one. -/
def announced (msg : RtmpMessage) : Option UInt32 :=
  match msg.type, msg.payload with
  | .chunkSize, some payload => (tryU32Be payload).map Prod.fst
  | _, _ => none

/-- What an announcement does to the sender itself. -/
def announce (w : ChunkWriter) (msg : RtmpMessage) : ChunkWriter :=
  match announced msg with
  | some size => w.setOutgoingChunkSize size
  | none => w

/-- `serialize_message` on the channel of the message. The protocol object is built
before an announcement takes effect, so the announcement itself goes out in the
old size. A refused message leaves the sent header alone. -/
def serializeMessage (w : ChunkWriter) (msg : RtmpMessage) : ChunkWriter × Bytes :=
  let w' := w.announce msg
  match RtmpProtocol.serialize w.outgoingChunkSize msg (w.sentHeader msg.channelId) with
  | some (h, bytes) => ({ w' with sent := w'.sent.insert msg.channelId h }, bytes)
  | none => (w', [])

def serializeAll (w : ChunkWriter) : List RtmpMessage → ChunkWriter × Bytes
  | [] => (w, [])
  | msg :: rest =>
    let (w, bytes) := w.serializeMessage msg
    let (w, more) := w.serializeAll rest
    (w, bytes ++ more)

end ChunkWriter
end Fms
