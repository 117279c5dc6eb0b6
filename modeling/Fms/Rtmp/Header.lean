import Fms.ByteBuffer

namespace Fms
open ByteWire

/-- The chunk header formats, in the order of their two-bit code. -/
inductive HeaderType
  | headerNew
  | headerSameSource
  | headerTimerChange
  | headerContinue
  deriving DecidableEq, Repr

namespace HeaderType

/-- The format bits at their place in the first byte of the basic header. -/
def bits : HeaderType → UInt8
  | headerNew => 0x00
  | headerSameSource => 0x40
  | headerTimerChange => 0x80
  | headerContinue => 0xc0

def ofByte (c : UInt8) : HeaderType :=
  match (c >>> 6).toNat with
  | 0 => headerNew
  | 1 => headerSameSource
  | 2 => headerTimerChange
  | _ => headerContinue

end HeaderType

/-- `rtmp_header`: one chunk header and the timestamp state kept beside it. -/
structure RtmpHeader where
  headerSize : UInt32 := 0
  channelId : UInt32 := 0
  timestamp : UInt32 := 0
  tsDeltaWrite : UInt32 := 0
  tsDeltaRead : UInt32 := 0
  messageLength : UInt32 := 0
  streamId : UInt32 := 0
  messageType : UInt8 := 0
  headerType : HeaderType := .headerNew
  hasExtendedTs : Bool := false
  deriving DecidableEq, Repr

namespace RtmpHeader

/-- The 3-byte wire field: anything larger cannot be described. -/
def eMaxMessageLength : UInt32 := 0xFFFFFF

/-- The chunk stream id behind the first byte `c` of a basic header, and how many
bytes the basic header takes. -/
def tryChannelId (c : UInt8) (r : Bytes) : Option ((UInt32 × UInt32) × Bytes) :=
  if c &&& 0x3f = 0 then do
    let (b, r) ← tryU8 r
    return ((64 + b.toUInt32, 2), r)
  else if c &&& 0x3f = 1 then do
    let (a, r) ← tryU8 r
    let (b, r) ← tryU8 r
    return ((64 + a.toUInt32 + b.toUInt32 * 256, 3), r)
  else
    some (((c &&& 0x3f).toUInt32, 1), r)

def tryHeaderNew (h : RtmpHeader) (r : Bytes) : Option (RtmpHeader × Bytes) := do
  let (timestamp, r) ← tryU24Be r
  let (messageLength, r) ← tryU24Be r
  let (messageType, r) ← tryU8 r
  let (streamId, r) ← tryU32Le r
  let h := { h with tsDeltaRead := 0, timestamp, messageLength, messageType, streamId, hasExtendedTs := false }
  if timestamp = 0x00ffffff then
    let (timestamp, r) ← tryU32Be r
    return ({ h with timestamp, hasExtendedTs := true }, r)
  else
    return (h, r)

def tryExtendedTs (h : RtmpHeader) (r : Bytes) : Option (RtmpHeader × Bytes) :=
  if h.tsDeltaRead = 0x00ffffff then
    (tryU32Be r).map fun (tsDeltaRead, r) => ({ h with tsDeltaRead, hasExtendedTs := true }, r)
  else
    some ({ h with hasExtendedTs := false }, r)

def tryHeaderSameSource (h : RtmpHeader) (r : Bytes) : Option (RtmpHeader × Bytes) := do
  let (tsDeltaRead, r) ← tryU24Be r
  let (messageLength, r) ← tryU24Be r
  let (messageType, r) ← tryU8 r
  let (h, r) ← tryExtendedTs { h with tsDeltaRead, messageLength, messageType } r
  return ({ h with timestamp := h.timestamp + h.tsDeltaRead }, r)

def tryHeaderTimerChange (h : RtmpHeader) (r : Bytes) : Option (RtmpHeader × Bytes) := do
  let (tsDeltaRead, r) ← tryU24Be r
  let (h, r) ← tryExtendedTs { h with tsDeltaRead } r
  return ({ h with timestamp := h.timestamp + h.tsDeltaRead }, r)

/-- A type-3 header carries nothing but the repeated extended field, which the
channel applies. -/
def tryHeaderContinue (h : RtmpHeader) (r : Bytes) : Option (RtmpHeader × Bytes) :=
  if h.hasExtendedTs then (tryU32Be r).map fun (_, r) => (h, r) else some (h, r)

/-- The message header behind the basic header, by format, with its fixed size. -/
def tryMessageHeader (h : RtmpHeader) (r : Bytes) : Option ((RtmpHeader × UInt32) × Bytes) :=
  match h.headerType with
  | .headerNew => (tryHeaderNew h r).map fun (h, r) => ((h, 11), r)
  | .headerSameSource => (tryHeaderSameSource h r).map fun (h, r) => ((h, 7), r)
  | .headerTimerChange => (tryHeaderTimerChange h r).map fun (h, r) => ((h, 3), r)
  | .headerContinue => (tryHeaderContinue h r).map fun (h, r) => ((h, 0), r)

/-- `try_deserialize`: the header read over the accumulated one, and the cursor
behind it; nothing is committed unless the whole header is present. -/
def tryDeserialize (h : RtmpHeader) (r : Bytes) : Option (RtmpHeader × Bytes) := do
  let (c, r) ← tryU8 r
  let ((channelId, channelBytesCount), r) ← tryChannelId c r
  let ((h, size), r) ← tryMessageHeader { h with headerType := .ofByte c, channelId } r
  return ({ h with headerSize := channelBytesCount + size }, r)

theorem tryChannelId_local (c : UInt8) : Local (tryChannelId c) := by
  unfold tryChannelId
  split
  · exact tryU8_local.bind fun b => Local.pure _
  · split
    · exact tryU8_local.bind fun a => tryU8_local.bind fun b => Local.pure _
    · exact Local.pure _

theorem tryExtendedTs_local (h : RtmpHeader) : Local (tryExtendedTs h) := by
  unfold tryExtendedTs
  split
  · exact (tryWord_local 4 beNat).map fun tsDeltaRead => { h with tsDeltaRead, hasExtendedTs := true }
  · exact Local.pure _

theorem tryHeaderNew_local (h : RtmpHeader) : Local (tryHeaderNew h) := by
  refine (tryWord_local 3 beNat).bind fun timestamp => (tryWord_local 3 beNat).bind fun messageLength =>
    tryU8_local.bind fun messageType => (tryWord_local 4 leNat).bind fun streamId => ?_
  by_cases extended : timestamp = 0x00ffffff
  · simp only [extended, if_true]
    refine (tryWord_local 4 beNat).bind fun ts => ?_
    dsimp only
    exact Local.pure _
  · simp only [extended, if_false]
    exact Local.pure _

theorem tryMessageHeader_local (h : RtmpHeader) : Local (tryMessageHeader h) := by
  unfold tryMessageHeader
  split
  · exact (tryHeaderNew_local h).map fun h => (h, 11)
  · refine Local.map (?_ : Local (tryHeaderSameSource h)) fun h => (h, 7)
    exact (tryWord_local 3 beNat).bind fun tsDeltaRead => (tryWord_local 3 beNat).bind fun messageLength =>
      tryU8_local.bind fun messageType => (tryExtendedTs_local _).bind fun h => Local.pure _
  · refine Local.map (?_ : Local (tryHeaderTimerChange h)) fun h => (h, 3)
    exact (tryWord_local 3 beNat).bind fun tsDeltaRead => (tryExtendedTs_local _).bind fun h => Local.pure _
  · refine Local.map (?_ : Local (tryHeaderContinue h)) fun h => (h, 0)
    unfold tryHeaderContinue
    split
    · exact (tryWord_local 4 beNat).map fun _ => h
    · exact Local.pure h

theorem tryDeserialize_local (h : RtmpHeader) : Local (tryDeserialize h) :=
  tryU8_local.bind fun c => (tryChannelId_local c).bind fun _ => (tryMessageHeader_local _).bind fun _ =>
    Local.pure _

theorem tryDeserialize_length {h h' : RtmpHeader} {r rest : Bytes}
    (read : h.tryDeserialize r = some (h', rest)) : rest.length < r.length := by
  obtain ⟨⟨c, behind⟩, first, read⟩ := Option.bind_eq_some_iff.mp read
  have later : Local fun r => (tryChannelId c r).bind fun (ids, r) =>
      (tryMessageHeader { h with headerType := .ofByte c, channelId := ids.1 } r).bind fun (got, r) =>
        some ({ got.1 with headerSize := ids.2 + got.2 }, r) :=
    (tryChannelId_local c).bind fun _ => (tryMessageHeader_local _).bind fun _ => Local.pure _
  exact Nat.lt_of_le_of_lt (later.suffix read).length_le (tryU8_length first)

/-- The basic header all four serializers start with. -/
def basicHeader (format : HeaderType) (channelId : UInt32) : Bytes :=
  if channelId < 64 then
    [channelId.toUInt8 ||| format.bits]
  else if channelId ≤ 319 then
    [format.bits, channelId.toUInt8 - 64]
  else
    (format.bits ||| 1) :: u16Le (channelId - 64).toUInt16

/-- The 24-bit time field, saturated when the value goes to the extended one. -/
def timeField (ts : UInt32) : Bytes :=
  if ts < 0x00ffffff then u24Be ts else u24Be 0x00ffffff

def extendedField (ts : UInt32) : Bytes :=
  if ts ≥ 0x00ffffff then u32Be ts else []

def serializeHeaderNew (h : RtmpHeader) : Bytes :=
  basicHeader .headerNew h.channelId ++ timeField h.timestamp ++ u24Be h.messageLength ++
    [h.messageType] ++ u32Le h.streamId ++ extendedField h.timestamp

def serializeHeaderSameSource (h : RtmpHeader) : Bytes :=
  basicHeader .headerSameSource h.channelId ++ timeField h.tsDeltaWrite ++ u24Be h.messageLength ++
    [h.messageType] ++ extendedField h.tsDeltaWrite

def serializeHeaderTimerChange (h : RtmpHeader) : Bytes :=
  basicHeader .headerTimerChange h.channelId ++ timeField h.tsDeltaWrite ++ extendedField h.tsDeltaWrite

/-- The value a continuation repeats: absolute after a type-0 header, the delta
after a type-1 or type-2 one. -/
def repeatedTs (h : RtmpHeader) : UInt32 :=
  if h.headerType = .headerNew then h.timestamp else h.tsDeltaWrite

def serializeHeaderContinueSize (h : RtmpHeader) : Bytes :=
  basicHeader .headerContinue h.channelId ++ extendedField h.repeatedTs

/-- Write the header in the format a size stands for, which the header remembers. -/
def serializeAs (h : RtmpHeader) (format : HeaderType) : RtmpHeader × Bytes :=
  let h := { h with headerType := format }
  match format with
  | .headerNew => (h, h.serializeHeaderNew)
  | .headerSameSource => (h, h.serializeHeaderSameSource)
  | .headerTimerChange => (h, h.serializeHeaderTimerChange)
  | .headerContinue => (h, h.serializeHeaderContinueSize)

/-- `serialize`: the smallest format that the previous header of the same channel
lets a reader complete. -/
def serialize (h previousHeader : RtmpHeader) : RtmpHeader × Bytes :=
  if previousHeader.timestamp > h.timestamp then
    h.serializeAs .headerNew
  else
    let h := { h with tsDeltaWrite := h.timestamp - previousHeader.timestamp }
    if previousHeader.streamId ≠ 0 ∧ h.streamId = previousHeader.streamId then
      if h.messageType = previousHeader.messageType ∧ h.messageLength = previousHeader.messageLength then
        if h.tsDeltaWrite = previousHeader.tsDeltaWrite ∧ h.channelId = previousHeader.channelId ∧
            previousHeader.headerType = .headerTimerChange then
          h.serializeAs .headerContinue
        else
          h.serializeAs .headerTimerChange
      else
        h.serializeAs .headerSameSource
    else
      h.serializeAs .headerNew

end RtmpHeader
end Fms
