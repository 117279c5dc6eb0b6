import Fms.ByteBuffer

namespace Fms
open ByteWire

namespace Rtmfp

/-- The chunk types `deserialize_chunk` recognises. -/
inductive ChunkType
  | ping
  | sessionClose
  | userData
  | nextUserData
  | initiatorHello
  | initiatorInitialKeying
  | sessionCloseAcknowledgement
  | dataAcknowledgementRanges
  | flowExceptionReport
  deriving DecidableEq, Repr

def ChunkType.ofByte (type : UInt8) : Option ChunkType :=
  if type = 0x30 then some .initiatorHello
  else if type = 0x38 then some .initiatorInitialKeying
  else if type = 0x10 then some .userData
  else if type = 0x11 then some .nextUserData
  else if type = 0x51 then some .dataAcknowledgementRanges
  else if type = 0x5e then some .flowExceptionReport
  else if type = 0x01 then some .ping
  else if type = 0x0c then some .sessionClose
  else if type = 0x4c then some .sessionCloseAcknowledgement
  else none

/-- `option`: a length of zero is the marker that ends a list. -/
structure OptionField where
  len : Nat := 0
  type : Nat := 0
  value : Bytes := []
  deriving DecidableEq, Repr

/-- The part user data chunks share: the flags, the options and the data. -/
structure DataChunk where
  flags : UInt8
  options : List OptionField
  userData : Bytes
  deriving DecidableEq, Repr

def optionsPresent (flags : UInt8) : Bool := flags &&& 0x80 ≠ 0

def DataChunk.fragCtl (c : DataChunk) : UInt8 := (c.flags >>> 4) &&& 0x03
def DataChunk.shouldAbandon (c : DataChunk) : Bool := c.flags &&& 0x02 ≠ 0
def DataChunk.isFinal (c : DataChunk) : Bool := c.flags &&& 0x01 ≠ 0

inductive Chunk
  | ihello (epd tag : Bytes)
  | iikeying (isid cookieEcho initiatorCert skic signature : Bytes)
  | userData (flowId seqNumber fsnOffset : Nat) (data : DataChunk)
  | nextUserData (data : DataChunk)
  | rangeAck (flowId buffBlocksAvailable cumulativeAck : Nat) (ranges : List (Nat × Nat))
  | flowExceptionReport (flowId exception : Nat)
  | ping (data : Bytes)
  | close
  | closeAck
  deriving DecidableEq, Repr

/-- `option::deserialize`. -/
def readOption (r : Bytes) : Option (OptionField × Bytes) := do
  let (len, r) ← readVlu r
  if len ≠ 0 then
    let here := r
    let (type, r) ← readVlu r
    let consumed := here.length - r.length
    if consumed > len then none
    else if len - consumed > 0xFFFF then none
    else
      let (value, r) ← takeBytes (len - consumed) r
      return ({ len, type, value }, r)
  else return ({}, r)

/-- `option_list::deserialize`. An option takes at least one byte, so as much fuel as there
are bytes is never what ends the list. -/
def readOptions : Nat → Bytes → Option (List OptionField × Bytes)
  | 0, _ => none
  | fuel + 1, r => do
    let (opt, r) ← readOption r
    if opt.len = 0 then return ([], r)
    else
      let (more, r) ← readOptions fuel r
      return (opt :: more, r)

/-- The options of a user data chunk, read only when its flags announce them. -/
def readFlaggedOptions (flags : UInt8) (r : Bytes) : Option (List OptionField × Bytes) :=
  if optionsPresent flags then readOptions r.length r else some ([], r)

/-- How many bytes a chunk of `len` bytes that starts at `here` still has at `r`. -/
def trailingLen (here : Bytes) (len : Nat) (r : Bytes) : Option Nat :=
  let consumed := here.length - r.length
  if consumed > len then none
  else if len - consumed > r.length ∨ len - consumed > 0xFFFF then none
  else some (len - consumed)

/-- A chunk that ends in a field of no length of its own: whatever the declared length
leaves after the fields before it. -/
def readTrailing {α : Type} (fields : Bytes → Option (α × Bytes)) (make : α → Bytes → Chunk) (here : Bytes)
    (len : Nat) : Option (Chunk × Bytes) := do
  let (a, r) ← fields here
  let n ← trailingLen here len r
  let (tail, r) ← takeBytes n r
  return (make a tail, r)

def readBlock (r : Bytes) : Option (Bytes × Bytes) := do
  let (n, r) ← readVlu r
  takeBytes n r

def ihelloFields : Bytes → Option (Bytes × Bytes) := readBlock

def iikeyingFields (r : Bytes) : Option ((Bytes × Bytes × Bytes × Bytes) × Bytes) := do
  let (isid, r) ← takeBytes 4 r
  let (cookieEcho, r) ← readBlock r
  let (initiatorCert, r) ← readBlock r
  let (skic, r) ← readBlock r
  return ((isid, cookieEcho, initiatorCert, skic), r)

def userDataFields (r : Bytes) : Option ((UInt8 × Nat × Nat × Nat × List OptionField) × Bytes) := do
  let (flags, r) ← tryU8 r
  let (flowId, r) ← readVlu r
  let (seqNumber, r) ← readVlu r
  let (fsnOffset, r) ← readVlu r
  let (options, r) ← readFlaggedOptions flags r
  return ((flags, flowId, seqNumber, fsnOffset, options), r)

def nextUserDataFields (r : Bytes) : Option ((UInt8 × List OptionField) × Bytes) := do
  let (flags, r) ← tryU8 r
  let (options, r) ← readFlaggedOptions flags r
  return ((flags, options), r)

/-- One acknowledged range, from the two numbers on the wire and the end of the range
before it. -/
def absoluteRange (cursor x y : Nat) : Nat × Nat :=
  let first := wrap64 (x + (cursor + 1 + 1))
  (first, wrap64 (y + first))

/-- The loop of `range_ack_chunk::deserialize`, which goes on while more than `after` bytes
are left. A range takes at least two bytes, so the fuel is never what ends it. -/
def readRanges (after : Nat) : Nat → Nat → Bytes → Option (List (Nat × Nat) × Bytes)
  | 0, _, r => some ([], r)
  | fuel + 1, cursor, r =>
    if r.length > after then do
      let (x, r) ← readVlu r
      let (y, r) ← readVlu r
      let range := absoluteRange cursor x y
      let (more, r) ← readRanges after fuel range.2 r
      return (range :: more, r)
    else some ([], r)

def rangeAckFields (r : Bytes) : Option ((Nat × Nat × Nat) × Bytes) := do
  let (flowId, r) ← readVlu r
  let (buffBlocksAvailable, r) ← readVlu r
  let (cumulativeAck, r) ← readVlu r
  return ((flowId, buffBlocksAvailable, cumulativeAck), r)

def readRangeAck (here : Bytes) (len : Nat) : Option (Chunk × Bytes) := do
  let ((flowId, buffBlocksAvailable, cumulativeAck), r) ← rangeAckFields here
  let (ranges, r) ← readRanges (here.length - len) r.length cumulativeAck r
  return (.rangeAck flowId buffBlocksAvailable cumulativeAck ranges, r)

/-- The two numbers of an exception report; the declared length is not looked at. -/
def flowExceptionFields (r : Bytes) : Option ((Nat × Nat) × Bytes) := do
  let (flowId, r) ← readVlu r
  let (exception, r) ← readVlu r
  return ((flowId, exception), r)

/-- `deserialize` of each recognised chunk, on the bytes of the packet from its body on.
Closing chunks leave the cursor where it is. -/
def deserialize (type : ChunkType) (r : Bytes) (len : Nat) : Option (Chunk × Bytes) :=
  match type with
  | .initiatorHello => readTrailing ihelloFields .ihello r len
  | .initiatorInitialKeying =>
    readTrailing iikeyingFields (fun (isid, cookieEcho, cert, skic) => .iikeying isid cookieEcho cert skic) r len
  | .userData => readTrailing userDataFields
      (fun (flags, flowId, seqNumber, fsnOffset, options) userData =>
        .userData flowId seqNumber fsnOffset { flags, options, userData }) r len
  | .nextUserData => readTrailing nextUserDataFields
      (fun (flags, options) userData => .nextUserData { flags, options, userData }) r len
  | .dataAcknowledgementRanges => readRangeAck r len
  | .flowExceptionReport =>
    (flowExceptionFields r).map fun ((flowId, exception), r) => (.flowExceptionReport flowId exception, r)
  | .ping => (takeBytes len r).map fun (data, r) => (.ping data, r)
  | .sessionClose => some (.close, r)
  | .sessionCloseAcknowledgement => some (.closeAck, r)

end Rtmfp
end Fms
