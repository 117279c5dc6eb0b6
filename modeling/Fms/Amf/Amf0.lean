import Fms.Amf.Amf3

namespace Fms.Amf.Amf0
open ByteWire Fallible

/-- The markers of `amf0_type::etype` that `read` knows. -/
inductive Marker
  | number
  | boolean
  | string
  | object
  | null
  | undefined
  | reference
  | ecmaArray
  | strictArray
  | date
  | longString
  | unsupported
  | xmlDocument
  | typedObject
  | amf3Container
  deriving DecidableEq, Repr

def Marker.toByte : Marker → UInt8
  | .number => 0
  | .boolean => 1
  | .string => 2
  | .object => 3
  | .null => 5
  | .undefined => 6
  | .reference => 7
  | .ecmaArray => 8
  | .strictArray => 10
  | .date => 11
  | .longString => 12
  | .unsupported => 13
  | .xmlDocument => 15
  | .typedObject => 16
  | .amf3Container => 17

def Marker.all : List Marker :=
  [.number, .boolean, .string, .object, .null, .undefined, .reference, .ecmaArray, .strictArray, .date, .longString,
    .unsupported, .xmlDocument, .typedObject, .amf3Container]

def Marker.ofByte (type : UInt8) : Option Marker := Marker.all.find? fun marker => marker.toByte = type

def endOfObject : Bytes := [0x00, 0x00, 0x09]

def tryU16Be (r : Bytes) : Option (Nat × Bytes) := (takeBytes 2 r).map fun (bytes, rest) => (beNat bytes, rest)

/-- `read_short_string` without its marker. -/
def readShortString (r : Bytes) : Option (Bytes × Bytes) := do
  let (len, r) ← tryU16Be r
  takeBytes len r

def readNumber (r : Bytes) : Option (UInt64 × Bytes) :=
  (takeBytes 8 r).map fun (bytes, rest) => (UInt64.ofNat (beNat bytes), rest)

def readBoolean (r : Bytes) : Option (Bool × Bytes) := (tryU8 r).map fun (b, rest) => (b = 1, rest)

/-- A date and its time zone, which is not kept. -/
def readDate (r : Bytes) : Option (UInt64 × Bytes) := do
  let (ms, r) ← readNumber r
  let (_, r) ← takeBytes 2 r
  return (ms, r)

def readXmlDocument (r : Bytes) : Option (Bytes × Bytes) := do
  let (len, r) ← tryU32Be r
  takeBytes len.toNat r

/-- `read_long_string`. The caller ignores the failure it reports: where the length or the
data is cut short the string is empty, and only what was read before is consumed. -/
def readLongString (r : Bytes) : Bytes × Bytes :=
  match tryU32Be r with
  | none => ([], r)
  | some (cnt, r) => (takeBytes cnt.toNat r).getD ([], r)

def addEntry (key : Bytes) (value : Nat) : Cell → Cell
  | .amf0 (.object members) => .amf0 (.object (members.addEntry key value))
  | .amf0 (.ecmaArray entries) => .amf0 (.ecmaArray (entries ++ [(key, value)]))
  | .amf0 (.typedObject className members) => .amf0 (.typedObject className (members.addEntry key value))
  | cell => cell

def pushValue (value : Nat) : Cell → Cell
  | .amf0 (.strictArray values) => .amf0 (.strictArray (values ++ [value]))
  | cell => cell

/-- One member, unless the end marker comes next or less than it is left. -/
def readProperty (read : Decode Nat) (a : Nat) : Decode Bool := do
  let r := (← get).input
  if r.length ≥ 3 ∧ r.take 3 ≠ endOfObject then
    let key ← lift readShortString
    let value ← read
    update a (addEntry key value)
    return true
  else return false

/-- The members up to the end marker. A member takes at least two bytes, so the fuel is never
what ends the loop. -/
def readProperties (read : Decode Nat) (a : Nat) : Decode Unit := do
  loop .bufferEof (readProperty read a) ((← available) + 1)
  let _ ← lift (takeBytes 3)

/-- `read_object`. The failure reported for a short buffer is ignored by `read`, and so are
those of the two arrays. -/
def readObject (read : Decode Nat) (obj : Nat) : Decode Unit := do
  if (← available) < 3 then return else readProperties read obj

def readMixedArray (read : Decode Nat) (arr : Nat) : Decode Unit := do
  if (← available) < 7 then return
  else
    let _ ← lift (takeBytes 4)
    readProperties read arr

def readElement (read : Decode Nat) (arr : Nat) : Decode Unit := do
  let value ← read
  update arr (pushValue value)

def readStrictArray (read : Decode Nat) (arr : Nat) : Decode Unit := do
  if (← available) < 7 then return
  else
    let cnt ← lift tryU32Be
    times cnt.toNat (readElement read arr)

/-- The class name stands in the object before the members do. -/
def setClassName (className : Bytes) : Cell → Cell
  | .amf0 (.typedObject _ members) => .amf0 (.typedObject className members)
  | cell => cell

def readTypedObject (read : Decode Nat) (obj : Nat) : Decode Unit := do
  let className ← lift readShortString
  update obj (setClassName className)
  readProperties read obj

/-- A new `amf3` instance: tables of its own, the budget shared. -/
def nested {α : Type} (action : Decode α) : Decode α := do
  let outer ← get
  modify fun s => { s with refs := [], stringRefs := [], traitsRefs := [] }
  guarded (fun s => { s with refs := outer.refs, stringRefs := outer.stringRefs, traitsRefs := outer.traitsRefs })
    action

def readAmf3Container (read3 : Decode Nat) : Decode Nat := do
  let data ← nested read3
  alloc (.amf0 (.amf3Container data))

def readReference (policy : RefPolicy) (levels : Nat) : Decode Nat := do
  let idx ← lift tryU16Be
  resolve policy .amf0Read levels idx

def scalar (value : Scalar0) : Decode Nat := alloc (.amf0 (.scalar value))

/-- The switch of `read`, behind the marker. -/
def readBody (policy : RefPolicy) (levels : Nat) (read read3 : Decode Nat) : Marker → Decode Nat
  | .number => do scalar (.number (← lift readNumber))
  | .boolean => do scalar (.boolean (← lift readBoolean))
  | .string => do scalar (.string (← lift readShortString))
  | .object => populate (.amf0 (.object {})) (readObject read)
  | .null => scalar .null
  | .undefined => scalar .undefined
  | .reference => readReference policy levels
  | .ecmaArray => populate (.amf0 (.ecmaArray [])) (readMixedArray read)
  | .strictArray => populate (.amf0 (.strictArray [])) (readStrictArray read)
  | .date => do scalar (.date (← lift readDate))
  | .longString => do scalar (.longString (← lift (some ∘ readLongString)))
  | .unsupported => scalar .unsupported
  | .xmlDocument => do scalar (.xmlDocument (← lift readXmlDocument))
  | .typedObject => populate (.amf0 (.typedObject [] {})) (readTypedObject read)
  | .amf3Container => readAmf3Container read3

def readAt (policy : RefPolicy) : Nat → Decode Nat
  | 0 => level (throw .amf0Read)
  | left + 1 => level do
    chargeNode .amf0Read
    match Marker.ofByte (← lift tryU8) with
    | some marker => readBody policy (left + 1) (readAt policy left) (Amf3.readAt policy left) marker
    | none => throw .amf0Read

/-- A fresh reference table, and a fresh budget unless a read scope holds one. There are no
other tables in `amf0`. -/
def resetRefs : Decode Unit :=
  modify fun s =>
    { s with refs := [], stringRefs := [], traitsRefs := [], budget := if s.inScope then s.budget else {} }

def readWith (policy : RefPolicy) : Decode Nat := do
  resetRefs
  readAt policy eMaxDepth

/-- `read` of a value at the top level. -/
def read : Decode Nat := readWith anyRef

def eMaxShortString : Nat := 0xFFFF

/-- `write_short_string` without its marker, of `len` bytes. -/
def writeShortString (value : Bytes) (len : Nat) : Bytes :=
  let n := min len eMaxShortString
  beBytes 2 n ++ value.take n

def writeNumber (bits : UInt64) : Bytes := beBytes 8 bits.toNat

def writeLongString (data : Bytes) : Bytes :=
  let size := data.length % 2 ^ 32
  u32Be (UInt32.ofNat size) ++ data.take size

def writeXmlDocument (value : Bytes) : Bytes := u32Be (UInt32.ofNat value.length) ++ value

def writeScalar : Scalar0 → Bytes
  | .number bits => Marker.number.toByte :: writeNumber bits
  | .boolean value => [Marker.boolean.toByte, if value then 1 else 0]
  | .string value => Marker.string.toByte :: writeShortString value (value.length % 2 ^ 16)
  | .null => [Marker.null.toByte]
  | .undefined => [Marker.undefined.toByte]
  | .date bits => Marker.date.toByte :: (writeNumber bits ++ [0, 0])
  | .longString data => Marker.longString.toByte :: writeLongString data
  | .unsupported => [Marker.unsupported.toByte]
  | .xmlDocument value => Marker.xmlDocument.toByte :: writeXmlDocument value

section
variable {α β : Type}

/-- Names and values, ended by the end marker. An ECMA array's names are cut to 16-bit
lengths before they are written. -/
def writeProperties (length : Bytes → Nat) (entries : List (Bytes × α)) : List (Part (α ⊕ β)) :=
  entries.flatMap (fun (key, value) => [.bytes (writeShortString key (length key)), .value (.inl value)]) ++
    [.bytes endOfObject]

def writeObject (members : Members α) : List (Part (α ⊕ β)) := writeProperties List.length members.entries

def writeMixedArray (entries : List (Bytes × α)) : List (Part (α ⊕ β)) :=
  .bytes (u32Be (UInt32.ofNat entries.length)) :: writeProperties (fun key => key.length % 2 ^ 16) entries

def writeStrictArray (values : List α) : List (Part (α ⊕ β)) :=
  .bytes (u32Be (UInt32.ofNat values.length)) :: values.map fun value => .value (.inl value)

def writeTypedObject (className : Bytes) (members : Members α) : List (Part (α ⊕ β)) :=
  .bytes (writeShortString className className.length) :: writeProperties List.length members.entries

/-- The switch of `write`. -/
def writeNode : Node0 α β → List (Part (α ⊕ β))
  | .scalar value => [.bytes (writeScalar value)]
  | .object members => .bytes [Marker.object.toByte] :: writeObject members
  | .ecmaArray entries => .bytes [Marker.ecmaArray.toByte] :: writeMixedArray entries
  | .strictArray values => .bytes [Marker.strictArray.toByte] :: writeStrictArray values
  | .typedObject className members => .bytes [Marker.typedObject.toByte] :: writeTypedObject className members
  | .amf3Container data => [.bytes [Marker.amf3Container.toByte], .value (.inr data)]

end

def writeAt : (depth d : Nat) → Value0 d → Encode Unit
  | _, 0, v => nomatch v
  | depth, d + 1, v => do
    frame .amf0Write depth
    emit (Sum.elim (writeAt (depth + 1) d) (Amf3.writeAt (depth + 1) d)) (writeNode v)

/-- `write` of a value at the top level. -/
def write {d : Nat} (v : Value0 d) : Encode Unit := writeAt 0 d v

end Fms.Amf.Amf0
