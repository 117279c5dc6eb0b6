import Fms.Amf.Encoder

namespace Fms.Amf.Amf3
open ByteWire Fallible

/-- `amf3_type::etype`. -/
inductive Marker
  | undefined
  | null
  | isFalse
  | isTrue
  | integer
  | double
  | string
  | xmlDoc
  | date
  | array
  | object
  | xml
  | byteArray
  | vectorInt
  | vectorUint
  | vectorDouble
  | vectorObject
  | dictionary
  deriving DecidableEq, Repr

def Marker.toByte : Marker → UInt8
  | .undefined => 0
  | .null => 1
  | .isFalse => 2
  | .isTrue => 3
  | .integer => 4
  | .double => 5
  | .string => 6
  | .xmlDoc => 7
  | .date => 8
  | .array => 9
  | .object => 10
  | .xml => 11
  | .byteArray => 12
  | .vectorInt => 13
  | .vectorUint => 14
  | .vectorDouble => 15
  | .vectorObject => 16
  | .dictionary => 17

def Marker.all : List Marker :=
  [.undefined, .null, .isFalse, .isTrue, .integer, .double, .string, .xmlDoc, .date, .array, .object,
    .xml, .byteArray,
    .vectorInt, .vectorUint, .vectorDouble, .vectorObject, .dictionary]

def Marker.ofByte (type : UInt8) : Option Marker := Marker.all[type.toNat]?

/-- The loop of `read_u29`, with the value and the number of bytes so far: the fourth byte
counts whole. -/
def readU29From (ret : UInt32) (cnt : Nat) : Bytes → Option (UInt32 × Bytes)
  | [] => none
  | byte :: rest =>
    if byte &&& 0x80 ≠ 0 ∧ cnt < 4 then readU29From (ret <<< 7 ||| (byte &&& 0x7f).toUInt32) (cnt + 1) rest
    else some ((if cnt < 4 then ret <<< 7 else ret <<< 8) ||| byte.toUInt32, rest)

def readU29 : Bytes → Option (UInt32 × Bytes) := readU29From 0 1

/-- The value of `read_integer`: bit 28 is the sign. -/
def signed (tmp : UInt32) : UInt32 :=
  if tmp &&& 0x10000000 ≠ 0 then (tmp ^^^ 0x1fffffff) * 0xffffffff - 1 else tmp

def readInteger (r : Bytes) : Option (UInt32 × Bytes) := (readU29 r).map fun (tmp, rest) => (signed tmp, rest)

def readDouble (r : Bytes) : Option (UInt64 × Bytes) :=
  (takeBytes 8 r).map fun (bytes, rest) => (UInt64.ofNat (beNat bytes), rest)

/-- The loop of `read_numbers`. -/
def readNumbersFrom {γ : Type} (width : Nat) (value : Nat → γ) : Nat → Bytes → Option (List γ × Bytes)
  | 0, r => some ([], r)
  | count + 1, r => do
    let (bytes, r) ← takeBytes width r
    let (out, r) ← readNumbersFrom width value count r
    return (value (beNat bytes) :: out, r)

def readNumbers {γ : Type} (width : Nat) (value : Nat → γ) (count : Nat) (r : Bytes) : Option (List γ × Bytes) :=
  if count > r.length / width then none else readNumbersFrom width value count r

def stringRef (idx : Nat) : Decode Bytes := do
  match (← get).stringRefs[idx]? with
  | some value =>
    chargeStringBytes value.length
    return value
  | none => throw .amf3Read

/-- The empty string is never sent by reference. -/
def keepString (value : Bytes) : Decode Unit :=
  modify fun s => if value = [] then s else { s with stringRefs := s.stringRefs ++ [value] }

def readString : Decode Bytes := do
  let header ← lift readU29
  if header &&& 0x01 = 0 then stringRef (header >>> 1).toNat
  else
    let len := (header >>> 1).toNat
    if (← available) < len then throw .bufferEof
    else
      chargeStringBytes len
      let value ← lift (takeBytes len)
      keepString value
      return value

/-- The start of every referenceable value: a header with a clear low bit refers to an
earlier one. -/
def referenceOr (policy : RefPolicy) (levels : Nat) (body : Nat → Decode Nat) : Decode Nat := do
  let header ← lift readU29
  if header &&& 0x01 = 0 then resolve policy .amf3Read levels (header >>> 1).toNat else body (header >>> 1).toNat

def scalar (value : Scalar3) : Decode Nat := alloc (.amf3 (.scalar value))

/-- A referenceable value that contains no other: complete from the start. -/
def store (value : Scalar3) : Decode Nat := do
  let a ← scalar value
  let _ ← register a true
  return a

def readBlock (policy : RefPolicy) (levels : Nat) (make : Bytes → Scalar3) : Decode Nat :=
  referenceOr policy levels fun len => do
    let bytes ← lift (takeBytes len)
    store (make bytes)

def readXmlDoc (policy : RefPolicy) (levels : Nat) : Decode Nat := readBlock policy levels .xmlDoc
def readXml (policy : RefPolicy) (levels : Nat) : Decode Nat := readBlock policy levels .xml
def readBytearray (policy : RefPolicy) (levels : Nat) : Decode Nat := readBlock policy levels .byteArray

def readDate (policy : RefPolicy) (levels : Nat) : Decode Nat :=
  referenceOr policy levels fun _ => do
    let ms ← lift readDouble
    store (.date ms)

def readNumericVector {γ : Type} (policy : RefPolicy) (levels width : Nat) (value : Nat → γ)
    (make : Bool → List γ → Scalar3) : Decode Nat :=
  referenceOr policy levels fun count => do
    let fixed ← lift tryU8
    let values ← lift (readNumbers width value count)
    store (make (fixed ≠ 0) values)

def readVectorInt (policy : RefPolicy) (levels : Nat) : Decode Nat :=
  readNumericVector policy levels 4 UInt32.ofNat .vectorInt

def readVectorUint (policy : RefPolicy) (levels : Nat) : Decode Nat :=
  readNumericVector policy levels 4 UInt32.ofNat .vectorUint

def readVectorDouble (policy : RefPolicy) (levels : Nat) : Decode Nat :=
  readNumericVector policy levels 8 UInt64.ofNat .vectorDouble

def assignMember (key : Bytes) (value : Nat) : Cell → Cell
  | .amf3 (.array assoc dense) => .amf3 (.array (assoc.assign (key, value)) dense)
  | .amf3 (.object members) => .amf3 (.object (members.assign (key, value)))
  | cell => cell

def pushValue (value : Nat) : Cell → Cell
  | .amf3 (.array assoc dense) => .amf3 (.array assoc (dense ++ [value]))
  | .amf3 (.vectorObject fixed typeName values) => .amf3 (.vectorObject fixed typeName (values ++ [value]))
  | cell => cell

def pushEntry (key value : Nat) : Cell → Cell
  | .amf3 (.dictionary weakKeys entries) => .amf3 (.dictionary weakKeys (entries ++ [(key, value)]))
  | cell => cell

/-- One member of an associative part: the value is read before the map is touched. The
empty name ends the part. -/
def readMember (read : Decode Nat) (a : Nat) : Decode Bool := do
  let key ← readString
  if key = [] then return false
  else
    let value ← read
    update a (assignMember key value)
    return true

/-- A member takes at least one byte, so the fuel is never what ends the loop. -/
def readMembers (read : Decode Nat) (a : Nat) : Decode Unit := do
  loop .bufferEof (readMember read a) ((← available) + 1)

def readElement (read : Decode Nat) (a : Nat) : Decode Unit := do
  let value ← read
  update a (pushValue value)

def readArray (policy : RefPolicy) (levels : Nat) (read : Decode Nat) : Decode Nat :=
  referenceOr policy levels fun denseCount =>
    populate (.amf3 (.array {} [])) fun arr => do
      readMembers read arr
      times denseCount (readElement read arr)

def readVectorObject (policy : RefPolicy) (levels : Nat) (read : Decode Nat) : Decode Nat :=
  referenceOr policy levels fun count => do
    let fixed ← lift tryU8
    let typeName ← readString
    populate (.amf3 (.vectorObject (fixed ≠ 0) typeName [])) fun v => do
      if count > (← available) then throw .bufferEof else times count (readElement read v)

def readEntry (read : Decode Nat) (a : Nat) : Decode Unit := do
  let key ← read
  let value ← read
  update a (pushEntry key value)

def readDictionary (policy : RefPolicy) (levels : Nat) (read : Decode Nat) : Decode Nat :=
  referenceOr policy levels fun count => do
    let weak ← lift tryU8
    populate (.amf3 (.dictionary (weak ≠ 0) [])) fun d => do
      if count > (← available) / 2 then throw .bufferEof else times count (readEntry read d)

def traitsRef (idx : Nat) : Decode ClassData := do
  match (← get).traitsRefs[idx]? with
  | some traits => return traits
  | none => throw .amf3Read

/-- The sealed member names; the empty name is refused. -/
def readNames : Nat → Decode (List Bytes)
  | 0 => return []
  | count + 1 => do
    let name ← readString
    if name = [] then throw .amf3Read
    else
      let names ← readNames count
      return name :: names

/-- Traits by reference or in full; externalizable ones are refused. -/
def readTraits (info : Nat) : Decode ClassData := do
  if info % 2 = 0 then traitsRef (info / 2)
  else if info / 2 % 2 ≠ 0 then throw .amf3Read
  else
    let isDynamic := info / 4 % 2 ≠ 0
    let sealedCount := info / 8
    if sealedCount > (← available) then throw .amf3Read
    else
      let className ← readString
      let properties ← readNames sealedCount
      let traits := { properties, className, isDynamic }
      modify fun s => { s with traitsRefs := s.traitsRefs ++ [traits] }
      return traits

/-- The sealed members: every object that uses the traits is charged for the names. -/
def readSealed (read : Decode Nat) (obj : Nat) : List Bytes → Decode Unit
  | [] => return
  | name :: names => do
    chargeStringBytes name.length
    let value ← read
    update obj (assignMember name value)
    readSealed read obj names

def readObject (policy : RefPolicy) (levels : Nat) (read : Decode Nat) : Decode Nat :=
  referenceOr policy levels fun info => do
    let traits ← readTraits info
    populate (.amf3 (.object {})) fun obj => do
      readSealed read obj traits.properties
      if traits.isDynamic then readMembers read obj else return

/-- The switch of `read`. -/
def readBody (policy : RefPolicy) (levels : Nat) (read : Decode Nat) : Marker → Decode Nat
  | .undefined => scalar .undefined
  | .null => scalar .null
  | .isFalse => scalar (.boolean false)
  | .isTrue => scalar (.boolean true)
  | .integer => do scalar (.integer (← lift readInteger))
  | .double => do scalar (.double (← lift readDouble))
  | .string => do scalar (.string (← readString))
  | .xmlDoc => readXmlDoc policy levels
  | .date => readDate policy levels
  | .array => readArray policy levels read
  | .object => readObject policy levels read
  | .xml => readXml policy levels
  | .byteArray => readBytearray policy levels
  | .vectorInt => readVectorInt policy levels
  | .vectorUint => readVectorUint policy levels
  | .vectorDouble => readVectorDouble policy levels
  | .vectorObject => readVectorObject policy levels read
  | .dictionary => readDictionary policy levels read

/-- `read` with that many levels left: `m_depth` is over its bound where there are none. -/
def readAt (policy : RefPolicy) : Nat → Decode Nat
  | 0 => level (throw .amf3Read)
  | left + 1 => level do
    chargeNode .amf3Read
    match Marker.ofByte (← lift tryU8) with
    | some marker => readBody policy (left + 1) (readAt policy left) marker
    | none => throw .amf3Read

def resetRefs : Decode Unit :=
  modify fun s => { s with refs := [], stringRefs := [], traitsRefs := [], budget := {} }

def readWith (policy : RefPolicy) : Decode Nat := do
  resetRefs
  readAt policy eMaxDepth

/-- `read` of a value at the top level. -/
def read : Decode Nat := readWith anyRef

def writeInteger (value : UInt32) : Bytes :=
  if value &&& 0xffffff80 = 0 then [(value &&& 0x7f).toUInt8]
  else if value &&& 0xffffc000 = 0 then [(value >>> 7 ||| 0x80).toUInt8, (value &&& 0x7f).toUInt8]
  else if value &&& 0xffe00000 = 0 then
    [(value >>> 14 ||| 0x80).toUInt8, (value >>> 7 ||| 0x80).toUInt8, (value &&& 0x7f).toUInt8]
  else
    [(value >>> 22 ||| 0x80).toUInt8, (value >>> 15 ||| 0x80).toUInt8, (value >>> 8 ||| 0x80).toUInt8,
      (value &&& 0xff).toUInt8]

/-- A length or count with the low bit that says it is no reference. -/
def writeHeader (len : Nat) : Bytes := writeInteger (UInt32.ofNat len <<< 1 ||| 0x01)

def writeString (value : Bytes) : Bytes := writeHeader value.length ++ value

def writeDouble (bits : UInt64) : Bytes := beBytes 8 bits.toNat

def writeBool (value : Bool) : Bytes := [if value then 1 else 0]

def writeNumbers {γ : Type} (width : Nat) (value : γ → Nat) (values : List γ) : Bytes :=
  values.flatMap fun v => beBytes width (value v)

def writeNumericVector {γ : Type} (width : Nat) (value : γ → Nat) (fixed : Bool) (values : List γ) : Bytes :=
  writeHeader values.length ++ writeBool fixed ++ writeNumbers width value values

def writeScalar : Scalar3 → Bytes
  | .undefined => [Marker.undefined.toByte]
  | .null => [Marker.null.toByte]
  | .boolean value => [(if value then Marker.isTrue else Marker.isFalse).toByte]
  | .integer value => Marker.integer.toByte :: writeInteger value
  | .double bits => Marker.double.toByte :: writeDouble bits
  | .string value => Marker.string.toByte :: writeString value
  | .xmlDoc value => Marker.xmlDoc.toByte :: writeString value
  | .xml value => Marker.xml.toByte :: writeString value
  | .date bits => Marker.date.toByte :: (writeInteger 0x01 ++ writeDouble bits)
  | .byteArray bytes => Marker.byteArray.toByte :: writeString bytes
  | .vectorInt fixed values => Marker.vectorInt.toByte :: writeNumericVector 4 UInt32.toNat fixed values
  | .vectorUint fixed values => Marker.vectorUint.toByte :: writeNumericVector 4 UInt32.toNat fixed values
  | .vectorDouble fixed values => Marker.vectorDouble.toByte :: writeNumericVector 8 UInt64.toNat fixed values

section
variable {α : Type}

/-- Names and values, ended by the empty name. -/
def writeMembers (members : List (Bytes × α)) : List (Part α) :=
  members.flatMap (fun (key, value) => [.bytes (writeString key), .value value]) ++ [.bytes (writeString [])]

def writeArray (assoc : StringMap α) (dense : List α) : List (Part α) :=
  .bytes (writeHeader dense.length) :: (writeMembers assoc.elems ++ dense.map .value)

/-- An anonymous dynamic object without sealed members. -/
def writeObject (members : StringMap α) : List (Part α) :=
  .bytes (writeInteger 0x0B) :: .bytes (writeString []) :: writeMembers members.elems

def writeVectorObject (fixed : Bool) (typeName : Bytes) (values : List α) : List (Part α) :=
  .bytes (writeHeader values.length ++ writeBool fixed) :: .bytes (writeString typeName) :: values.map .value

def writeDictionary (weakKeys : Bool) (entries : List (α × α)) : List (Part α) :=
  .bytes (writeHeader entries.length) :: .bytes (writeBool weakKeys) ::
    entries.flatMap fun (key, value) => [.value key, .value value]

/-- The marker and the switch of `write`. -/
def writeNode : Node3 α → List (Part α)
  | .scalar value => [.bytes (writeScalar value)]
  | .array assoc dense => .bytes [Marker.array.toByte] :: writeArray assoc dense
  | .object members => .bytes [Marker.object.toByte] :: writeObject members
  | .vectorObject fixed typeName values =>
    .bytes [Marker.vectorObject.toByte] :: writeVectorObject fixed typeName values
  | .dictionary weakKeys entries => .bytes [Marker.dictionary.toByte] :: writeDictionary weakKeys entries

end

def writeAt : (depth d : Nat) → Value3 d → Encode Unit
  | _, 0, v => nomatch v
  | depth, d + 1, v => do
    frame .amf3Write depth
    emit (writeAt (depth + 1) d) (writeNode v)

/-- `write` of a value at the top level. -/
def write {d : Nat} (v : Value3 d) : Encode Unit := writeAt 0 d v

end Fms.Amf.Amf3
