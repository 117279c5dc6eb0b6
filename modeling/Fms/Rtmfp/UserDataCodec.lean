import Fms.Rtmfp.AckCodec

namespace Fms
open ByteWire

namespace Rtmfp
namespace OptionField

/-- How the class sets the length of an option: to that of the value when it is built, and to that
of the type and the value when it is read. -/
def Built (o : OptionField) : Prop := o.len = o.value.length ∨ o.len = vluSize o.type + o.value.length

/-- `option::serialize`. -/
def serialize (o : OptionField) : Bytes :=
  if o.len = 0 then writeVlu o.len
  else writeVlu (vluSize o.type + o.value.length) ++ (writeVlu o.type ++ o.value)

def received (o : OptionField) : OptionField := { o with len := vluSize o.type + o.value.length }

def content (o : OptionField) : Nat × Bytes := (o.type, o.value)

end OptionField

/-- `option_list::serialize`. -/
def serializeOptions (options : List OptionField) : Bytes := options.flatMap OptionField.serialize ++ writeVlu 0

/-- A `user_data_chunk` before it is serialized. -/
structure UserDataChunk where
  flowId : Nat
  seqNumber : Nat
  fsnOffset : Nat
  fragCtrl : FragCtrl
  abandon : Bool
  final : Bool
  options : List OptionField
  userData : Bytes

namespace UserDataChunk

/-- `data_chunk::create_flags`. -/
def flags (c : UserDataChunk) : UInt8 :=
  (if c.options.isEmpty then (0 : UInt8) else 0x80) ||| (c.fragCtrl.toByte &&& 0x03) <<< 4 |||
    (if c.abandon then 0x02 else 0) ||| (if c.final then 0x01 else 0)

/-- What comes before the data. -/
def head (c : UserDataChunk) : Bytes :=
  c.flags :: (writeVlu c.flowId ++ (writeVlu c.seqNumber ++ (writeVlu c.fsnOffset ++
    if optionsPresent c.flags then serializeOptions c.options else [])))

def body (c : UserDataChunk) : Bytes := c.head ++ c.userData

/-- `user_data_chunk::serialize`. -/
def serialize (c : UserDataChunk) : Bytes := serializeChunk 0x10 c.body

end UserDataChunk

theorem vluSize_pos (v : Nat) : 1 ≤ vluSize v := vluSizeFrom_pos 9 v

theorem vluSize_le_ten {v : Nat} (fits : v < 2 ^ 64) : vluSize v ≤ 10 := vluSizeFrom_le (by omega)

namespace OptionField

/-- What an option must be for the wire to carry it. -/
structure Sendable (o : OptionField) : Prop where
  notMarker : o.len ≠ 0
  type : o.type < 2 ^ 64
  value : o.value.length ≤ 0xFFFF

theorem Built.sendable {o : OptionField} (built : o.Built) (type : o.type < 2 ^ 64) (value : o.value.length ≤ 0xFFFF)
    (holds : o.value ≠ []) : o.Sendable := by
  have := List.length_pos_iff.mpr holds
  refine ⟨?_, type, value⟩
  rcases built with length | length <;> omega

theorem wireLength_ne_zero (o : OptionField) : vluSize o.type + o.value.length ≠ 0 := by
  have positive := vluSize_pos o.type
  omega

theorem readOption_serialize {o : OptionField} (sendable : o.Sendable) (rest : Bytes) :
    readOption (o.serialize ++ rest) = some (o.received, rest) := by
  have bound := vluSize_le_ten sendable.type
  have value := sendable.value
  have consumed : (writeVlu o.type ++ (o.value ++ rest)).length - (o.value ++ rest).length = vluSize o.type := by
    rw [List.length_append, length_writeVlu]
    omega
  rw [serialize, if_neg sendable.notMarker, List.append_assoc, List.append_assoc, readOption,
    readVlu_writeVlu (by omega)]
  simp only [Option.bind_eq_bind, Option.bind_some, readVlu_writeVlu sendable.type, consumed]
  rw [if_pos o.wireLength_ne_zero, if_neg (by omega), if_neg (by omega)]
  simp only [Nat.add_sub_cancel_left, takeBytes_append rfl, Option.bind_some]
  rfl

theorem serialize_length_pos (o : OptionField) : 1 ≤ o.serialize.length := by
  rw [serialize]
  split
  · exact writeVlu_length_pos _
  · have := writeVlu_length_pos (vluSize o.type + o.value.length)
    rw [List.length_append]
    omega

end OptionField

theorem readOption_marker (rest : Bytes) : readOption (writeVlu 0 ++ rest) = some ({}, rest) := by
  rw [readOption, readVlu_writeVlu (by decide)]
  rfl

theorem readOptions_serialize {options : List OptionField} (sendable : ∀ o ∈ options, o.Sendable) {fuel : Nat}
    (enough : (serializeOptions options).length ≤ fuel) (rest : Bytes) :
    readOptions fuel (serializeOptions options ++ rest) = some (options.map OptionField.received, rest) := by
  induction options generalizing fuel with
  | nil =>
    have marker : serializeOptions [] = writeVlu 0 := rfl
    have positive := writeVlu_length_pos 0
    cases fuel with
    | zero => rw [marker] at enough; omega
    | succ fuel =>
      rw [marker, readOptions, readOption_marker]
      rfl
  | cons o options ih =>
    obtain ⟨first, others⟩ := List.forall_mem_cons.mp sendable
    have bytes : serializeOptions (o :: options) = o.serialize ++ serializeOptions options := by
      rw [serializeOptions, List.flatMap_cons, List.append_assoc]
      rfl
    have positive := o.serialize_length_pos
    rw [bytes, List.length_append] at enough
    cases fuel with
    | zero => omega
    | succ fuel =>
      have later : readOptions fuel (serializeOptions options ++ rest) = _ := ih others (by omega)
      rw [bytes, List.append_assoc, readOptions, OptionField.readOption_serialize first]
      have goesOn : o.received.len ≠ 0 := o.wireLength_ne_zero
      simp only [Option.bind_eq_bind, Option.bind_some, if_neg goesOn, later]
      rfl

namespace UserDataChunk

def received (c : UserDataChunk) : DataChunk where
  flags := c.flags
  options := c.options.map OptionField.received
  userData := c.userData

theorem parts_of_flags (present abandon final : Bool) (fragCtrl : FragCtrl) (flags : UInt8)
    (set : flags = (if present then (0 : UInt8) else 0x80) ||| (fragCtrl.toByte &&& 0x03) <<< 4 |||
      (if abandon then 0x02 else 0) ||| (if final then 0x01 else 0)) :
    optionsPresent flags = !present ∧ FragCtrl.ofByte ((flags >>> 4) &&& 0x03) = fragCtrl ∧
      decide (flags &&& 0x02 ≠ 0) = abandon ∧ decide (flags &&& 0x01 ≠ 0) = final := by
  subst set
  cases present <;> cases fragCtrl <;> cases abandon <;> cases final <;> decide

theorem optionsPresent_flags (c : UserDataChunk) : optionsPresent c.flags = !c.options.isEmpty :=
  (parts_of_flags _ _ _ _ _ rfl).1

variable {c : UserDataChunk}

theorem readFlaggedOptions_flags (sendable : ∀ o ∈ c.options, o.Sendable) (rest : Bytes) :
    readFlaggedOptions c.flags ((if optionsPresent c.flags then serializeOptions c.options else []) ++ rest) =
      some (c.options.map OptionField.received, rest) := by
  rw [readFlaggedOptions]
  cases present : optionsPresent c.flags with
  | true =>
    refine readOptions_serialize sendable ?_ rest
    simp only [if_true, List.length_append]
    omega
  | false =>
    have none : c.options = [] := by simpa [c.optionsPresent_flags] using present
    simp [none]

theorem userDataFields_head (flow : c.flowId < 2 ^ 64) (seq : c.seqNumber < 2 ^ 64)
    (offset : c.fsnOffset < 2 ^ 64) (sendable : ∀ o ∈ c.options, o.Sendable) (rest : Bytes) :
    userDataFields (c.head ++ rest) =
      some ((c.flags, c.flowId, c.seqNumber, c.fsnOffset, c.options.map OptionField.received), rest) := by
  simp only [userDataFields, head, List.cons_append, List.append_assoc, tryU8, Option.bind_eq_bind, Option.bind_some,
    readVlu_writeVlu flow, readVlu_writeVlu seq, readVlu_writeVlu offset, readFlaggedOptions_flags sendable,
    Option.pure_def]

theorem deserializeWhole_serialize_userData (flow : c.flowId < 2 ^ 64)
    (seq : c.seqNumber < 2 ^ 64)
    (offset : c.fsnOffset < 2 ^ 64) (sendable : ∀ o ∈ c.options, o.Sendable) (short : c.body.length ≤ 0xFFFF)
    (rest : Bytes) :
    deserializeWhole (c.serialize ++ rest) =
      some (.userData c.flowId c.seqNumber c.fsnOffset c.received, rest) := by
  have kind : ChunkType.ofByte 0x10 = some .userData := by decide
  have within : c.userData.length ≤ c.body.length := by
    rw [body, List.length_append]
    omega
  have fields := userDataFields_head flow seq offset sendable (c.userData ++ rest)
  rw [← List.append_assoc] at fields
  rw [serialize, deserializeWhole_serializeChunk kind (by omega), deserialize,
    readTrailing_inside _ within rest fields, if_neg (by omega)]
  rfl

/-- A serialized chunk is read back with its fields, flags, options and data, and nothing of what
follows it is read. -/
theorem round_trip (c : UserDataChunk) (flow : c.flowId < 2 ^ 64) (seq : c.seqNumber < 2 ^ 64)
    (offset : c.fsnOffset < 2 ^ 64)
    (options : ∀ o ∈ c.options, o.Built ∧ o.type < 2 ^ 64 ∧ o.value ≠ [] ∧ o.value.length ≤ 0xFFFF)
    (short : c.body.length ≤ 0xFFFF) (rest : Bytes) :
    ∃ read : DataChunk,
      deserializeWhole (c.serialize ++ rest) = some (.userData c.flowId c.seqNumber c.fsnOffset read, rest) ∧
      FragCtrl.ofByte read.fragCtl = c.fragCtrl ∧ read.shouldAbandon = c.abandon ∧ read.isFinal = c.final ∧
      optionsPresent read.flags = !c.options.isEmpty ∧
      read.options.map OptionField.content = c.options.map OptionField.content ∧ read.userData = c.userData := by
  have sendable : ∀ o ∈ c.options, o.Sendable := by
    intro o member
    obtain ⟨built, type, holds, value⟩ := options o member
    exact built.sendable type value holds
  obtain ⟨present, control, abandon, final⟩ := parts_of_flags _ _ _ _ c.flags rfl
  have read := deserializeWhole_serialize_userData flow seq offset sendable short rest
  refine ⟨c.received, read, control, abandon, final, present, ?_, rfl⟩
  simp only [received, List.map_map]
  rfl

/-- The last fragment of a message, with two options, before another chunk. -/
def closing : UserDataChunk where
  flowId := 300
  seqNumber := 2 ^ 63
  fsnOffset := 1
  fragCtrl := .last
  abandon := false
  final := true
  options := [⟨2, 0, [0x54, 0x43]⟩, ⟨2, 10, [0x05]⟩]
  userData := [1, 2, 3]

theorem round_trip_closing :
    ∃ read : DataChunk,
      deserializeWhole (closing.serialize ++ [0x01, 0x00]) = some (.userData 300 (2 ^ 63) 1 read, [0x01, 0x00]) ∧
      FragCtrl.ofByte read.fragCtl = .last ∧ read.shouldAbandon = false ∧ read.isFinal = true ∧
      optionsPresent read.flags = true ∧
      read.options.map OptionField.content = [(0, [0x54, 0x43]), (10, [0x05])] ∧ read.userData = [1, 2, 3] := by
  refine round_trip closing (by decide) (by decide) (by decide) ?_ (by decide) [0x01, 0x00]
  intro o member
  have cases : o = ⟨2, 0, [0x54, 0x43]⟩ ∨ o = ⟨2, 10, [0x05]⟩ := by simpa [closing] using member
  rcases cases with rfl | rfl
  · exact ⟨.inl rfl, by decide, by decide, by decide⟩
  · exact ⟨.inr rfl, by decide, by decide, by decide⟩

end UserDataChunk
end Rtmfp
end Fms
