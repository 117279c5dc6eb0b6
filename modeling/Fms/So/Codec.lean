import Fms.Amf.Encoding
import Fms.So.Manager
import Mathlib.Data.List.DropRight

namespace Fms
open ByteWire Fallible Amf

/-- `m_type` of an event. -/
def SoEvent.type : SoEvent → UInt8
  | .use => 1
  | .release => 2
  | .requestChange .. => 3
  | .change .. => 4
  | .success .. => 5
  | .sendMessage _ => 6
  | .status => 7
  | .clear => 8
  | .remove _ => 9
  | .requestRemove _ => 10
  | .useSuccess => 11
  | .unknown type => type

namespace SoMessage

def writeName (name : Bytes) : Encode Unit := append (Amf0.writeShortString name (name.length % 2 ^ 16))

/-- The value of an event, or a null in its place. -/
def writeValue : SoValue → Encode Unit
  | some ⟨_, v⟩ => Amf0.write v
  | none => append [Amf0.Marker.null.toByte]

def serializeEvent (e : SoEvent) : Encode Unit := do
  append [e.type]
  match e with
  | .useSuccess | .clear => append (u32Be 0)
  | .sendMessage data =>
    append (u32Be (UInt32.ofNat data.length))
    append data
  -- an event without a name has an empty body
  | .use | .release | .status | .unknown _ => append (u32Be 0)
  | .success name _ | .remove name => lengthPrefixed (writeName name)
  | .requestChange name value | .change name value =>
    lengthPrefixed do
      writeName name
      writeValue value
  | .requestRemove name =>
    lengthPrefixed do
      writeName name
      writeValue none

def serializeEvents : List SoEvent → Encode Unit
  | [] => return
  | e :: rest => do
    serializeEvent e
    serializeEvents rest

def serialize (msg : SoMessage) : Encode Unit :=
  writeScope do
    writeName msg.name
    append (u32Be msg.version)
    append (u32Be msg.flags)
    append (u32Be 0)
    serializeEvents msg.events

end SoMessage

def SoValue.encode : SoValue → Bytes
  | some ⟨d, v⟩ => Amf0.encode d v
  | none => [Amf0.Marker.null.toByte]

def SoValue.nodes : SoValue → Nat
  | some ⟨d, v⟩ => Amf0.nodes d v
  | none => 0

/-- What the value charges to the bytes of a scope; a null in its place is not charged. -/
def SoValue.size : SoValue → Nat
  | some ⟨d, v⟩ => (Amf0.encode d v).length
  | none => 0

/-- The value goes wherever a scope has room for it. -/
def SoValue.Writable (value : SoValue) : Prop := ScopeWrites (SoMessage.writeValue value) value.encode value.nodes

namespace SoEvent

def encodeName (name : Bytes) : Bytes := Amf0.writeShortString name (name.length % 2 ^ 16)

def value : SoEvent → SoValue
  | .requestChange _ value | .change _ value => value
  | _ => none

def body : SoEvent → Bytes
  | .requestChange name value | .change name value => encodeName name ++ value.encode
  | .requestRemove name => encodeName name ++ SoValue.encode none
  | .success name _ | .remove name => encodeName name
  | .sendMessage data => data
  | _ => []

def encode (e : SoEvent) : Bytes := e.type :: (u32Be (UInt32.ofNat e.body.length) ++ e.body)

end SoEvent

namespace SoMessage

def encode (msg : SoMessage) : Bytes :=
  SoEvent.encodeName msg.name ++
    (u32Be msg.version ++ (u32Be msg.flags ++ (u32Be 0 ++ msg.events.flatMap SoEvent.encode)))

def nodes (msg : SoMessage) : Nat := (msg.events.map fun e => e.value.nodes).sum

/-- The message up to its last value: behind that, nothing asks for the budget of the scope. -/
def upToValues (msg : SoMessage) : SoMessage :=
  { msg with events := msg.events.rdropWhile fun e => e.value.isNone }

theorem writable_none : SoValue.Writable none := scopeWrites_rules.append _

section
variable {W : Encode Unit → Bytes → Nat → Prop} (rules : WriterRules W)
include rules

theorem writes_property (name : Bytes) {value : SoValue} (writes : W (writeValue value) value.encode value.nodes) :
    W (do writeName name; writeValue value) (SoEvent.encodeName name ++ value.encode) value.nodes := by
  have both := rules.seq (rules.append (SoEvent.encodeName name)) writes
  rwa [Nat.zero_add] at both

theorem serializeEvent_writes {e : SoEvent} (value : W (writeValue e.value) e.value.encode e.value.nodes) :
    W (serializeEvent e) e.encode e.value.nodes := by
  -- the length and the body, behind the type
  suffices behind : ∀ {rest : Encode Unit}, W rest (u32Be (UInt32.ofNat e.body.length) ++ e.body) e.value.nodes →
      W (do append [e.type]; rest) e.encode e.value.nodes by
    have bodiless : W (append (u32Be 0)) (u32Be (UInt32.ofNat 0) ++ []) 0 := rules.append _
    have named (name : Bytes) : W (writeName name) (SoEvent.encodeName name) 0 := rules.append _
    cases e with
    | requestChange name _ => exact behind (rules.lengthPrefixed (writes_property rules name value))
    | change name _ => exact behind (rules.lengthPrefixed (writes_property rules name value))
    | requestRemove name => exact behind (rules.lengthPrefixed (writes_property rules name value))
    | success name acknowledged => exact behind (rules.lengthPrefixed (named name))
    | remove name => exact behind (rules.lengthPrefixed (named name))
    | sendMessage data => exact behind (rules.seq (rules.append _) (rules.append data))
    | use => exact behind bodiless
    | release => exact behind bodiless
    | status => exact behind bodiless
    | clear => exact behind bodiless
    | useSuccess => exact behind bodiless
    | unknown type => exact behind bodiless
  intro rest writes
  have both := rules.seq (rules.append [e.type]) writes
  rwa [Nat.zero_add] at both

theorem serializeEvents_writes {events : List SoEvent}
    (values : ∀ e ∈ events, W (writeValue e.value) e.value.encode e.value.nodes) :
    W (serializeEvents events) (events.flatMap SoEvent.encode) (events.map fun e => e.value.nodes).sum := by
  induction events with
  | nil => exact rules.done
  | cons event events ih =>
    have rest := ih fun e member => values e (List.mem_cons_of_mem _ member)
    rw [List.flatMap_cons, List.map_cons, List.sum_cons]
    exact rules.seq (serializeEvent_writes rules (values event (List.mem_cons_self ..))) rest

end

theorem serializeEvents_append {front back : List SoEvent} {e t e' : Encoder}
    (first : Yields (serializeEvents front) e () t)
    (second : Yields (serializeEvents back) t () e') : Yields (serializeEvents (front ++ back)) e () e' := by
  induction front generalizing e with
  | nil =>
    obtain ⟨_, rfl⟩ := yields_pure.mp first
    exact second
  | cons event front ih =>
    obtain ⟨_, u, one, others⟩ := yields_bind.mp first
    exact yields_bind.mpr ⟨(), u, one, ih others⟩

/-- What is behind the last value has none. -/
theorem upToValues_spec (msg : SoMessage) :
    ∃ back : List SoEvent, msg.events = msg.upToValues.events ++ back ∧ ∀ e ∈ back, e.value = none := by
  let plain : SoEvent → Bool := fun e => e.value.isNone
  refine ⟨msg.events.rtakeWhile plain, List.rdropWhile_append_rtakeWhile.symm, fun e member => ?_⟩
  have none : plain e = true := List.mem_rtakeWhile_imp member
  exact Option.isNone_iff_eq_none.mp none

theorem length_upToValues (msg : SoMessage) : msg.upToValues.encode.length ≤ msg.encode.length := by
  obtain ⟨back, parts, _⟩ := msg.upToValues_spec
  have longer : (msg.upToValues.events.flatMap SoEvent.encode).length ≤
      (msg.events.flatMap SoEvent.encode).length := by
    rw [parts, List.flatMap_append, List.length_append]
    exact Nat.le_add_right ..
  simp only [encode, List.length_append]
  exact Nat.add_le_add_left (Nat.add_le_add_left (Nat.add_le_add_left (Nat.add_le_add_left longer _) _) _) _

/-- A message whose values can be written, within the limits of one budget as far as the last of
them, gives its encoding. -/
theorem serialize_spec {msg : SoMessage} (writable : ∀ e ∈ msg.events, e.value.Writable)
    (short : msg.upToValues.encode.length < WriteBudget.eMaxBytes) (few : msg.nodes ≤ WriteBudget.eMaxNodes)
    {e : Encoder} (unscoped : e.scopes = 0) :
    Yields (serialize msg) e ()
      { e with buffer := e.buffer ++ msg.encode, nodes := msg.nodes, origin := e.buffer.length } := by
  refine yields_writeScope (fun e inside room => ?_) unscoped short few
  obtain ⟨back, parts, plain⟩ := msg.upToValues_spec
  let header := SoEvent.encodeName msg.name ++ (u32Be msg.version ++ (u32Be msg.flags ++ u32Be 0))
  have total : msg.nodes = msg.upToValues.nodes + (back.map fun e => e.value.nodes).sum := by
    rw [nodes, parts, List.map_append, List.sum_append]
    rfl
  have share : e.Room (header ++ msg.upToValues.events.flatMap SoEvent.encode) (0 + msg.upToValues.nodes) := by
    obtain ⟨start, size, counted⟩ := room
    refine ⟨start, ?_, by omega⟩
    simpa only [header, encode, upToValues, List.append_assoc] using size
  have first := serializeEvents_writes scopeWrites_rules
    (fun e member => writable e (parts ▸ List.mem_append_left back member)) (by exact inside) share.split.2
  have second : AlwaysWrites (serializeEvents back) _ _ := serializeEvents_writes alwaysWrites_rules
    fun e member => plain e member ▸ alwaysWrites_rules.append _
  have whole := serializeEvents_append first (second _)
  have bytes : header ++ (msg.upToValues.events.flatMap SoEvent.encode ++ back.flatMap SoEvent.encode) =
      msg.encode := by
    simp only [header, encode, parts, List.flatMap_append, List.append_assoc]
  have cost : 0 + ((msg.upToValues.events.map fun e => e.value.nodes).sum + (back.map fun e => e.value.nodes).sum) =
      msg.nodes := (Nat.zero_add _).trans total.symm
  rw [← parts, Encoder.after_after, Encoder.after_after, bytes, cost] at whole
  refine yields_bind.mpr ⟨(), _, yields_modify.mpr rfl, yields_bind.mpr ⟨(), _, yields_modify.mpr rfl,
    yields_bind.mpr ⟨(), _, yields_modify.mpr rfl, yields_bind.mpr
      ⟨(), e.after header 0, yields_modify.mpr ?_, whole⟩⟩⟩⟩
  simp only [header, Encoder.after, SoEvent.encodeName, List.append_assoc, Nat.add_zero]

end SoMessage

end Fms
