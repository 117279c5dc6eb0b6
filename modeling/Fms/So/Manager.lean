import Fms.Amf.Amf0
import Fms.Base.Dict
import Fms.Base.OrdSet

namespace Fms
open ByteWire

/-- A property value as an `amf0_type_ptr` refers to it. -/
abbrev SoValue := Option (Σ depth, Amf.Value0 depth)

/-- The events of `rtmp_message_shared_object`, with what each carries. The value in a
`success` is the one of the request it acknowledges: the peer has it, the wire does not. -/
inductive SoEvent
  | use
  | release
  | requestChange (name : Bytes) (value : SoValue)
  | change (name : Bytes) (value : SoValue)
  | success (name : Bytes) (acknowledged : SoValue)
  | sendMessage (data : Bytes)
  | status
  | clear
  | remove (name : Bytes)
  | requestRemove (name : Bytes)
  | useSuccess
  | unknown (type : UInt8)

/-- `rtmp_message_shared_object`. -/
structure SoMessage where
  name : Bytes
  version : UInt32 := 0
  flags : UInt32 := 0
  events : List SoEvent := []

namespace SoMessage

def eMaxEvents : Nat := 64

/-- `none` when the message already carries every event a peer will parse. -/
def addEvent (msg : SoMessage) (e : SoEvent) : Option SoMessage :=
  if msg.events.length ≥ eMaxEvents then none else some { msg with events := msg.events ++ [e] }

/-- Add events in turn, up to the first one that is refused. -/
def addEvents (msg : SoMessage) : List SoEvent → SoMessage
  | [] => msg
  | e :: rest => match msg.addEvent e with
    | none => msg
    | some msg => msg.addEvents rest

end SoMessage

/-- The property cap: a `use` reply carries UseSuccess, Clear and one Change per property. -/
def SoManager.eMaxProperties : Nat := SoMessage.eMaxEvents - 2

/-- `so_data`, whose properties always fit one `use` reply. -/
structure SoData where
  version : UInt32 := 1
  clients : OrdSet Nat := ∅
  values : Dict Bytes SoValue := ∅
  bounded : values.size ≤ SoManager.eMaxProperties := by exact Nat.zero_le _

namespace SoData

/-- Whether a property can be set: past the cap, only one that is there already. -/
def Admits (data : SoData) (name : Bytes) : Prop :=
  ¬(data.values.size ≥ SoManager.eMaxProperties ∧ name ∉ data.values)

instance (data : SoData) (name : Bytes) : Decidable (data.Admits name) :=
  inferInstanceAs (Decidable ¬(_ ∧ _))

def setValue (data : SoData) (name : Bytes) (value : SoValue) (room : data.Admits name) : SoData :=
  { data with
    values := data.values.insert name value
    bounded := by
      by_cases present : name ∈ data.values
      · rw [Dict.size_insert_mem present]
        exact data.bounded
      · have below : data.values.size < SoManager.eMaxProperties := by
          by_contra full
          exact room ⟨not_lt.mp full, present⟩
        exact Dict.size_insert_le.trans below }

def eraseValue (data : SoData) (name : Bytes) : SoData :=
  { data with values := data.values.erase name, bounded := Dict.size_erase_le.trans data.bounded }

end SoData

/-- The state of `so_manager`. -/
structure SoManager where
  soMap : Dict Bytes SoData := ∅
  useCounts : Dict Nat Nat := ∅
  newMessage : Bool := false

namespace SoManager

def eMaxObjects : Nat := 4096
def eMaxObjectsPerConnection : Nat := 64
def eMaxValueBytes : Nat := 64 <<< 10
def eMaxValueNodes : Nat := Amf.WriteBudget.eMaxNodes / (eMaxProperties + 1)

/-- `pending_sends_t`. -/
abbrev PendingSends := List (Nat × SoMessage)

/-- Whether a value writes within its share of a `use` reply's byte and node budget. -/
def replayable : SoValue → Bool
  | none => false
  | some ⟨_, v⟩ => match Amf.Amf0.write v {} with
    | (.ok _, probe) => probe.buffer.length ≤ eMaxValueBytes && probe.nodes ≤ eMaxValueNodes
    | (.error _, _) => false

/-- The objects a connection uses by `m_use_counts`, where one without an entry counts 0. -/
def useCount (m : SoManager) (connectionId : Nat) : Nat := (m.useCounts.lookup connectionId).getD 0

/-- The named object, only for a connection that is using it. -/
def findSo (m : SoManager) (so : SoMessage) (connectionId : Nat) : Option SoData :=
  (m.soMap.lookup so.name).filter fun data => connectionId ∈ data.clients

/-- Write an object back after a change to it. -/
def store (m : SoManager) (so : SoMessage) (data : SoData) : SoManager :=
  { m with soMap := m.soMap.insert so.name data }

def increaseVersion (m : SoManager) (data : SoData) : SoManager × SoData :=
  if m.newMessage then ({ m with newMessage := false }, { data with version := data.version + 1 })
  else (m, data)

def othersOf (data : SoData) (connectionId : Nat) : List Nat :=
  data.clients.elems.filter (· ≠ connectionId)

/-- The connection is not a client of the object yet. -/
def joining (m : SoManager) (so : SoMessage) (connectionId : Nat) : Bool :=
  match m.soMap.lookup so.name with
  | none => true
  | some data => connectionId ∉ data.clients

/-- The events that bring a client up to date, with the properties in the order of their names. -/
def useReply (values : Dict Bytes SoValue) : List SoEvent :=
  .useSuccess :: .clear :: values.ordered.map fun entry => .change entry.1 entry.2

def handleUseEvent (m : SoManager) (so : SoMessage) (connectionId : Nat) (result : SoMessage)
    (pending : PendingSends) : SoManager × SoMessage × PendingSends :=
  let known := m.soMap.lookup so.name
  if known.isNone ∧ m.soMap.size ≥ eMaxObjects then (m, result, pending)
  else if m.joining so connectionId ∧ m.useCount connectionId ≥ eMaxObjectsPerConnection then (m, result, pending)
  else
    let found := known.getD {}
    let data := { found with clients := found.clients.insert connectionId }
    let counted :=
      if m.joining so connectionId then m.useCounts.insert connectionId (m.useCount connectionId + 1) else m.useCounts
    let m := { m.store so data with useCounts := counted }
    -- the answer has to fit whole, so it goes in its own message unless the reply is still empty
    if result.events = [] then
      (m, { result with flags := 0x20 }.addEvents (useReply data.values), pending)
    else
      let answer : SoMessage := { name := so.name, version := so.version, flags := 0x20 }
      (m, result, pending ++ [(connectionId, answer.addEvents (useReply data.values))])

/-- The counts with one object fewer for a connection that has a count. -/
def countDown (m : SoManager) (connectionId : Nat) : Dict Nat Nat :=
  match m.useCounts.lookup connectionId with
  | some n => if n > 0 then m.useCounts.insert connectionId (n - 1) else m.useCounts
  | none => m.useCounts

def handleReleaseEvent (m : SoManager) (so : SoMessage) (connectionId : Nat) : SoManager :=
  match m.findSo so connectionId with
  | none => m
  | some data =>
    let data := { data with clients := data.clients.erase connectionId }
    let counted := m.countDown connectionId
    if data.clients.size = 0 then { m with soMap := m.soMap.erase so.name, useCounts := counted }
    else { m.store so data with useCounts := counted }

/-- The message that tells a client about one event on its object. -/
def notification (so : SoMessage) (version : UInt32) (e : SoEvent) : Option SoMessage :=
  SoMessage.addEvent { name := so.name, version := version, flags := 0 } e

def handleReqChangeEvent (m : SoManager) (so : SoMessage) (connectionId : Nat) (name : Bytes) (value : SoValue)
    (result : SoMessage) (pending : PendingSends) : SoManager × SoMessage × PendingSends :=
  match m.findSo so connectionId with
  | none => (m, result, pending)
  | some data =>
    -- a new property past the cap is refused, and so is a value a `use` reply could not carry back
    if room : data.Admits name then
      if ¬replayable value then (m, result, pending)
      else
        let (m, data) := m.increaseVersion (data.setValue name value room)
        let m := m.store so data
        let result := { result with version := data.version }
        match result.addEvent (.success name value) with
        | none => (m, result, pending)
        | some result =>
          let sends := (othersOf data connectionId).filterMap fun client =>
            (notification so data.version (.change name value)).map (client, ·)
          (m, result, pending ++ sends)
    else (m, result, pending)

def handleSendMessageEvent (m : SoManager) (so : SoMessage) (connectionId : Nat) (result : Option SoMessage)
    (pending : PendingSends) : Option SoMessage × PendingSends :=
  match m.findSo so connectionId with
  | none => (result, pending)
  | some data => (some so, pending ++ (othersOf data connectionId).map (·, so))

def handleReqRemoveEvent (m : SoManager) (so : SoMessage) (connectionId : Nat) (name : Bytes)
    (result : Option SoMessage) (pending : PendingSends) : SoManager × Option SoMessage × PendingSends :=
  match m.findSo so connectionId with
  | none => (m, result, pending)
  | some data =>
    if name ∈ data.values then
      let (m, data) := m.increaseVersion (data.eraseValue name)
      let m := m.store so data
      match notification so data.version (.remove name) with
      | none => (m, result, pending)
      | some notify => (m, some notify, pending ++ (othersOf data connectionId).map (·, notify))
    else (m, result, pending)

/-- The locals of `handle_so` while it works through the events: the reply that grows event
by event, the one that replaces it, and what is to be delivered once the lock is released. -/
structure Handling where
  manager : SoManager
  ret : SoMessage
  replacement : Option SoMessage := none
  pending : PendingSends := []
  released : Bool := false
  used : Bool := false

def emptyReply (so : SoMessage) : SoMessage := { name := so.name, version := so.version, flags := so.flags }

/-- A full reply goes out; later replies start a new one. -/
def makeRoom (so : SoMessage) (connectionId : Nat) (h : Handling) : Handling :=
  if h.ret.events.length ≥ SoMessage.eMaxEvents then
    { h with pending := h.pending ++ [(connectionId, h.ret)], ret := emptyReply so }
  else h

def handleEvent (so : SoMessage) (connectionId : Nat) (h : Handling) : SoEvent → Handling
  | .use =>
    if h.used then h
    else
      let (manager, ret, pending) := handleUseEvent h.manager so connectionId h.ret h.pending
      { h with manager := manager, ret := ret, pending := pending, used := true }
  | .release => { h with manager := handleReleaseEvent h.manager so connectionId, released := true }
  | .requestChange name value =>
    let h := makeRoom so connectionId h
    let (manager, ret, pending) := handleReqChangeEvent h.manager so connectionId name value h.ret h.pending
    { h with manager := manager, ret := ret, pending := pending }
  | .sendMessage _ =>
    let (replacement, pending) := handleSendMessageEvent h.manager so connectionId h.replacement h.pending
    { h with replacement := replacement, pending := pending }
  | .requestRemove name =>
    let (manager, replacement, pending) :=
      handleReqRemoveEvent h.manager so connectionId name h.replacement h.pending
    { h with manager := manager, replacement := replacement, pending := pending }
  | _ => h

/-- The loop of `handle_so`; a release ends it. -/
def handleEvents (so : SoMessage) (connectionId : Nat) (h : Handling) : List SoEvent → Handling
  | [] => h
  | e :: rest =>
    let h := handleEvent so connectionId h e
    if h.released then h else handleEvents so connectionId h rest

def beginHandling (m : SoManager) (so : SoMessage) : Handling :=
  { manager := { m with newMessage := true }, ret := emptyReply so }

/-- What is left of `handle_so` after the lock is released: the deliveries, then the result. -/
def finish (connectionId : Nat) (h : Handling) : PendingSends × Option SoMessage :=
  let pending :=
    if h.replacement.isSome ∧ ¬h.released ∧ h.ret.events ≠ [] then h.pending ++ [(connectionId, h.ret)]
    else h.pending
  (pending, if h.released then none else some (h.replacement.getD h.ret))

def handleSo (m : SoManager) (so : SoMessage) (connectionId : Nat) : SoManager × PendingSends × Option SoMessage :=
  let h := handleEvents so connectionId (beginHandling m so) so.events
  (h.manager, finish connectionId h)

/-- Drop a departed connection from every object, and every object left with no clients. -/
def removeConnection (m : SoManager) (connectionId : Nat) : SoManager :=
  { m with
    soMap := m.soMap.filterMap fun _ data =>
      let clients := data.clients.erase connectionId
      if clients.size = 0 then none else some { data with clients := clients }
    useCounts := m.useCounts.erase connectionId }

end SoManager

end Fms
