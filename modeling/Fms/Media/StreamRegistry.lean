import Fms.Base.Bimap
import Fms.Base.Bytes
import Fms.Base.OrdSet

namespace Fms
open ByteWire

/-- `stream_client_id_t`: a connection and one of its message streams. -/
abbrev StreamClientId := Nat × Nat

/-- `broadcast_stream`, as far as it concerns the registry. -/
structure BroadcastStream where
  qosTarget : Option StreamClientId := none

/-- `subscriber`: a client waiting for a stream, kept under its id. -/
structure WaitingClient where
  channelId : Nat
  receiveVideo : Bool := true
  receiveAudio : Bool := true

structure StreamClient where
  streamWasPlaying : Bool
  receiveVideo : Bool := true
  receiveAudio : Bool := true
  keyFrameSent : Bool := false

/-- `stream_registry`. The two-way map of subscribers holds each of them once, so it is kept from
the subscriber to its broadcaster. -/
structure StreamRegistry where
  broadcasts : Dict StreamClientId BroadcastStream := ∅
  streams : Bimap StreamClientId Bytes := ∅
  streamClients : Dict StreamClientId StreamClientId := ∅
  subscribers : Dict StreamClientId StreamClient := ∅
  subscribersToStream : Dict StreamClientId Bytes := ∅
  clients : Dict Nat (OrdSet Nat) := ∅
  waitingClients : Dict Bytes (Dict StreamClientId WaitingClient) := ∅

namespace StreamRegistry

def streamsOf (r : StreamRegistry) (conn : Nat) : OrdSet Nat := (r.clients.lookup conn).getD ∅

def Owns (r : StreamRegistry) (id : StreamClientId) : Prop := id.2 ∈ r.streamsOf id.1

def addClientStream (r : StreamRegistry) (id : StreamClientId) : StreamRegistry :=
  { r with clients := r.clients.insert id.1 ((r.streamsOf id.1).insert id.2) }

variable {r : StreamRegistry}

@[grind =] theorem owns_addClientStream {id other : StreamClientId} :
    (r.addClientStream id).Owns other ↔ other = id ∨ r.Owns other := by
  unfold Owns streamsOf addClientStream
  rw [Dict.lookup_insert_if, Prod.ext_iff]
  split
  · rename_i same
    rw [Option.getD_some, OrdSet.mem_insert, same]
    simp [streamsOf]
  · rename_i apart
    simp [apart]

def removeClientStream (r : StreamRegistry) (id : StreamClientId) : StreamRegistry :=
  { r with
    clients := match r.clients.lookup id.1 with
      | none => r.clients
      | some streams => r.clients.insert id.1 (streams.erase id.2) }

@[grind =] theorem owns_removeClientStream {id other : StreamClientId} :
    (r.removeClientStream id).Owns other ↔ other ≠ id ∧ r.Owns other := by
  rw [Ne, Prod.ext_iff]
  unfold Owns streamsOf removeClientStream
  by_cases same : other.1 = id.1
  · rw [same]
    cases found : r.clients.lookup id.1 with
    | none => simp [found]
    | some streams => simp
  · cases r.clients.lookup id.1 with
    | none => simp [same]
    | some streams => simp [same]

def takeClient (r : StreamRegistry) (conn : Nat) : OrdSet Nat × StreamRegistry :=
  (r.streamsOf conn, { r with clients := r.clients.erase conn })

variable {id : StreamClientId}

@[grind =] theorem owns_takeClient {conn : Nat} :
    (r.takeClient conn).2.Owns id ↔ id.1 ≠ conn ∧ r.Owns id := by
  unfold Owns streamsOf takeClient
  rw [Dict.lookup_erase_if]
  split
  · rename_i same
    simp [same]
  · rename_i apart
    simp [apart]

def broadcasterForName (r : StreamRegistry) (name : Bytes) : Option StreamClientId := r.streams.lookupRight name

theorem broadcasterForName_eq_some {name : Bytes} :
    r.broadcasterForName name = some id ↔ r.streams.lookup id = some name :=
  Bimap.lookupRight_eq_some

/-- `none` where the id or the name is taken. The id is owned whether or not it came from
`createStream`. -/
def addBroadcaster (r : StreamRegistry) (id : StreamClientId) (name : Bytes) : Option StreamRegistry :=
  if (r.streams.lookup id).isSome ∨ (r.streams.lookupRight name).isSome then none
  else some (addClientStream
    { r with
      streams := r.streams.insert id name
      broadcasts := if id ∈ r.broadcasts then r.broadcasts else r.broadcasts.insert id {} } id)

/-- Set the stream that carries a broadcaster's statistics, if it is there. -/
def setQosTarget (r : StreamRegistry) (id target : StreamClientId) : StreamRegistry :=
  { r with
    broadcasts := match r.broadcasts.lookup id with
      | none => r.broadcasts
      | some b => r.broadcasts.insert id { b with qosTarget := some target } }

/-- What `remove_broadcaster` reports; there is no report where the id was no broadcaster. -/
structure BroadcasterTeardown where
  name : Bytes
  qosTarget : Option StreamClientId
  subscribers : List StreamClientId

/-- The subscribers with an edge from the broadcaster. -/
def fanOut (r : StreamRegistry) (id : StreamClientId) : List StreamClientId :=
  (r.streamClients.entries.filter fun edge => edge.2 = id).map Sigma.fst

theorem mem_fanOut {id sub : StreamClientId} :
    sub ∈ r.fanOut id ↔ r.streamClients.lookup sub = some id := by
  rw [← Option.mem_def, AList.mem_lookup_iff]
  simp [fanOut]

theorem nodup_fanOut : (r.fanOut id).Nodup :=
  (List.filter_sublist.map Sigma.fst).nodup r.streamClients.nodupKeys

/-- The publisher erased, its edges with it, and the clients at their ends. -/
def withoutBroadcaster (r : StreamRegistry) (id : StreamClientId) : StreamRegistry :=
  { r with
    streams := r.streams.eraseLeft id
    broadcasts := r.broadcasts.erase id
    streamClients := r.streamClients.filterMap fun _ b => if b = id then none else some b
    subscribers := r.subscribers.filterMap fun sub client =>
      if r.streamClients.lookup sub = some id then none else some client }

def removeBroadcaster (r : StreamRegistry) (id : StreamClientId) : Option (BroadcasterTeardown × StreamRegistry) :=
  (r.streams.lookup id).map fun name =>
    ({ name, qosTarget := (r.broadcasts.lookup id).bind BroadcastStream.qosTarget, subscribers := r.fanOut id },
      r.withoutBroadcaster id)

section
variable {r : StreamRegistry} {id target other sub : StreamClientId}

@[grind =] theorem lookup_streams_withoutBroadcaster :
    (r.withoutBroadcaster id).streams.lookup other = if other = id then none else r.streams.lookup other :=
  Bimap.lookup_eraseLeft

@[grind =] theorem lookup_broadcasts_withoutBroadcaster :
    (r.withoutBroadcaster id).broadcasts.lookup other = if other = id then none else r.broadcasts.lookup other :=
  Dict.lookup_erase_if

@[grind =] theorem lookup_streamClients_withoutBroadcaster : (r.withoutBroadcaster id).streamClients.lookup sub =
    if r.streamClients.lookup sub = some id then none else r.streamClients.lookup sub := by
  show (Dict.filterMap _ _).lookup sub = _
  rw [Dict.lookup_filterMap]
  cases r.streamClients.lookup sub with
  | none => rfl
  | some b => simp

@[grind =] theorem lookup_subscribers_withoutBroadcaster : (r.withoutBroadcaster id).subscribers.lookup sub =
    if r.streamClients.lookup sub = some id then none else r.subscribers.lookup sub := by
  show (Dict.filterMap _ _).lookup sub = _
  rw [Dict.lookup_filterMap]
  split
  · exact Option.bind_fun_none _
  · exact Option.bind_fun_some _

@[grind =] theorem isSome_broadcasts_setQosTarget :
    ((r.setQosTarget id target).broadcasts.lookup other).isSome = (r.broadcasts.lookup other).isSome := by
  unfold setQosTarget
  cases found : r.broadcasts.lookup id with
  | none => rfl
  | some b =>
    dsimp only
    rw [Dict.lookup_insert_if]
    split
    · rename_i same
      rw [same, found]
      rfl
    · rfl

variable {next : StreamRegistry} {name : Bytes}

/-- What a registration did, and what it found free. -/
theorem addBroadcaster_eq_some (added : r.addBroadcaster id name = some next) :
    r.streams.lookup id = none ∧ r.broadcasterForName name = none ∧
      next = addClientStream
        { r with
          streams := r.streams.insert id name
          broadcasts := if id ∈ r.broadcasts then r.broadcasts else r.broadcasts.insert id {} } id := by
  unfold addBroadcaster at added
  split at added
  · cases added
  · rename_i free
    simp only [not_or, Option.not_isSome_iff_eq_none] at free
    exact ⟨free.1, free.2, (Option.some.inj added).symm⟩

theorem lookup_streams_addBroadcaster (added : r.addBroadcaster id name = some next) :
    next.streams.lookup other = if other = id then some name else r.streams.lookup other := by
  obtain ⟨new, free, rfl⟩ := addBroadcaster_eq_some added
  exact Bimap.lookup_insert new free

theorem lookup_broadcasts_addBroadcaster (added : r.addBroadcaster id name = some next) :
    next.broadcasts.lookup other =
      if other = id ∧ r.broadcasts.lookup id = none then some {} else r.broadcasts.lookup other := by
  obtain ⟨_, _, rfl⟩ := addBroadcaster_eq_some added
  show (if id ∈ r.broadcasts then r.broadcasts else r.broadcasts.insert id {}).lookup other = _
  by_cases there : id ∈ r.broadcasts
  · rw [if_pos there, if_neg]
    rintro ⟨_, absent⟩
    exact AList.lookup_eq_none.mp absent there
  · rw [if_neg there, Dict.lookup_insert_if]
    simp [AList.lookup_eq_none.mpr there]

end

def addSubscriber (r : StreamRegistry) (broadcaster sub : StreamClientId) (client : StreamClient) : StreamRegistry :=
  addClientStream
    { r with
      subscribers := r.subscribers.insert sub client
      streamClients := (r.streamClients.erase sub).insert sub broadcaster } sub

@[grind =] theorem lookup_streamClients_addSubscriber {b sub other : StreamClientId}
    {client : StreamClient} :
    (r.addSubscriber b sub client).streamClients.lookup other =
      if other = sub then some b else r.streamClients.lookup other := by
  show ((r.streamClients.erase sub).insert sub b).lookup other = _
  rw [Dict.lookup_insert_if, Dict.lookup_erase_if]
  split
  · rfl
  · rfl

/-- `for_each_subscriber`: whom a frame of the broadcaster is handed to. -/
def forEachSubscriber (r : StreamRegistry) (broadcaster : StreamClientId) : List (StreamClientId × StreamClient) :=
  (r.fanOut broadcaster).filterMap fun sub => (r.subscribers.lookup sub).map fun client => (sub, client)

theorem mem_forEachSubscriber {broadcaster sub : StreamClientId} {client : StreamClient} :
    (sub, client) ∈ r.forEachSubscriber broadcaster ↔
      r.streamClients.lookup sub = some broadcaster ∧ r.subscribers.lookup sub = some client := by
  simp only [forEachSubscriber, List.mem_filterMap, mem_fanOut, Option.map_eq_some_iff, Prod.mk.injEq]
  constructor
  · rintro ⟨_, edge, _, found, rfl, rfl⟩
    exact ⟨edge, found⟩
  · rintro ⟨edge, found⟩
    exact ⟨sub, edge, client, found, rfl, rfl⟩

theorem nodup_forEachSubscriber {broadcaster : StreamClientId} :
    ((r.forEachSubscriber broadcaster).map Prod.fst).Nodup := by
  have distinct : (r.fanOut broadcaster).Nodup := nodup_fanOut
  refine List.Sublist.nodup ?_ distinct
  unfold forEachSubscriber
  induction r.fanOut broadcaster with
  | nil => exact .slnil
  | cons sub rest ih =>
    cases found : r.subscribers.lookup sub with
    | none => simpa [List.filterMap_cons, found] using ih.cons sub
    | some client => simpa [List.filterMap_cons, found] using ih

def detachSubscriber (r : StreamRegistry) (id : StreamClientId) : StreamRegistry :=
  { r with streamClients := r.streamClients.erase id, subscribers := r.subscribers.erase id }

def waitingOn (r : StreamRegistry) (name : Bytes) : Dict StreamClientId WaitingClient :=
  (r.waitingClients.lookup name).getD ∅

/-- A client that waits already is not replaced. -/
def addWaiting (r : StreamRegistry) (name : Bytes) (id : StreamClientId) (client : WaitingClient) : StreamRegistry :=
  addClientStream
    { r with
      waitingClients := r.waitingClients.insert name
        (if id ∈ r.waitingOn name then r.waitingOn name else (r.waitingOn name).insert id client) } id

def takeWaiting (r : StreamRegistry) (name : Bytes) : List (StreamClientId × WaitingClient) × StreamRegistry :=
  ((r.waitingOn name).entries.map fun entry =>
    (entry.1, entry.2), { r with waitingClients := r.waitingClients.erase name })

/-- Note for one client what it wants to receive. -/
def WaitingClient.receive (client : WaitingClient) (isVideo receive : Bool) : WaitingClient :=
  if isVideo then { client with receiveVideo := receive } else { client with receiveAudio := receive }

def updateWaiting (r : StreamRegistry) (id : StreamClientId) (isVideo receive : Bool) : StreamRegistry :=
  { r with
    waitingClients := r.waitingClients.filterMap fun _ waiting => some (waiting.filterMap fun sub client =>
      some (if sub = id then WaitingClient.receive client isVideo receive else client)) }

def eraseWaiting (r : StreamRegistry) (name : Bytes) (id : StreamClientId) : StreamRegistry :=
  { r with
    waitingClients := match r.waitingClients.lookup name with
      | none => r.waitingClients
      | some waiting => r.waitingClients.insert name (waiting.erase id) }

section
variable {r : StreamRegistry} {name other : Bytes} {id sub : StreamClientId}

@[grind =] theorem mem_waitingOn_addWaiting {client : WaitingClient} :
    sub ∈ (r.addWaiting name id client).waitingOn other ↔ other = name ∧ sub = id ∨ sub ∈ r.waitingOn other := by
  unfold waitingOn addWaiting addClientStream
  dsimp only
  rw [Dict.lookup_insert_if]
  split
  · rename_i same
    subst same
    rw [Option.getD_some]
    split
    · rename_i there
      constructor
      · exact .inr
      · rintro (⟨_, rfl⟩ | old)
        · exact there
        · exact old
    · simp [AList.mem_insert, waitingOn]
  · rename_i apart
    simp [apart]

theorem mem_takeWaiting {entry : StreamClientId × WaitingClient} (taken : entry ∈ (r.takeWaiting name).1) :
    entry.1 ∈ r.waitingOn name := by
  obtain ⟨kept, member, rfl⟩ := List.mem_map.mp taken
  exact List.mem_map.mpr ⟨kept, member, rfl⟩

theorem exists_takeWaiting (waits : sub ∈ r.waitingOn name) : ∃ client, (sub, client) ∈ (r.takeWaiting name).1 := by
  obtain ⟨kept, member, rfl⟩ := List.mem_map.mp waits
  exact ⟨kept.2, List.mem_map_of_mem member⟩

@[grind =] theorem mem_waitingOn_takeWaiting :
    sub ∈ (r.takeWaiting name).2.waitingOn other ↔ other ≠ name ∧ sub ∈ r.waitingOn other := by
  unfold waitingOn takeWaiting
  dsimp only
  rw [Dict.lookup_erase_if]
  split
  · rename_i same
    simp [same]
  · rename_i apart
    simp [apart]

@[grind =] theorem mem_waitingOn_updateWaiting {isVideo receive : Bool} :
    sub ∈ (r.updateWaiting id isVideo receive).waitingOn other ↔ sub ∈ r.waitingOn other := by
  unfold waitingOn updateWaiting
  dsimp only
  rw [Dict.lookup_filterMap]
  cases r.waitingClients.lookup other with
  | none => rfl
  | some waiting =>
    rw [Option.bind_some, Option.getD_some, Option.getD_some, ← AList.lookup_isSome, ← AList.lookup_isSome,
      Dict.lookup_filterMap]
    cases waiting.lookup sub <;> rfl

@[grind =] theorem mem_waitingOn_eraseWaiting :
    sub ∈ (r.eraseWaiting name id).waitingOn other ↔ ¬(other = name ∧ sub = id) ∧ sub ∈ r.waitingOn other := by
  unfold waitingOn eraseWaiting
  by_cases same : other = name
  · rw [same]
    cases found : r.waitingClients.lookup name with
    | none => simp [found]
    | some waiting => simp [AList.mem_erase]
  · cases r.waitingClients.lookup name with
    | none => simp [same]
    | some waiting => simp [same]

end

end StreamRegistry
end Fms
