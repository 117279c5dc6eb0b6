import Fms.Media.StreamRegistry
import Fms.Session.ClientSession

namespace Fms
open ByteWire

variable {r : StreamRegistry}

/-- `media_application`: the registry, and the stream ids that each connected session holds. -/
structure MediaApplication where
  sessions : Dict Nat (Finset Nat) := ∅
  registry : StreamRegistry := {}

/-- What the start parameter of `play` asks for: a recording, a live stream or either. -/
inductive PlayStart
  | recorded
  | liveOnly
  | either
  deriving DecidableEq, Repr

/-- A `play` request. There is no name where the parameters are refused; `file` says whether the
file can be opened. -/
structure PlayRequest where
  name : Option Bytes
  isRemote : Bool := false
  start : PlayStart := .either
  file : Bool := false
  channelId : Nat := 0

inductive MediaRequest
  | connect (conn : Nat)
  | createStream (conn : Nat)
  | publish (id : StreamClientId) (name : Option Bytes)
  | play (id : StreamClientId) (request : PlayRequest)
  | receiveAudio (id : StreamClientId) (receive : Bool)
  | receiveVideo (id : StreamClientId) (receive : Bool)
  | closeStream (id : StreamClientId)
  | deleteStream (id : StreamClientId)
  | disconnect (conn : Nat)

namespace MediaApplication
open StreamRegistry

def qosName (stream : Bytes) : Bytes := [0x51, 0x4f, 0x53, 0x21] ++ stream

/-- The session of the connection holds the stream id, and it is not that of the control stream. -/
def Holds (app : MediaApplication) (id : StreamClientId) : Prop :=
  id.2 ≠ 0 ∧ ∃ ids, app.sessions.lookup id.1 = some ids ∧ id.2 ∈ ids

def claimStream (app : MediaApplication) (id : StreamClientId) : Option MediaApplication := do
  let ids ← app.sessions.lookup id.1
  let ids ← ClientSession.claimStreamId ids id.2
  return { app with sessions := app.sessions.insert id.1 ids }

def reserveStream (app : MediaApplication) (conn : Nat) : Option (Nat × MediaApplication) := do
  let ids ← app.sessions.lookup conn
  let (stream, ids) ← ClientSession.reserveStreamId ids
  return (stream, { app with sessions := app.sessions.insert conn ids })

section
variable {app next : MediaApplication} {id other : StreamClientId} {conn stream : Nat} {ids grown : Finset Nat}

/-- Where the ids of a session change, the other sessions hold what they held. -/
theorem Holds.insert (found : app.sessions.lookup conn = some ids) (keeps : id.1 = conn → id.2 ∈ ids → id.2 ∈ grown)
    (held : app.Holds id) : Holds { app with sessions := app.sessions.insert conn grown } id := by
  obtain ⟨stream, old, there, member⟩ := held
  refine ⟨stream, ?_⟩
  dsimp only
  rw [Dict.lookup_insert_if]
  split
  · rename_i same
    rw [same, found] at there
    cases there
    exact ⟨grown, rfl, keeps same member⟩
  · exact ⟨old, there, member⟩

theorem claimStream_eq_some (claimed : app.claimStream id = some next) :
    next.registry = app.registry ∧ next.Holds id ∧ ∀ {x}, app.Holds x → next.Holds x := by
  obtain ⟨ids, found, rest⟩ := Option.bind_eq_some_iff.mp claimed
  obtain ⟨grown, claim, same⟩ := Option.bind_eq_some_iff.mp rest
  cases same
  obtain ⟨named, rfl⟩ := ClientSession.claimStreamId_eq_some claim
  refine ⟨rfl, ⟨named, _, AList.lookup_insert _, Finset.mem_insert_self ..⟩, ?_⟩
  exact .insert found fun _ => Finset.mem_insert_of_mem

theorem reserveStream_eq_some (reserved : app.reserveStream conn = some (stream, next)) :
    next.registry = app.registry ∧ ¬app.Holds (conn, stream) ∧ ∀ {x}, app.Holds x → next.Holds x := by
  obtain ⟨ids, found, rest⟩ := Option.bind_eq_some_iff.mp reserved
  obtain ⟨⟨free, grown⟩, reserve, same⟩ := Option.bind_eq_some_iff.mp rest
  cases same
  obtain ⟨_, _, absent, rfl⟩ := ClientSession.reserveStreamId_eq_some reserve
  refine ⟨rfl, ?_, .insert found fun _ => Finset.mem_insert_of_mem⟩
  rintro ⟨_, old, there, member⟩
  rw [found] at there
  cases there
  exact absent member

/-- A stream that the session holds can be claimed again. -/
theorem not_holds_of_claimStream (refused : app.claimStream id = none) : ¬app.Holds id := by
  rintro ⟨stream, ids, found, member⟩
  have claims : ClientSession.claimStreamId ids id.2 = some ids := ClientSession.claimStreamId_of_mem stream member
  unfold claimStream at refused
  rw [found] at refused
  simp [claims] at refused

end

/-- Every subscription a stream id holds is released. -/
def forgetSubscription (r : StreamRegistry) (sub : StreamClientId) : StreamRegistry :=
  let r := r.detachSubscriber sub
  match r.subscribersToStream.lookup sub with
  | none => r
  | some name =>
    let r := r.eraseWaiting name sub
    { r with subscribersToStream := r.subscribersToStream.erase sub }

/-- A broadcaster is taken down and with it the stream of its statistics; any other id stops
playing. Each round takes a broadcaster away. -/
def closeStreamFrom : Nat → StreamRegistry → StreamClientId → StreamRegistry
  | 0, r, _ => r
  | fuel + 1, r, id =>
    match r.removeBroadcaster id with
    | none => r.detachSubscriber id
    | some (teardown, r) =>
      match teardown.qosTarget with
      | none => r
      | some target => closeStreamFrom fuel r target

def closeStream (r : StreamRegistry) (id : StreamClientId) : StreamRegistry :=
  closeStreamFrom (r.broadcasts.size + 1) r id

/-- A broadcaster that has a stream of statistics was counted, so a further one fits the fuel. -/
theorem size_withoutBroadcaster {id target : StreamClientId}
    (points : (r.broadcasts.lookup id).bind BroadcastStream.qosTarget = some target) :
    (r.withoutBroadcaster id).broadcasts.size + 1 = r.broadcasts.size := by
  obtain ⟨b, found, _⟩ := Option.bind_eq_some_iff.mp points
  exact Dict.size_erase_mem (AList.lookup_isSome.mp (found ▸ rfl))

variable {id : StreamClientId}

theorem closeStreamFrom_fuel {fuel : Nat} (enough : r.broadcasts.size < fuel) :
    closeStreamFrom fuel r id = closeStream r id := by
  suffices same : ∀ {more}, r.broadcasts.size < more → closeStreamFrom fuel r id = closeStreamFrom more r id from
    same (Nat.lt_succ_self _)
  induction fuel generalizing r id with
  | zero => omega
  | succ fuel ih =>
    intro more enoughMore
    obtain ⟨more, rfl⟩ := Nat.exists_eq_add_of_lt (Nat.zero_lt_of_lt enoughMore)
    rw [Nat.zero_add] at enoughMore ⊢
    unfold closeStreamFrom removeBroadcaster
    cases r.streams.lookup id with
    | none => rfl
    | some name =>
      cases points : (r.broadcasts.lookup id).bind BroadcastStream.qosTarget with
      | none => simp only [Option.map_some]
      | some target =>
        have smaller := size_withoutBroadcaster points
        simp only [Option.map_some]
        exact ih (by omega) (by omega)

/-- The recursion of `close_stream`, as the source has it. -/
theorem closeStream_eq : closeStream r id =
    if (r.streams.lookup id).isSome then
      match (r.broadcasts.lookup id).bind BroadcastStream.qosTarget with
      | none => r.withoutBroadcaster id
      | some target => closeStream (r.withoutBroadcaster id) target
    else r.detachSubscriber id := by
  conv_lhs => unfold closeStream closeStreamFrom removeBroadcaster
  cases r.streams.lookup id with
  | none => rfl
  | some name =>
    cases points : (r.broadcasts.lookup id).bind BroadcastStream.qosTarget with
    | none => simp only [Option.map_some, Option.isSome_some, if_true]
    | some target =>
      have smaller := size_withoutBroadcaster points
      simp only [Option.map_some, Option.isSome_some, if_true]
      exact closeStreamFrom_fuel (by omega)

/-- What each teardown on the way establishes for the next, and each of the last steps for the end,
holds once the stream is closed. -/
theorem closeStream_rule {I : StreamRegistry → StreamClientId → Prop} {J : StreamRegistry → Prop}
    (last : ∀ {r id}, I r id → (r.broadcasts.lookup id).bind BroadcastStream.qosTarget = none →
      J (r.withoutBroadcaster id))
    (further : ∀ {r id target}, I r id → (r.broadcasts.lookup id).bind BroadcastStream.qosTarget = some target →
      I (r.withoutBroadcaster id) target)
    (detach : ∀ {r id}, I r id → r.streams.lookup id = none → J (r.detachSubscriber id))
    (initially : I r id) : J (closeStream r id) := by
  induction size : r.broadcasts.size using Nat.strong_induction_on generalizing r id with
  | _ size ih =>
    rw [closeStream_eq]
    split
    · cases points : (r.broadcasts.lookup id).bind BroadcastStream.qosTarget with
      | none => exact last initially points
      | some target =>
        have smaller := size_withoutBroadcaster points
        exact ih _ (by omega) (further initially points) rfl
    · rename_i absent
      exact detach initially (Option.not_isSome_iff_eq_none.mp absent)

def closeAndForget (r : StreamRegistry) (id : StreamClientId) : StreamRegistry :=
  forgetSubscription (closeStream r id) id

def addWaitingClient (r : StreamRegistry) (id : StreamClientId) (name : Bytes) (channelId : Nat) : StreamRegistry :=
  let r := forgetSubscription r id
  let r := r.addWaiting name id { channelId }
  { r with subscribersToStream := r.subscribersToStream.insert id name }

/-- A waiting client becomes a subscriber that receives what it asked for while waiting. -/
def promote (broadcaster : StreamClientId) (r : StreamRegistry) (waiting : StreamClientId × WaitingClient) :
    StreamRegistry :=
  r.addSubscriber broadcaster waiting.1
    { streamWasPlaying := false, receiveVideo := waiting.2.receiveVideo, receiveAudio := waiting.2.receiveAudio }

/-- The clients waiting for a name are promoted, if it has a broadcaster. -/
def checkWaitingClients (r : StreamRegistry) (name : Bytes) : StreamRegistry :=
  match r.broadcasterForName name with
  | none => r
  | some broadcaster => (r.takeWaiting name).1.foldl (promote broadcaster) (r.takeWaiting name).2

def handleCreateStream (app : MediaApplication) (conn : Nat) : MediaApplication :=
  match app.reserveStream conn with
  | none => app
  | some (stream, app) => { app with registry := app.registry.addClientStream (conn, stream) }

/-- The id is reserved even where the name turns out to be taken. -/
def addQosStream (app : MediaApplication) (id : StreamClientId) (stream : Bytes) : MediaApplication :=
  match app.reserveStream id.1 with
  | none => app
  | some (qos, app) =>
    match app.registry.addBroadcaster (id.1, qos) (qosName stream) with
    | none => app
    | some r => { app with registry := r.setQosTarget id (id.1, qos) }

def handlePublish (app : MediaApplication) (id : StreamClientId) (name : Option Bytes) : MediaApplication :=
  match name, app.claimStream id with
  | some name, some app =>
    match app.registry.addBroadcaster id name with
    | none => app
    | some r =>
      let app := addQosStream { app with registry := r } id name
      { app with registry := checkWaitingClients app.registry name }
  | _, _ => app

/-- How a `play` of that name is served. -/
inductive PlayOutcome
  | vod
  | notFound
  | live (broadcaster : Option StreamClientId)

def playOutcome (r : StreamRegistry) (request : PlayRequest) (name : Bytes) : PlayOutcome :=
  match r.broadcasterForName name with
  | some broadcaster => .live (some broadcaster)
  | none =>
    if request.isRemote then .live none
    else if request.start ≠ .liveOnly ∧ request.file then .vod
    else if request.start = .recorded then .notFound
    else .live none

/-- A client is handed to a broadcaster only where the name has one. -/
theorem playOutcome_live {request : PlayRequest} {name : Bytes} {found : Option StreamClientId}
    (outcome : playOutcome r request name = .live found) : r.broadcasterForName name = found := by
  unfold playOutcome at outcome
  split at outcome
  · rename_i live
    cases outcome
    exact live
  · rename_i nobody
    split at outcome
    · cases outcome
      exact nobody
    · split at outcome
      · cases outcome
      · split at outcome
        · cases outcome
        · cases outcome
          exact nobody

/-- `handle_invoke_play` with the ids claimed. A client that finds its broadcaster waits as well. -/
def servePlay (r : StreamRegistry) (id : StreamClientId) (request : PlayRequest) (name : Bytes) : StreamRegistry :=
  match playOutcome r request name with
  | .vod | .notFound => forgetSubscription r id
  | .live none => addWaitingClient r id name request.channelId
  | .live (some broadcaster) =>
    (addWaitingClient r id name request.channelId).addSubscriber broadcaster id { streamWasPlaying := true }

def handlePlay (app : MediaApplication) (id : StreamClientId) (request : PlayRequest) : MediaApplication :=
  match request.name, app.claimStream id with
  | some name, some app => { app with registry := servePlay app.registry id request name }
  | _, _ => app

def setReceive (isVideo receive : Bool) (client : StreamClient) : StreamClient :=
  if isVideo then { client with receiveVideo := receive, keyFrameSent := false }
  else { client with receiveAudio := receive }

/-- `receiveAudio` and `receiveVideo`. -/
def handleReceive (r : StreamRegistry) (id : StreamClientId) (isVideo receive : Bool) : StreamRegistry :=
  match r.subscribers.lookup id with
  | some client => { r with subscribers := r.subscribers.insert id (setReceive isVideo receive client) }
  | none => r.updateWaiting id isVideo receive

def handleCloseStream (r : StreamRegistry) (id : StreamClientId) : StreamRegistry :=
  (closeAndForget r id).removeClientStream id

def handleDeleteStream (app : MediaApplication) (id : StreamClientId) : MediaApplication :=
  if id.2 = 0 then app
  else
    let app := { app with registry := handleCloseStream app.registry id }
    match app.sessions.lookup id.1 with
    | none => app
    | some ids => { app with sessions := app.sessions.insert id.1 (ClientSession.unreserveStreamId ids id.2) }

def removeClient (r : StreamRegistry) (conn : Nat) : StreamRegistry :=
  let (streams, r) := r.takeClient conn
  streams.elems.foldl (fun r stream => closeAndForget r (conn, stream)) r

def step (app : MediaApplication) : MediaRequest → MediaApplication
  | .connect conn => if conn ∈ app.sessions then app else { app with sessions := app.sessions.insert conn ∅ }
  | .createStream conn => handleCreateStream app conn
  | .publish id name => handlePublish app id name
  | .play id request => handlePlay app id request
  | .receiveAudio id receive => { app with registry := handleReceive app.registry id false receive }
  | .receiveVideo id receive => { app with registry := handleReceive app.registry id true receive }
  | .closeStream id => { app with registry := handleCloseStream app.registry id }
  | .deleteStream id => handleDeleteStream app id
  | .disconnect conn => { sessions := app.sessions.erase conn, registry := removeClient app.registry conn }

end MediaApplication
end Fms
