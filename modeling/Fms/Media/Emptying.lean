import Fms.Media.Consistency
import Fms.Media.Requests
import Mathlib

namespace Fms
open ByteWire

namespace MediaApplication

def run (requests : List MediaRequest) : MediaApplication := requests.foldl step {}

theorem run_sound (requests : List MediaRequest) : (run requests).Sound := by
  have reach : Transition.Reach step (fun _ _ => True) {} (run requests) :=
    Transition.Reach.start.foldl fun _ _ _ => trivial
  have initial : Sound {} := Observed.Sound.empty.app
  exact reach.invariant initial fun _ sound => sound.step _

end MediaApplication

namespace StreamRegistry
open MediaApplication

def Unlisted (r : StreamRegistry) (conn : Nat) : Prop := r.clients.lookup conn = none

section
variable {r next : StreamRegistry} {id sub b : StreamClientId} {name : Bytes} {conn : Nat}

theorem Unlisted.not_owns (unlisted : r.Unlisted conn) (ours : id.1 = conn) : ¬r.Owns id := by
  unfold Owns streamsOf
  rw [ours, unlisted]
  exact OrdSet.notMem_empty id.2

theorem Unlisted.addClientStream (unlisted : r.Unlisted conn)
    (apart : id.1 ≠ conn) : (r.addClientStream id).Unlisted conn := by
  show (r.clients.insert id.1 _).lookup conn = none
  rw [Dict.lookup_insert_if, if_neg (Ne.symm apart)]
  exact unlisted

theorem Unlisted.removeClientStream (unlisted : r.Unlisted conn) : (r.removeClientStream id).Unlisted conn := by
  unfold Unlisted StreamRegistry.removeClientStream
  dsimp only
  split
  · exact unlisted
  · rename_i found
    rw [Dict.lookup_insert_if, if_neg]
    · exact unlisted
    · rintro rfl
      cases unlisted.symm.trans found

theorem Unlisted.same (unlisted : r.Unlisted conn) (same : next.clients = r.clients) : next.Unlisted conn := by
  unfold Unlisted
  rw [same]
  exact unlisted

theorem Unlisted.addBroadcaster (unlisted : r.Unlisted conn) (apart : id.1 ≠ conn)
    (added : r.addBroadcaster id name = some next) : next.Unlisted conn := by
  obtain ⟨_, _, rfl⟩ := addBroadcaster_eq_some added
  exact Unlisted.addClientStream (unlisted.same rfl) apart

/-- Who waits is listed, so a promotion adds no connection to the lists. -/
theorem Unlisted.promote {waiting : List (StreamClientId × WaitingClient)} (unlisted : r.Unlisted conn)
    (apart : ∀ entry ∈ waiting, entry.1.1 ≠ conn) : (waiting.foldl (promote b) r).Unlisted conn := by
  induction waiting generalizing r with
  | nil => exact unlisted
  | cons entry rest ih =>
    refine ih ?_ fun later member => apart later (List.mem_cons_of_mem entry member)
    exact Unlisted.addClientStream (unlisted.same rfl) (apart entry (List.mem_cons_self ..))

theorem Unlisted.checkWaitingClients (unlisted : r.Unlisted conn) (wired : r.Wired) (owned : r.Owned) :
    (checkWaitingClients r name).Unlisted conn := by
  unfold MediaApplication.checkWaitingClients
  split
  · exact unlisted
  · refine Unlisted.promote (unlisted.same rfl) fun entry taken ours => ?_
    have plays := wired.waiting (mem_takeWaiting taken)
    rcases owned entry.1 with absent | owns
    · cases absent.2.symm.trans plays
    · exact unlisted.not_owns ours owns

theorem clients_handleReceive {isVideo receive : Bool} :
    (handleReceive r id isVideo receive).clients = r.clients := by
  unfold handleReceive
  split
  · rfl
  · rfl

theorem Unlisted.handleCloseStream (unlisted : r.Unlisted conn) : (handleCloseStream r id).Unlisted conn :=
  (unlisted.same (Shrinks.closeAndForget r id).clients).removeClientStream

theorem Unlisted.removeClient {other : Nat} (unlisted : r.Unlisted conn) : (removeClient r other).Unlisted conn := by
  rw [removeClient_eq]
  have taken : (r.takeClient other).2.Unlisted conn := by
    show (r.clients.erase other).lookup conn = none
    rw [Dict.lookup_erase_if, unlisted, ite_self]
  exact taken.same (Shrinks.closeAll _ other _).clients

theorem unlisted_removeClient : (removeClient r conn).Unlisted conn := by
  rw [removeClient_eq]
  have taken : (r.takeClient conn).2.Unlisted conn := AList.lookup_erase ..
  exact taken.same (Shrinks.closeAll _ conn _).clients

theorem Unlisted.servePlay {request : PlayRequest} (unlisted : r.Unlisted conn) (apart : id.1 ≠ conn) :
    (servePlay r id request name).Unlisted conn := by
  have forgotten : (forgetSubscription r id).Unlisted conn := unlisted.same clients_forgetSubscription
  have waits {channelId} : (addWaitingClient r id name channelId).Unlisted conn :=
    Unlisted.addClientStream (forgotten.same rfl) apart
  unfold MediaApplication.servePlay
  split
  · exact forgotten
  · exact forgotten
  · exact waits
  · exact Unlisted.addClientStream (waits.same rfl) apart

theorem mem_waitingClients_forgetSubscription :
    name ∈ (forgetSubscription r id).waitingClients ↔ name ∈ r.waitingClients := by
  unfold forgetSubscription
  dsimp only
  split
  · rfl
  · rename_i played _
    unfold eraseWaiting
    dsimp only
    split
    · rfl
    · rename_i found
      rw [AList.mem_insert]
      refine or_iff_right_of_imp ?_
      rintro rfl
      exact AList.lookup_isSome.mp (Option.isSome_of_eq_some found)

@[simp] theorem waitingClients_closeStream : (closeStream r id).waitingClients = r.waitingClients :=
  closeStream_rule (I := fun mid _ => mid.waitingClients = r.waitingClients)
    (J := fun last => last.waitingClients = r.waitingClients)
    (fun before _ => before) (fun before _ => before) (fun before _ => before) rfl

theorem mem_waitingClients_closeAndForget :
    name ∈ (closeAndForget r id).waitingClients ↔ name ∈ r.waitingClients := by
  unfold closeAndForget
  rw [mem_waitingClients_forgetSubscription, waitingClients_closeStream]

theorem mem_waitingClients_closeAll {streams : List Nat} :
    name ∈ (r.closeAll conn streams).waitingClients ↔ name ∈ r.waitingClients := by
  induction streams generalizing r with
  | nil => rfl
  | cons stream rest ih => exact ih.trans mem_waitingClients_closeAndForget

theorem mem_waitingClients_handleReceive {isVideo receive : Bool} :
    name ∈ (handleReceive r id isVideo receive).waitingClients ↔ name ∈ r.waitingClients := by
  unfold handleReceive
  split
  · rfl
  · show name ∈ r.waitingClients.filterMap _ ↔ _
    rw [← AList.lookup_isSome, ← AList.lookup_isSome, Dict.lookup_filterMap]
    cases r.waitingClients.lookup name with
    | none => rfl
    | some waiting => rfl

/-- A client that is served live waits for its name as well. -/
theorem mem_waitingClients_servePlay {request : PlayRequest} {played : Bytes} :
    name ∈ (servePlay r id request played).waitingClients ↔
      (name = played ∧ ∃ found, playOutcome r request played = .live found) ∨ name ∈ r.waitingClients := by
  have waits {channelId} : name ∈ (addWaitingClient r id played channelId).waitingClients ↔
      name = played ∨ name ∈ r.waitingClients := by
    show name ∈ (forgetSubscription r id).waitingClients.insert played _ ↔ _
    rw [AList.mem_insert, mem_waitingClients_forgetSubscription]
  unfold servePlay
  split
  · rename_i outcome
    simp [outcome, mem_waitingClients_forgetSubscription]
  · rename_i outcome
    simp [outcome, mem_waitingClients_forgetSubscription]
  · rename_i outcome
    rw [waits]
    simp [outcome]
  · rename_i outcome
    show name ∈ (addWaitingClient r id played request.channelId).waitingClients ↔ _
    rw [waits]
    simp [outcome]

theorem mem_waitingClients_checkWaitingClients {played : Bytes} {broadcaster : StreamClientId}
    (live : r.broadcasterForName played = some broadcaster) :
    name ∈ (checkWaitingClients r played).waitingClients ↔ name ≠ played ∧ name ∈ r.waitingClients := by
  unfold checkWaitingClients
  rw [live]
  dsimp only
  rw [waitingClients_promote]
  exact AList.mem_erase

end

section
variable {r : StreamRegistry}

/-- Where no connection is listed, nobody publishes or plays, and only names that nobody waits for
any more are left. -/
theorem Wired.nothing_left (wired : r.Wired) (owned : r.Owned) (nobody : ∀ conn, r.Unlisted conn) :
    { r with waitingClients := ∅ } = ({} : StreamRegistry) ∧ ∀ name, r.waitingOn name = ∅ := by
  have absent (id : StreamClientId) : r.Absent id := (owned id).resolve_right ((nobody id.1).not_owns rfl)
  have streams : r.streams = ∅ := Bimap.eq_empty fun id => (absent id).1
  have broadcasts : r.broadcasts = ∅ := by
    refine Dict.eq_empty fun id => Option.not_isSome_iff_eq_none.mp ?_
    rw [wired.published, (absent id).1]
    exact Bool.false_ne_true
  have streamClients : r.streamClients = ∅ := by
    refine Dict.eq_empty fun sub => Option.eq_none_iff_forall_ne_some.mpr fun b edge => ?_
    obtain ⟨name, _, plays⟩ := wired.named edge
    cases (absent sub).2.symm.trans plays
  have subscribers : r.subscribers = ∅ := by
    refine Dict.eq_empty fun sub => Option.not_isSome_iff_eq_none.mp ?_
    rw [wired.attached, streamClients]
    exact Bool.false_ne_true
  have subscribersToStream : r.subscribersToStream = ∅ := Dict.eq_empty fun sub => (absent sub).2
  have clients : r.clients = ∅ := Dict.eq_empty nobody
  constructor
  · rw [streams, broadcasts, streamClients, subscribers, subscribersToStream, clients]
  · intro name
    refine Dict.eq_empty fun sub => AList.lookup_eq_none.mpr fun waits => ?_
    cases (absent sub).2.symm.trans (wired.waiting waits)

end
end StreamRegistry

namespace MediaApplication
open StreamRegistry

section
variable {app : MediaApplication} {request : MediaRequest} {conn : Nat} {name : Bytes}

variable {id : StreamClientId}

theorem unlisted_addQosStream (unlisted : app.registry.Unlisted conn) (apart : id.1 ≠ conn) :
    (addQosStream app id name).registry.Unlisted conn := by
  generalize outcome : addQosStream app id name = next
  cases outcome ▸ qosRound app id name with
  | full => exact unlisted
  | taken reserved => exact unlisted.same (congrArg clients (reserveStream_eq_some reserved).1)
  | started reserved added =>
    have before := unlisted.same (congrArg clients (reserveStream_eq_some reserved).1)
    have others (stream : Nat) : ((id.1, stream) : StreamClientId).1 ≠ conn := apart
    exact (before.addBroadcaster (others _) added).same rfl

theorem unlisted_publish {name : Option Bytes} (sound : app.Sound)
    (unlisted : app.registry.Unlisted conn) (apart : id.1 ≠ conn) :
    (handlePublish app id name).registry.Unlisted conn := by
  generalize published : handlePublish app id name = next
  cases published ▸ publishRound app id name with
  | refused => exact unlisted
  | taken claims => exact unlisted.same (congrArg clients (claimStream_eq_some claims).1)
  | @started name claimed r last claims added qos =>
    obtain ⟨same, _, grows⟩ := claimStream_eq_some claims
    have before : claimed.registry.Unlisted conn := unlisted.same (congrArg clients same)
    have lasting : last.Sound := by
      rw [qos]
      exact ((sound.grow same grows).addBroadcaster added).addQosStream
    refine Unlisted.checkWaitingClients ?_ lasting.wired lasting.owned
    rw [qos]
    exact unlisted_addQosStream (before.addBroadcaster apart added) apart

/-- Requests of others do not list a connection. -/
theorem unlisted_step (sound : app.Sound) (unlisted : app.registry.Unlisted conn)
    (apart : request.connection ≠ conn) :
    (app.step request).registry.Unlisted conn := by
  cases request with
  | connect other =>
    show (if other ∈ app.sessions then app
      else { app with sessions := app.sessions.insert other ∅ }).registry.Unlisted conn
    split
    · exact unlisted
    · exact unlisted
  | createStream other =>
    show (handleCreateStream app other).registry.Unlisted conn
    unfold handleCreateStream
    split
    · exact unlisted
    · rename_i reserved
      rw [← (reserveStream_eq_some reserved).1] at unlisted
      exact unlisted.addClientStream apart
  | publish id name => exact unlisted_publish sound unlisted apart
  | play id request =>
    show (handlePlay app id request).registry.Unlisted conn
    unfold handlePlay
    split
    · rename_i claimed
      rw [← (claimStream_eq_some claimed).1] at unlisted
      exact unlisted.servePlay apart
    · exact unlisted
  | receiveAudio id receive => exact unlisted.same clients_handleReceive
  | receiveVideo id receive => exact unlisted.same clients_handleReceive
  | closeStream id => exact unlisted.handleCloseStream
  | deleteStream id =>
    show (handleDeleteStream app id).registry.Unlisted conn
    unfold handleDeleteStream
    split
    · exact unlisted
    · dsimp only
      split
      · exact unlisted.handleCloseStream
      · exact unlisted.handleCloseStream
  | disconnect other => exact unlisted.removeClient

/-- The name that a request makes its stream wait for. -/
def awaited (app : MediaApplication) : MediaRequest → Option Bytes
  | .play id request => (app.served id request).join
  | _ => none

def registered (app : MediaApplication) : MediaRequest → Option Bytes
  | .publish id (some name) =>
    (app.claimStream id).bind fun claimed => (claimed.registry.addBroadcaster id name).map fun _ => name
  | _ => none

theorem mem_waitingClients_handlePublish {published : Option Bytes} :
    name ∈ (handlePublish app id published).registry.waitingClients ↔
      name ∈ app.registry.waitingClients ∧ app.registered (.publish id published) ≠ some name := by
  generalize outcome : handlePublish app id published = next
  cases outcome ▸ publishRound app id published with
  | refused turnedAway =>
    rw [iff_self_and]
    rintro -
    rcases turnedAway with rfl | refused
    · exact nofun
    · cases published with
      | none => exact nofun
      | some played => simp [registered, refused]
  | taken claims taken =>
    rw [(claimStream_eq_some claims).1, iff_self_and]
    rintro -
    simp [registered, claims, taken]
  | @started played claimed r last claims added qos =>
    have live : last.registry.broadcasterForName played = some id := by
      rw [broadcasterForName_eq_some, qos]
      refine lookup_streams_addQosStream ?_
      rw [lookup_streams_addBroadcaster added, if_pos rfl]
    have same : last.registry.waitingClients = app.registry.waitingClients := by
      rw [qos, waitingClients_addQosStream, ← (claimStream_eq_some claims).1]
      obtain ⟨_, _, rfl⟩ := addBroadcaster_eq_some added
      rfl
    show name ∈ (checkWaitingClients last.registry played).waitingClients ↔ _
    rw [mem_waitingClients_checkWaitingClients live, same, and_comm]
    simp [registered, claims, added, eq_comm]

theorem mem_waitingClients_handlePlay {request : PlayRequest} :
    name ∈ (handlePlay app id request).registry.waitingClients ↔
      app.awaited (.play id request) = some name ∨ name ∈ app.registry.waitingClients := by
  show _ ↔ (app.served id request).join = some name ∨ _
  unfold handlePlay served
  cases request.name with
  | none => simp
  | some played =>
    cases claims : app.claimStream id with
    | none => simp
    | some claimed =>
      dsimp only
      rw [mem_waitingClients_servePlay, (claimStream_eq_some claims).1]
      cases playOutcome app.registry request played with
      | vod => simp
      | notFound => simp
      | live found => simp [eq_comm]

theorem mem_waitingClients_quiet (nobody : app.awaited request = none) (nothing : app.registered request = none)
    (same : name ∈ (app.step request).registry.waitingClients ↔ name ∈ app.registry.waitingClients) :
    name ∈ (app.step request).registry.waitingClients ↔
      app.awaited request = some name ∨ name ∈ app.registry.waitingClients ∧ ¬app.registered request = some name := by
  rw [same, nobody, nothing]
  simp

/-- A name is waited for from a `play` of it to the next `publish` of it. -/
theorem mem_waitingClients_step (app : MediaApplication) (request : MediaRequest) :
    name ∈ (app.step request).registry.waitingClients ↔
      app.awaited request = some name ∨ name ∈ app.registry.waitingClients ∧ ¬app.registered request = some name := by
  cases request with
  | connect conn =>
    refine mem_waitingClients_quiet rfl rfl ?_
    unfold step
    dsimp only
    split
    · rfl
    · rfl
  | createStream conn =>
    refine mem_waitingClients_quiet rfl rfl ?_
    show name ∈ (handleCreateStream app conn).registry.waitingClients ↔ _
    unfold handleCreateStream
    split
    · rfl
    · rename_i reserved
      rw [← (reserveStream_eq_some reserved).1]
      rfl
  | publish id published =>
    refine mem_waitingClients_handlePublish.trans ?_
    rw [show app.awaited (.publish id published) = none from rfl]
    simp
  | play id request =>
    refine mem_waitingClients_handlePlay.trans ?_
    rw [show app.registered (.play id request) = none from rfl]
    simp
  | receiveAudio id receive => exact mem_waitingClients_quiet rfl rfl mem_waitingClients_handleReceive
  | receiveVideo id receive => exact mem_waitingClients_quiet rfl rfl mem_waitingClients_handleReceive
  | closeStream id => exact mem_waitingClients_quiet rfl rfl mem_waitingClients_closeAndForget
  | deleteStream id =>
    refine mem_waitingClients_quiet rfl rfl ?_
    show name ∈ (handleDeleteStream app id).registry.waitingClients ↔ _
    unfold handleDeleteStream
    split
    · rfl
    · dsimp only
      split
      · exact mem_waitingClients_closeAndForget
      · exact mem_waitingClients_closeAndForget
  | disconnect conn => exact mem_waitingClients_quiet rfl rfl mem_waitingClients_closeAll

end

/-- Every connection that appears has disconnected and sends nothing after that. -/
def Gone (requests : List MediaRequest) : Prop :=
  ∀ request ∈ requests, ∃ before after, requests = before ++ .disconnect request.connection :: after ∧
    ∀ later ∈ after, later.connection ≠ request.connection

/-- Every name that a client was made to wait for is published later. -/
def Answered (requests : List MediaRequest) : Prop :=
  ∀ before request after name, requests = before ++ request :: after → (run before).awaited request = some name →
    ∃ mid publish rest, after = mid ++ publish :: rest ∧
      (run (before ++ request :: mid)).registered publish = some name

theorem unlisted_run {conn : Nat} {before after : List MediaRequest}
    (unlisted : (run before).registry.Unlisted conn) (others : ∀ later ∈ after, later.connection ≠ conn) :
    (run (before ++ after)).registry.Unlisted conn := by
  induction after generalizing before with
  | nil =>
    rw [List.append_nil]
    exact unlisted
  | cons request rest ih =>
    rw [List.append_cons]
    refine ih ?_ fun later member => others later (List.mem_cons_of_mem request member)
    have next := unlisted_step (run_sound before) unlisted (others request (List.mem_cons_self ..))
    unfold run
    rw [List.foldl_append]
    exact next

theorem Gone.unlisted {requests : List MediaRequest} (gone : Gone requests) (conn : Nat) :
    (run requests).registry.Unlisted conn := by
  by_cases appears : ∃ request ∈ requests, request.connection = conn
  · obtain ⟨request, member, rfl⟩ := appears
    obtain ⟨before, after, rfl, others⟩ := gone request member
    rw [List.append_cons]
    refine unlisted_run ?_ others
    unfold run
    rw [List.foldl_append]
    exact unlisted_removeClient
  · have initially : (run []).registry.Unlisted conn := rfl
    exact unlisted_run initially fun later member ours => appears ⟨later, member, ours⟩

theorem waited_iff (requests : List MediaRequest) (name : Bytes) :
    name ∈ (run requests).registry.waitingClients ↔ ∃ before request after, requests = before ++ request :: after ∧
      (run before).awaited request = some name ∧ ∀ mid publish rest, after = mid ++ publish :: rest →
        ¬(run (before ++ request :: mid)).registered publish = some name := by
  have initially : name ∉ ({} : MediaApplication).registry.waitingClients := AList.notMem_empty name
  exact @Transition.marked_iff _ _ step {} (fun app => name ∈ app.registry.waitingClients)
    (fun app request => app.awaited request = some name) (fun app request => app.registered request = some name)
    initially mem_waitingClients_step requests

/-- Once every connection that appeared has gone, only names are left in the registry, with nobody
waiting for them; and no name either exactly if each name that was waited for was published later. -/
theorem registry_left_by_the_gone (requests : List MediaRequest) (gone : Gone requests) :
    { (run requests).registry with waitingClients := ∅ } = ({} : StreamRegistry) ∧
      (∀ name, (run requests).registry.waitingOn name = ∅) ∧
      ((run requests).registry = {} ↔ Answered requests) := by
  have sound := run_sound requests
  obtain ⟨nothing, nobody⟩ := sound.wired.nothing_left sound.owned gone.unlisted
  refine ⟨nothing, nobody, ?_⟩
  constructor
  · intro empty before request after name split awaits
    by_contra unanswered
    refine AList.notMem_empty name (empty ▸ (waited_iff requests name).mpr
      ⟨before, request, after, split, awaits, ?_⟩)
    exact fun mid publish rest behind publishes => unanswered ⟨mid, publish, rest, behind, publishes⟩
  · intro answered
    have none : (run requests).registry.waitingClients = ∅ := by
      refine Dict.eq_empty fun name => AList.lookup_eq_none.mpr fun waited => ?_
      obtain ⟨before, request, after, split, awaits, unanswered⟩ := (waited_iff requests name).mp waited
      obtain ⟨mid, publish, rest, behind, publishes⟩ := answered before request after name split awaits
      exact unanswered mid publish rest behind publishes
    rw [← nothing, ← none]

/-- A client plays a name that another publishes then, and both leave. -/
def visit : List MediaRequest :=
  [.connect 1, .play (1, 1) { name := some [0x61] }, .connect 2, .publish (2, 1) (some [0x61]), .disconnect 1,
    .disconnect 2]

theorem registry_left_by_visit : Gone visit ∧ Answered visit := by
  have gone : Gone visit := by
    intro request member
    simp only [visit, List.mem_cons, List.not_mem_nil, or_false] at member
    have first : visit = visit.take 4 ++ .disconnect 1 :: [.disconnect 2] := rfl
    have second : visit = visit.take 5 ++ .disconnect 2 :: [] := rfl
    rcases member with rfl | rfl | rfl | rfl | rfl | rfl
    · exact ⟨_, _, first, by decide⟩
    · exact ⟨_, _, first, by decide⟩
    · exact ⟨_, _, second, nofun⟩
    · exact ⟨_, _, second, nofun⟩
    · exact ⟨_, _, first, by decide⟩
    · exact ⟨_, _, second, nofun⟩
  exact ⟨gone, (registry_left_by_the_gone visit gone).2.2.mp rfl⟩

/-- A client that plays a name which nobody publishes leaves the name behind. -/
theorem name_left_behind : Gone [.connect 1, .play (1, 1) { name := some [0x61] }, .disconnect 1] ∧
    [0x61] ∈ (run [.connect 1, .play (1, 1) { name := some [0x61] }, .disconnect 1]).registry.waitingClients := by
  refine ⟨fun request member => ⟨[.connect 1, .play (1, 1) { name := some [0x61] }], [], ?_, nofun⟩, by decide⟩
  simp only [List.mem_cons, List.not_mem_nil, or_false] at member
  rcases member with rfl | rfl | rfl <;> rfl

end MediaApplication
end Fms
