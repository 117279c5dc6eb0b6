import Fms.Media.Application

namespace Fms
open ByteWire
namespace StreamRegistry
open MediaApplication

variable {channelId conn : Nat} {streams : List Nat}

/-- How the maps of the registry hang together: a broadcaster is in both of its maps and a
subscriber in both of its own, an edge leads from a broadcaster to a client that plays its stream,
and who waits for a name plays it. -/
structure Wired (r : StreamRegistry) : Prop where
  published : ∀ id, (r.broadcasts.lookup id).isSome = (r.streams.lookup id).isSome
  attached : ∀ sub, (r.subscribers.lookup sub).isSome = (r.streamClients.lookup sub).isSome
  named : ∀ {sub b}, r.streamClients.lookup sub = some b →
    ∃ name, r.streams.lookup b = some name ∧ r.subscribersToStream.lookup sub = some name
  waiting : ∀ {name sub}, sub ∈ r.waitingOn name → r.subscribersToStream.lookup sub = some name

/-- The stream neither publishes nor plays. -/
def Absent (r : StreamRegistry) (id : StreamClientId) : Prop :=
  r.streams.lookup id = none ∧ r.subscribersToStream.lookup id = none

/-- Every stream that publishes or plays is listed under its connection. -/
def Owned (r : StreamRegistry) : Prop := ∀ id, r.Absent id ∨ r.Owns id

/-- Nothing new publishes or plays, and the lists of the connections are as they were. -/
structure Shrinks (r next : StreamRegistry) : Prop where
  streams : ∀ {id name}, next.streams.lookup id = some name → r.streams.lookup id = some name
  plays : ∀ {sub name}, next.subscribersToStream.lookup sub = some name → r.subscribersToStream.lookup sub = some name
  clients : next.clients = r.clients

section
variable {r next : StreamRegistry} {id sub b target : StreamClientId} {name : Bytes}

/-- Its edges go with a broadcaster. -/
theorem Wired.withoutBroadcaster (wired : r.Wired) : (r.withoutBroadcaster id).Wired where
  published other := by
    rw [lookup_broadcasts_withoutBroadcaster, lookup_streams_withoutBroadcaster]
    split
    · rfl
    · exact wired.published other
  attached other := by
    rw [lookup_subscribers_withoutBroadcaster, lookup_streamClients_withoutBroadcaster]
    split
    · rfl
    · exact wired.attached other
  named := by
    intro sub b edge
    rw [lookup_streamClients_withoutBroadcaster] at edge
    split at edge
    · cases edge
    · rename_i apart
      obtain ⟨name, live, plays⟩ := wired.named edge
      refine ⟨name, ?_, plays⟩
      rw [lookup_streams_withoutBroadcaster, if_neg]
      · exact live
      · rintro rfl
        exact apart edge
  waiting := wired.waiting

theorem Wired.detachSubscriber (wired : r.Wired) : (r.detachSubscriber id).Wired where
  published := wired.published
  attached other := by
    show ((r.subscribers.erase id).lookup other).isSome = ((r.streamClients.erase id).lookup other).isSome
    rw [Dict.lookup_erase_if, Dict.lookup_erase_if]
    split
    · rfl
    · exact wired.attached other
  named := by
    intro sub b edge
    change (r.streamClients.erase id).lookup sub = some b at edge
    rw [Dict.lookup_erase_if] at edge
    split at edge
    · cases edge
    · exact wired.named edge
  waiting := wired.waiting

theorem Wired.closeStream (wired : r.Wired) : (closeStream r id).Wired :=
  closeStream_rule (I := fun r _ => r.Wired) (fun wired _ => wired.withoutBroadcaster)
    (fun wired _ => wired.withoutBroadcaster) (fun wired _ => wired.detachSubscriber) wired

/-- The maps that `forget_subscription` does more to than letting go of the live stream. -/
theorem forgetSubscription_eq (r : StreamRegistry) (id : StreamClientId) :
    ∃ waitingClients subscribersToStream,
      forgetSubscription r id = { r.detachSubscriber id with waitingClients, subscribersToStream } := by
  unfold forgetSubscription
  dsimp only
  split
  · exact ⟨_, _, rfl⟩
  · exact ⟨_, _, rfl⟩

@[simp] theorem streams_forgetSubscription : (forgetSubscription r id).streams = r.streams := by
  obtain ⟨_, _, same⟩ := forgetSubscription_eq r id
  rw [same]
  rfl

@[simp] theorem broadcasts_forgetSubscription : (forgetSubscription r id).broadcasts = r.broadcasts := by
  obtain ⟨_, _, same⟩ := forgetSubscription_eq r id
  rw [same]
  rfl

@[simp] theorem clients_forgetSubscription : (forgetSubscription r id).clients = r.clients := by
  obtain ⟨_, _, same⟩ := forgetSubscription_eq r id
  rw [same]
  rfl

theorem lookup_streamClients_forgetSubscription : (forgetSubscription r id).streamClients.lookup sub =
    if sub = id then none else r.streamClients.lookup sub := by
  obtain ⟨_, _, same⟩ := forgetSubscription_eq r id
  rw [same]
  exact Dict.lookup_erase_if

theorem lookup_subscribers_forgetSubscription : (forgetSubscription r id).subscribers.lookup sub =
    if sub = id then none else r.subscribers.lookup sub := by
  obtain ⟨_, _, same⟩ := forgetSubscription_eq r id
  rw [same]
  exact Dict.lookup_erase_if

theorem lookup_subscribersToStream_forgetSubscription : (forgetSubscription r id).subscribersToStream.lookup sub =
    if sub = id then none else r.subscribersToStream.lookup sub := by
  unfold forgetSubscription
  dsimp only
  split
  · rename_i nothing
    split
    · rename_i same
      rw [same]
      exact nothing
    · rfl
  · exact Dict.lookup_erase_if

theorem mem_waitingOn_forgetSubscription : sub ∈ (forgetSubscription r id).waitingOn name ↔
    ¬(r.subscribersToStream.lookup id = some name ∧ sub = id) ∧ sub ∈ r.waitingOn name := by
  unfold forgetSubscription
  dsimp only
  split
  · rename_i nothing
    have nothing : r.subscribersToStream.lookup id = none := nothing
    rw [nothing]
    simp [waitingOn, StreamRegistry.detachSubscriber]
  · rename_i played plays
    have plays : r.subscribersToStream.lookup id = some played := plays
    rw [plays, Option.some.injEq, eq_comm (a := played)]
    exact mem_waitingOn_eraseWaiting

theorem Wired.forgetSubscription (wired : r.Wired) : (forgetSubscription r id).Wired where
  published other := by
    rw [broadcasts_forgetSubscription, streams_forgetSubscription]
    exact wired.published other
  attached other := by
    rw [lookup_subscribers_forgetSubscription, lookup_streamClients_forgetSubscription]
    split
    · rfl
    · exact wired.attached other
  named := by
    intro sub b edge
    rw [lookup_streamClients_forgetSubscription] at edge
    rw [streams_forgetSubscription, lookup_subscribersToStream_forgetSubscription]
    split at edge
    · cases edge
    · rename_i apart
      rw [if_neg apart]
      exact wired.named edge
  waiting := by
    intro name sub waits
    obtain ⟨kept, waited⟩ := mem_waitingOn_forgetSubscription.mp waits
    have plays := wired.waiting waited
    rw [lookup_subscribersToStream_forgetSubscription, if_neg]
    · exact plays
    · rintro rfl
      exact kept ⟨plays, rfl⟩

theorem Wired.withClients (wired : r.Wired) {clients : Dict Nat (OrdSet Nat)} : Wired { r with clients } :=
  ⟨wired.published, wired.attached, wired.named, wired.waiting⟩

/-- A new broadcaster has no edges yet, and takes the place of no other. -/
theorem Wired.addBroadcaster (wired : r.Wired) (added : r.addBroadcaster id name = some next) : next.Wired where
  published other := by
    rw [lookup_broadcasts_addBroadcaster added, lookup_streams_addBroadcaster added]
    have both := wired.published other
    by_cases same : other = id
    · subst same
      cases found : r.broadcasts.lookup other <;> simp
    · simp [same, both]
  attached := by
    obtain ⟨_, _, rfl⟩ := addBroadcaster_eq_some added
    exact wired.attached
  named := by
    intro sub b edge
    have new := (addBroadcaster_eq_some added).1
    have same : next.streamClients = r.streamClients ∧ next.subscribersToStream = r.subscribersToStream := by
      obtain ⟨_, _, rfl⟩ := addBroadcaster_eq_some added
      exact ⟨rfl, rfl⟩
    rw [same.1] at edge
    obtain ⟨played, live, plays⟩ := wired.named edge
    refine ⟨played, ?_, same.2 ▸ plays⟩
    rw [lookup_streams_addBroadcaster added, if_neg]
    · exact live
    · rintro rfl
      cases new.symm.trans live
  waiting := by
    obtain ⟨_, _, rfl⟩ := addBroadcaster_eq_some added
    exact wired.waiting

theorem Wired.setQosTarget (wired : r.Wired) : (r.setQosTarget id target).Wired where
  published other := isSome_broadcasts_setQosTarget.trans (wired.published other)
  attached := wired.attached
  named := wired.named
  waiting := wired.waiting

/-- An edge may be drawn to a client that plays the name of the broadcaster. -/
theorem Wired.addSubscriber {client : StreamClient} (wired : r.Wired) (live : r.streams.lookup b = some name)
    (plays : r.subscribersToStream.lookup sub = some name) : (r.addSubscriber b sub client).Wired where
  published := wired.published
  attached other := by
    rw [lookup_streamClients_addSubscriber]
    show ((r.subscribers.insert sub client).lookup other).isSome = _
    rw [Dict.lookup_insert_if]
    split
    · rfl
    · exact wired.attached other
  named := by
    intro other from_ edge
    rw [lookup_streamClients_addSubscriber] at edge
    split at edge
    · rename_i same
      cases edge
      exact ⟨name, live, same ▸ plays⟩
    · exact wired.named edge
  waiting := wired.waiting

/-- Whoever is taken off the waiting list goes on playing the name. -/
theorem Wired.takeWaiting (wired : r.Wired) : (r.takeWaiting name).2.Wired where
  published := wired.published
  attached := wired.attached
  named := wired.named
  waiting := fun waits => wired.waiting (mem_waitingOn_takeWaiting.mp waits).2

theorem Wired.promote {waiting : List (StreamClientId × WaitingClient)} (wired : r.Wired)
    (live : r.streams.lookup b = some name)
    (play : ∀ entry ∈ waiting, r.subscribersToStream.lookup entry.1 = some name) :
    (waiting.foldl (promote b) r).Wired := by
  induction waiting generalizing r with
  | nil => exact wired
  | cons entry rest ih =>
    obtain ⟨first, others⟩ := List.forall_mem_cons.mp play
    exact ih (wired.addSubscriber live first) live others

/-- All that are promoted have waited for the name. -/
theorem Wired.checkWaitingClients (wired : r.Wired) : (checkWaitingClients r name).Wired := by
  unfold MediaApplication.checkWaitingClients
  split
  · exact wired
  · rename_i b found
    refine wired.takeWaiting.promote (broadcasterForName_eq_some.mp found) fun entry taken => ?_
    exact wired.waiting (mem_takeWaiting taken)

theorem lookup_subscribersToStream_addWaitingClient :
    (addWaitingClient r id name channelId).subscribersToStream.lookup sub =
      if sub = id then some name else r.subscribersToStream.lookup sub := by
  show ((forgetSubscription r id).subscribersToStream.insert id name).lookup sub = _
  rw [Dict.lookup_insert_if, lookup_subscribersToStream_forgetSubscription]
  split
  · rfl
  · rfl

/-- What the client played before is forgotten, so that it waits for one name only. -/
theorem Wired.addWaitingClient (wired : r.Wired) : (addWaitingClient r id name channelId).Wired := by
  have forgotten : (MediaApplication.forgetSubscription r id).Wired := wired.forgetSubscription
  have nothing : (MediaApplication.forgetSubscription r id).subscribersToStream.lookup id = none := by
    rw [lookup_subscribersToStream_forgetSubscription, if_pos rfl]
  have others {sub played} (plays :
    (MediaApplication.forgetSubscription r id).subscribersToStream.lookup sub = some played) :
      (MediaApplication.addWaitingClient r id name channelId).subscribersToStream.lookup sub = some played := by
    show ((MediaApplication.forgetSubscription r id).subscribersToStream.insert id name).lookup sub = _
    rw [Dict.lookup_insert_if, if_neg]
    · exact plays
    · rintro rfl
      cases nothing.symm.trans plays
  refine ⟨forgotten.published, forgotten.attached, ?_, ?_⟩
  · intro sub b edge
    obtain ⟨played, live, plays⟩ := forgotten.named edge
    exact ⟨played, live, others plays⟩
  · intro waited sub waits
    rcases mem_waitingOn_addWaiting.mp waits with ⟨rfl, rfl⟩ | before
    · exact AList.lookup_insert _
    · exact others (forgotten.waiting before)

theorem Wired.handleReceive {isVideo receive : Bool}
    (wired : r.Wired) : (handleReceive r id isVideo receive).Wired := by
  unfold MediaApplication.handleReceive
  split
  · rename_i client found
    refine ⟨wired.published, fun other => ?_, wired.named, wired.waiting⟩
    dsimp only
    rw [Dict.lookup_insert_if]
    split
    · rename_i same
      rw [same, ← wired.attached, found]
      rfl
    · exact wired.attached other
  · exact ⟨wired.published, wired.attached, wired.named, fun waits =>
      wired.waiting (mem_waitingOn_updateWaiting.mp waits)⟩

/-- The broadcaster that a client is handed to publishes the name it asked for. -/
theorem Wired.servePlay {request : PlayRequest} (wired : r.Wired) : (servePlay r id request name).Wired := by
  unfold MediaApplication.servePlay
  split
  · exact wired.forgetSubscription
  · exact wired.forgetSubscription
  · exact wired.addWaitingClient
  · rename_i b outcome
    have live : r.streams.lookup b = some name := broadcasterForName_eq_some.mp (playOutcome_live outcome)
    have kept : (MediaApplication.forgetSubscription r id).streams.lookup b = some name := by
      rw [streams_forgetSubscription]
      exact live
    refine wired.addWaitingClient.addSubscriber kept ?_
    rw [lookup_subscribersToStream_addWaitingClient, if_pos rfl]

theorem Shrinks.refl (r : StreamRegistry) : Shrinks r r := ⟨fun live => live, fun plays => plays, rfl⟩

theorem Shrinks.trans {mid : StreamRegistry} (first : Shrinks r mid) (second : Shrinks mid next) : Shrinks r next :=
  ⟨fun live => first.streams (second.streams live), fun plays => first.plays (second.plays plays),
    second.clients.trans first.clients⟩

/-- What was in no use is in none afterwards. -/
theorem Shrinks.absent (shrinks : Shrinks r next) (absent : r.Absent id) : next.Absent id := by
  constructor
  · refine Option.eq_none_iff_forall_ne_some.mpr fun name live => ?_
    cases absent.1.symm.trans (shrinks.streams live)
  · refine Option.eq_none_iff_forall_ne_some.mpr fun name plays => ?_
    cases absent.2.symm.trans (shrinks.plays plays)

theorem Shrinks.owns (shrinks : Shrinks r next) : next.Owns id ↔ r.Owns id := by
  unfold Owns streamsOf
  rw [shrinks.clients]

theorem Shrinks.owned (shrinks : Shrinks r next) (owned : r.Owned) : next.Owned :=
  fun id => (owned id).imp shrinks.absent shrinks.owns.mpr

theorem Shrinks.withoutBroadcaster (r : StreamRegistry)
    (id : StreamClientId) : Shrinks r (r.withoutBroadcaster id) where
  streams := by
    intro other name live
    rw [lookup_streams_withoutBroadcaster] at live
    split at live
    · cases live
    · exact live
  plays := fun plays => plays
  clients := rfl

theorem Shrinks.closeStream (r : StreamRegistry) (id : StreamClientId) : Shrinks r (closeStream r id) :=
  closeStream_rule (I := fun mid _ => Shrinks r mid) (fun before _ => before.trans (.withoutBroadcaster _ _))
    (fun before _ => before.trans (.withoutBroadcaster _ _))
    (fun before _ => ⟨before.streams, before.plays, before.clients⟩) (.refl r)

@[simp] theorem subscribersToStream_closeStream : (closeStream r id).subscribersToStream = r.subscribersToStream :=
  closeStream_rule (I := fun mid _ => mid.subscribersToStream = r.subscribersToStream)
    (J := fun last => last.subscribersToStream = r.subscribersToStream)
    (fun before _ => before) (fun before _ => before) (fun before _ => before) rfl

/-- A stream that is closed does not publish any more, whatever its statistics lead to. -/
theorem lookup_streams_closeStream_self : (closeStream r id).streams.lookup id = none := by
  have gone : (r.withoutBroadcaster id).streams.lookup id = none := by
    rw [lookup_streams_withoutBroadcaster, if_pos rfl]
  rw [closeStream_eq]
  split
  · split
    · exact gone
    · rename_i target _
      refine Option.eq_none_iff_forall_ne_some.mpr fun name live => ?_
      cases gone.symm.trans ((Shrinks.closeStream _ target).streams live)
  · rename_i absent
    exact Option.not_isSome_iff_eq_none.mp absent

theorem Wired.closeAndForget (wired : r.Wired) : (closeAndForget r id).Wired := wired.closeStream.forgetSubscription

theorem lookup_subscribersToStream_closeAndForget : (closeAndForget r id).subscribersToStream.lookup sub =
    if sub = id then none else r.subscribersToStream.lookup sub := by
  unfold closeAndForget
  rw [lookup_subscribersToStream_forgetSubscription, subscribersToStream_closeStream]

theorem Shrinks.closeAndForget (r : StreamRegistry) (id : StreamClientId) : Shrinks r (closeAndForget r id) where
  streams := by
    intro other name live
    unfold MediaApplication.closeAndForget at live
    rw [streams_forgetSubscription] at live
    exact (Shrinks.closeStream r id).streams live
  plays := by
    intro sub name plays
    rw [lookup_subscribersToStream_closeAndForget] at plays
    split at plays
    · cases plays
    · exact plays
  clients := by
    unfold MediaApplication.closeAndForget
    rw [clients_forgetSubscription]
    exact (Shrinks.closeStream r id).clients

theorem absent_closeAndForget : (closeAndForget r id).Absent id := by
  constructor
  · unfold closeAndForget
    rw [streams_forgetSubscription]
    exact lookup_streams_closeStream_self
  · rw [lookup_subscribersToStream_closeAndForget, if_pos rfl]

/-- The streams of one connection closed one after the other. -/
def closeAll (r : StreamRegistry) (conn : Nat) (streams : List Nat) : StreamRegistry :=
  streams.foldl (fun r stream => closeAndForget r (conn, stream)) r

theorem Wired.closeAll (wired : r.Wired) : (r.closeAll conn streams).Wired := by
  induction streams generalizing r with
  | nil => exact wired
  | cons stream rest ih => exact ih wired.closeAndForget

theorem Shrinks.closeAll (r : StreamRegistry) (conn : Nat)
    (streams : List Nat) : Shrinks r (r.closeAll conn streams) := by
  induction streams generalizing r with
  | nil => exact .refl r
  | cons stream rest ih => exact (Shrinks.closeAndForget r _).trans (ih _)

/-- A stream that has been closed stays so while the others are. -/
theorem absent_closeAll {stream : Nat} (member : stream ∈ streams) :
    (r.closeAll conn streams).Absent (conn, stream) := by
  induction streams generalizing r with
  | nil => cases member
  | cons first rest ih =>
    rcases List.mem_cons.mp member with rfl | later
    · exact (Shrinks.closeAll _ conn rest).absent absent_closeAndForget
    · exact ih later

/-- The streams of other connections go on playing. -/
theorem lookup_subscribersToStream_closeAll (apart : sub.1 ≠ conn) :
    (r.closeAll conn streams).subscribersToStream.lookup sub = r.subscribersToStream.lookup sub := by
  induction streams generalizing r with
  | nil => rfl
  | cons stream rest ih =>
    refine ih.trans ?_
    rw [lookup_subscribersToStream_closeAndForget, if_neg]
    rintro rfl
    exact apart rfl

theorem removeClient_eq :
    removeClient r conn = (r.takeClient conn).2.closeAll conn (r.streamsOf conn).elems := rfl

/-- A disconnect closes every stream of the connection, since all of them were listed. -/
theorem absent_removeClient (owned : r.Owned) (ours : id.1 = conn) : (removeClient r conn).Absent id := by
  rw [removeClient_eq]
  rcases owned id with absent | owns
  · have before : (r.takeClient conn).2.Absent id := absent
    exact (Shrinks.closeAll _ conn _).absent before
  · subst ours
    exact absent_closeAll owns

/-- A step that adds one stream to the list of its connection, and puts no other to use. -/
theorem Owned.grow (owned : r.Owned) (id : StreamClientId) (others : ∀ {x}, x ≠ id → r.Absent x → next.Absent x)
    (lists : ∀ {x}, next.Owns x ↔ x = id ∨ r.Owns x) : next.Owned := by
  intro x
  by_cases same : x = id
  · exact .inr (lists.mpr (.inl same))
  · exact (owned x).imp (others same) fun owns => lists.mpr (.inr owns)

theorem Owned.addClientStream (owned : r.Owned) : (r.addClientStream id).Owned :=
  owned.grow _ (fun _ absent => absent) owns_addClientStream

theorem Owned.addBroadcaster (owned : r.Owned) (added : r.addBroadcaster id name = some next) : next.Owned := by
  have streams {x} (apart : x ≠ id) : next.streams.lookup x = r.streams.lookup x := by
    rw [lookup_streams_addBroadcaster added, if_neg apart]
  obtain ⟨_, _, rfl⟩ := addBroadcaster_eq_some added
  exact owned.grow _ (fun apart absent => ⟨(streams apart).trans absent.1, absent.2⟩) owns_addClientStream

theorem Owned.addSubscriber {client : StreamClient} (owned : r.Owned) : (r.addSubscriber b sub client).Owned :=
  owned.grow _ (fun _ absent => absent) owns_addClientStream

theorem Owned.promote {waiting : List (StreamClientId × WaitingClient)} (owned : r.Owned) :
    (waiting.foldl (promote b) r).Owned := by
  induction waiting generalizing r with
  | nil => exact owned
  | cons entry rest ih => exact ih owned.addSubscriber

theorem Owned.checkWaitingClients (owned : r.Owned) : (checkWaitingClients r name).Owned := by
  unfold MediaApplication.checkWaitingClients
  split
  · exact owned
  · have taken : (r.takeWaiting name).2.Owned := owned
    exact taken.promote

theorem Shrinks.forgetSubscription (r : StreamRegistry)
    (id : StreamClientId) : Shrinks r (forgetSubscription r id) where
  streams := by
    intro other name live
    rw [streams_forgetSubscription] at live
    exact live
  plays := by
    intro sub name plays
    rw [lookup_subscribersToStream_forgetSubscription] at plays
    split at plays
    · cases plays
    · exact plays
  clients := clients_forgetSubscription

/-- A client that starts to play is listed at once. -/
theorem Owned.addWaitingClient (owned : r.Owned) : (addWaitingClient r id name channelId).Owned := by
  have forgotten := (Shrinks.forgetSubscription r id).owned owned
  refine forgotten.grow id (fun apart absent => ⟨absent.1, ?_⟩) owns_addClientStream
  show ((MediaApplication.forgetSubscription r id).subscribersToStream.insert id name).lookup _ = none
  rw [Dict.lookup_insert_if, if_neg apart]
  exact absent.2

theorem Owned.servePlay {request : PlayRequest} (owned : r.Owned) : (servePlay r id request name).Owned := by
  unfold MediaApplication.servePlay
  split
  · exact (Shrinks.forgetSubscription r id).owned owned
  · exact (Shrinks.forgetSubscription r id).owned owned
  · exact owned.addWaitingClient
  · exact owned.addWaitingClient.addSubscriber

theorem Owned.handleReceive {isVideo receive : Bool}
    (owned : r.Owned) : (handleReceive r id isVideo receive).Owned := by
  unfold MediaApplication.handleReceive
  split
  · exact owned
  · exact owned

/-- A stream that is closed can be taken off the list: it is in no use any more. -/
theorem Owned.handleCloseStream (owned : r.Owned) : (handleCloseStream r id).Owned := by
  intro x
  by_cases same : x = id
  · have absent : (MediaApplication.closeAndForget r id).Absent id := absent_closeAndForget
    exact .inl (same ▸ absent)
  · exact ((Shrinks.closeAndForget r id).owned owned x).imp_right fun owns => owns_removeClientStream.mpr ⟨same, owns⟩

theorem Owned.removeClient (owned : r.Owned) : (removeClient r conn).Owned := by
  intro x
  by_cases ours : x.1 = conn
  · exact .inl (absent_removeClient owned ours)
  · rw [removeClient_eq]
    have shrinks := Shrinks.closeAll (r.takeClient conn).2 conn (r.streamsOf conn).elems
    rcases owned x with absent | owns
    · have before : (r.takeClient conn).2.Absent x := absent
      exact .inl (shrinks.absent before)
    · exact .inr (shrinks.owns.mpr (owns_takeClient.mpr ⟨ours, owns⟩))

end
end StreamRegistry
end Fms
