import Fms.Media.Consistency
import Fms.Media.Requests

namespace Fms
open ByteWire
namespace StreamRegistry
open MediaApplication

/-- Who plays a name that is live is fed by its broadcaster, the spared ones aside; and a stream
that a broadcaster keeps for its statistics plays nothing. -/
structure Followed (spared : StreamClientId → Bytes → Prop) (r : StreamRegistry) : Prop where
  fed : ∀ {sub name b}, ¬spared sub name → r.subscribersToStream.lookup sub = some name →
    r.streams.lookup b = some name → r.streamClients.lookup sub = some b
  idle : ∀ {b target}, (r.broadcasts.lookup b).bind BroadcastStream.qosTarget = some target →
    r.subscribersToStream.lookup target = none

section
variable {r next : StreamRegistry} {id sub b target : StreamClientId} {name : Bytes}
  {spared : StreamClientId → Bytes → Prop}

theorem Followed.spare {more : StreamClientId → Bytes → Prop} (followed : r.Followed spared)
    (weaker : ∀ {sub name}, spared sub name → more sub name) : r.Followed more :=
  ⟨fun kept => followed.fed fun is => kept (weaker is), followed.idle⟩

theorem Followed.withoutBroadcaster (followed : r.Followed spared) : (r.withoutBroadcaster id).Followed spared where
  fed := by
    intro sub name b kept plays live
    rw [lookup_streams_withoutBroadcaster] at live
    split at live
    · cases live
    · rename_i apart
      have edge := followed.fed kept plays live
      rw [lookup_streamClients_withoutBroadcaster, if_neg]
      · exact edge
      · intro toId
        exact apart (Option.some.inj (edge.symm.trans toId))
  idle := by
    intro b target points
    rw [lookup_broadcasts_withoutBroadcaster] at points
    split at points
    · cases points
    · exact followed.idle points

/-- A client that is spared or plays nothing can be detached. -/
theorem Followed.detachSubscriber (followed : r.Followed spared)
    (free : ∀ {name}, r.subscribersToStream.lookup id = some name → spared id name) :
    (r.detachSubscriber id).Followed spared where
  fed := by
    intro sub name b kept plays live
    show (r.streamClients.erase id).lookup sub = some b
    rw [Dict.lookup_erase_if, if_neg]
    · exact followed.fed kept plays live
    · rintro rfl
      exact kept (free plays)
  idle := followed.idle

/-- The streams of statistics that are closed on the way play nothing. -/
theorem Followed.closeStream (followed : r.Followed spared)
    (free : ∀ {name}, r.subscribersToStream.lookup id = some name → spared id name) :
    (closeStream r id).Followed spared := by
  refine closeStream_rule (I := fun mid at_ => mid.Followed spared ∧
    ∀ {name}, mid.subscribersToStream.lookup at_ = some name → spared at_ name) ?_ ?_ ?_ ⟨followed, free⟩
  · rintro mid at_ ⟨before, _⟩ _
    exact before.withoutBroadcaster
  · rintro mid at_ target ⟨before, _⟩ points
    refine ⟨before.withoutBroadcaster, fun plays => ?_⟩
    cases (before.idle points).symm.trans plays
  · rintro mid at_ ⟨before, freed⟩ _
    exact before.detachSubscriber freed

theorem Followed.forgetSubscription (followed : r.Followed spared) :
    (forgetSubscription r id).Followed (fun sub name => sub ≠ id ∧ spared sub name) where
  fed := by
    intro sub name b kept plays live
    rw [lookup_subscribersToStream_forgetSubscription] at plays
    rw [streams_forgetSubscription] at live
    rw [lookup_streamClients_forgetSubscription]
    split at plays
    · cases plays
    · rename_i apart
      rw [if_neg apart]
      exact followed.fed (fun is => kept ⟨apart, is⟩) plays live
  idle := by
    intro b target points
    rw [broadcasts_forgetSubscription] at points
    rw [lookup_subscribersToStream_forgetSubscription]
    split
    · rfl
    · exact followed.idle points

/-- Closing one stream leaves every other client where it was. -/
theorem Followed.closeAndForget (followed : r.Followed fun _ _ => False) :
    (closeAndForget r id).Followed fun _ _ => False := by
  have spared : r.Followed fun sub _ => sub = id := followed.spare False.elim
  exact (spared.closeStream fun _ => rfl).forgetSubscription.spare fun both => both.1 both.2

theorem Followed.closeAll {conn : Nat} {streams : List Nat} (followed : r.Followed fun _ _ => False) :
    (r.closeAll conn streams).Followed fun _ _ => False := by
  induction streams generalizing r with
  | nil => exact followed
  | cons stream rest ih => exact ih followed.closeAndForget

/-- A client that waits for a name is spared until it is fed. -/
theorem Followed.addWaitingClient {channelId : Nat} (followed : r.Followed fun _ _ => False)
    (unused : ∀ {b}, (r.broadcasts.lookup b).bind BroadcastStream.qosTarget ≠ some id) :
    (addWaitingClient r id name channelId).Followed fun sub _ => sub = id where
  fed := by
    intro sub played b apart plays live
    rw [lookup_subscribersToStream_addWaitingClient, if_neg apart] at plays
    change (MediaApplication.forgetSubscription r id).streams.lookup b = some played at live
    rw [streams_forgetSubscription] at live
    show (MediaApplication.forgetSubscription r id).streamClients.lookup sub = some b
    rw [lookup_streamClients_forgetSubscription, if_neg apart]
    exact followed.fed not_false plays live
  idle := by
    intro b target points
    change ((MediaApplication.forgetSubscription r id).broadcasts.lookup b).bind _ = _ at points
    rw [broadcasts_forgetSubscription] at points
    rw [lookup_subscribersToStream_addWaitingClient, if_neg]
    · exact followed.idle points
    · rintro rfl
      exact unused points

theorem Followed.servePlay {request : PlayRequest} (followed : r.Followed fun _ _ => False)
    (unused : ∀ {b}, (r.broadcasts.lookup b).bind BroadcastStream.qosTarget ≠ some id) :
    (servePlay r id request name).Followed fun _ _ => False := by
  have waits : (MediaApplication.addWaitingClient r id name request.channelId).Followed fun sub _ => sub = id :=
    followed.addWaitingClient unused
  have plays : (MediaApplication.addWaitingClient r id name request.channelId).subscribersToStream.lookup id =
      some name := by
    rw [lookup_subscribersToStream_addWaitingClient, if_pos rfl]
  have streams : (MediaApplication.addWaitingClient r id name request.channelId).streams = r.streams :=
    streams_forgetSubscription
  unfold MediaApplication.servePlay
  split
  · exact followed.forgetSubscription.spare And.right
  · exact followed.forgetSubscription.spare And.right
  · rename_i outcome
    have nobody := playOutcome_live outcome
    refine ⟨fun {sub played b} _ playing live => ?_, waits.idle⟩
    by_cases same : sub = id
    · subst same
      cases plays.symm.trans playing
      rw [streams] at live
      cases nobody.symm.trans (broadcasterForName_eq_some.mpr live)
    · exact waits.fed same playing live
  · rename_i found outcome
    have feeds := playOutcome_live outcome
    refine ⟨fun {sub played b} _ playing live => ?_, waits.idle⟩
    rw [lookup_streamClients_addSubscriber]
    split
    · rename_i same
      subst same
      cases plays.symm.trans playing
      change (MediaApplication.addWaitingClient r sub name request.channelId).streams.lookup b = some name at live
      rw [streams] at live
      exact feeds.symm.trans (broadcasterForName_eq_some.mpr live)
    · rename_i apart
      exact waits.fed apart playing live

theorem Followed.handleReceive {isVideo receive : Bool} (followed : r.Followed spared) :
    (handleReceive r id isVideo receive).Followed spared := by
  unfold MediaApplication.handleReceive
  split
  · exact ⟨followed.fed, followed.idle⟩
  · exact ⟨followed.fed, followed.idle⟩

/-- A new name may be played already by clients that are spared. -/
theorem Followed.addBroadcaster (followed : r.Followed spared) (added : r.addBroadcaster id name = some next)
    (covered : ∀ {sub}, r.subscribersToStream.lookup sub = some name → spared sub name) : next.Followed spared where
  fed := by
    intro sub played b kept plays live
    rw [subscribersToStream_addBroadcaster added] at plays
    rw [lookup_streams_addBroadcaster added] at live
    have edges : next.streamClients = r.streamClients := by
      obtain ⟨_, _, rfl⟩ := addBroadcaster_eq_some added
      rfl
    rw [edges]
    split at live
    · cases live
      exact absurd (covered plays) kept
    · exact followed.fed kept plays live
  idle := by
    intro b target points
    rw [lookup_broadcasts_addBroadcaster added] at points
    rw [subscribersToStream_addBroadcaster added]
    split at points
    · cases points
    · exact followed.idle points

theorem Followed.setQosTarget (followed : r.Followed spared) (free : r.subscribersToStream.lookup target = none) :
    (r.setQosTarget id target).Followed spared where
  fed := followed.fed
  idle := by
    intro b other points
    show r.subscribersToStream.lookup other = none
    unfold StreamRegistry.setQosTarget at points
    split at points
    · exact followed.idle points
    · dsimp only at points
      rw [Dict.lookup_insert_if] at points
      split at points
      · cases points
        exact free
      · exact followed.idle points

theorem lookup_streamClients_promote {waiting : List (StreamClientId × WaitingClient)} :
    (waiting.foldl (promote b) r).streamClients.lookup sub =
      if sub ∈ waiting.map Prod.fst then some b else r.streamClients.lookup sub := by
  induction waiting generalizing r with
  | nil => rfl
  | cons entry rest ih =>
    rw [List.foldl_cons, ih, promote, lookup_streamClients_addSubscriber, List.map_cons]
    simp only [List.mem_cons]
    by_cases same : sub = entry.1
    · simp [same]
    · rw [if_neg same]
      simp only [same, false_or]

theorem streams_promote {waiting : List (StreamClientId × WaitingClient)} :
    (waiting.foldl (promote b) r).streams = r.streams ∧ (waiting.foldl (promote b) r).broadcasts = r.broadcasts := by
  induction waiting generalizing r with
  | nil => exact ⟨rfl, rfl⟩
  | cons entry rest ih => exact ih

/-- Where every client that plays a new name waits for it, promoting those who wait feeds them all. -/
theorem Followed.checkWaitingClients (followed : r.Followed fun _ played => played = name) (wired : r.Wired)
    (live : r.streams.lookup b = some name)
    (wait : ∀ {sub}, r.subscribersToStream.lookup sub = some name → sub ∈ r.waitingOn name) :
    (checkWaitingClients r name).Followed fun _ _ => False := by
  unfold MediaApplication.checkWaitingClients
  rw [broadcasterForName_eq_some.mpr live]
  dsimp only
  have waiting {sub} : sub ∈ (r.takeWaiting name).1.map Prod.fst ↔ sub ∈ r.waitingOn name := by
    constructor
    · intro member
      obtain ⟨entry, taken, rfl⟩ := List.mem_map.mp member
      exact mem_takeWaiting taken
    · intro waits
      obtain ⟨client, taken⟩ := exists_takeWaiting waits
      exact List.mem_map.mpr ⟨(sub, client), taken, rfl⟩
  constructor
  · intro sub played from_ _ plays published
    rw [subscribersToStream_promote] at plays
    rw [streams_promote.1] at published
    rw [lookup_streamClients_promote]
    by_cases same : played = name
    · subst same
      rw [if_pos (waiting.mpr (wait plays))]
      exact congrArg some (r.streams.injective live published)
    · rw [if_neg]
      · exact followed.fed same plays published
      · intro promoted
        have playsName := wired.waiting (waiting.mp promoted)
        exact same (Option.some.inj (plays.symm.trans playsName))
  · intro from_ target points
    rw [streams_promote.2] at points
    rw [subscribersToStream_promote]
    exact followed.idle points

end
end StreamRegistry
namespace Observed
open MediaApplication StreamRegistry

/-- The requests under which a subscription survives. A stream goes live only while each client that
plays it is on its waiting list, and its statistics only while nobody plays them; and nothing is
played on a stream that a broadcaster has for its statistics. -/
def Lasting (o : Observed) : MediaRequest → Prop
  | .publish id (some name) =>
    o.app.registry.streams.lookup id = none → o.app.registry.broadcasterForName name = none →
      (∀ sub, o.app.playing sub = some name → sub ∈ o.app.registry.waitingOn name) ∧
        (o.app.registry.broadcasterForName (qosName name) = none → ∀ sub, o.app.playing sub ≠ some (qosName name))
  | .play id _ => ∀ b, (o.app.registry.broadcasts.lookup b).bind BroadcastStream.qosTarget ≠ some id
  | _ => True

variable {o : Observed} {app next : MediaApplication} {id : StreamClientId} {conn : Nat} {name : Bytes}

theorem Followed.handleCreateStream (followed : app.registry.Followed fun _ _ => False) :
    (handleCreateStream app conn).registry.Followed fun _ _ => False := by
  unfold MediaApplication.handleCreateStream
  split
  · exact followed
  · rename_i reserved
    obtain ⟨same, _, _⟩ := reserveStream_eq_some reserved
    rw [← same] at followed
    exact ⟨followed.fed, followed.idle⟩

/-- The statistics go to a stream that was free, under a name that nobody plays. -/
theorem Followed.addQosStream {spared : StreamClientId → Bytes → Prop} (sound : app.Sound)
    (followed : app.registry.Followed spared) (unplayed : app.registry.broadcasterForName (qosName name) = none →
      ∀ sub, app.playing sub ≠ some (qosName name)) :
    (addQosStream app id name).registry.Followed spared := by
  unfold MediaApplication.addQosStream
  split
  · exact followed
  · rename_i qos next reserved
    obtain ⟨same, free, _⟩ := reserveStream_eq_some reserved
    have idle : next.registry.subscribersToStream.lookup (id.1, qos) = none := by
      refine Option.eq_none_iff_forall_ne_some.mpr fun name plays => ?_
      rw [same] at plays
      exact free (sound.held plays)
    have before : next.registry.Followed spared := same ▸ followed
    split
    · exact before
    · rename_i r added
      have unclaimed : app.registry.broadcasterForName (qosName name) = none := by
        rw [← same]
        exact (addBroadcaster_eq_some added).2.1
      refine (before.addBroadcaster added fun {sub} plays => ?_).setQosTarget ?_
      · rw [same] at plays
        exact absurd plays (unplayed unclaimed sub)
      · rw [subscribersToStream_addBroadcaster added]
        exact idle

/-- A name that nobody published before a stream was added was nobody's without it. -/
theorem broadcasterForName_of_addBroadcaster {r next : StreamRegistry} {other : Bytes}
    (added : r.addBroadcaster id name = some next) (free : next.broadcasterForName other = none) :
    r.broadcasterForName other = none := by
  refine Option.eq_none_iff_forall_ne_some.mpr fun b live => ?_
  have there := broadcasterForName_eq_some.mp live
  have still : next.streams.lookup b = some other := by
    rw [lookup_streams_addBroadcaster added, if_neg]
    · exact there
    · rintro rfl
      cases (addBroadcaster_eq_some added).1.symm.trans there
  cases free.symm.trans (broadcasterForName_eq_some.mpr still)

theorem Followed.handlePublish {name : Option Bytes} (sound : o.app.Sound) (lasting : o.Lasting (.publish id name))
    (followed : o.app.registry.Followed fun _ _ => False) :
    (handlePublish o.app id name).registry.Followed fun _ _ => False := by
  unfold MediaApplication.handlePublish
  split
  · rename_i name next claimed
    obtain ⟨same, _, grows⟩ := claimStream_eq_some claimed
    have grown : next.Sound := sound.grow same grows
    have before : next.registry.Followed fun _ _ => False := same ▸ followed
    split
    · exact before
    · rename_i r added
      obtain ⟨new, free, _⟩ := addBroadcaster_eq_some added
      rw [same] at new free
      obtain ⟨wait, unplayed⟩ := lasting new free
      have registered : MediaApplication.Sound { next with registry := r } := grown.addBroadcaster added
      have playing (sub) : MediaApplication.playing { next with registry := r } sub = o.app.playing sub := by
        show r.subscribersToStream.lookup sub = o.app.registry.subscribersToStream.lookup sub
        rw [subscribersToStream_addBroadcaster added, same]
      have published : r.Followed fun _ played => played = name :=
        (before.spare False.elim).addBroadcaster added fun _ => rfl
      have reported : (MediaApplication.addQosStream { next with registry := r } id name).registry.Followed
          fun _ played => played = name := by
        refine Followed.addQosStream registered published fun unclaimed sub => ?_
        have unclaimed := broadcasterForName_of_addBroadcaster added unclaimed
        rw [same] at unclaimed
        rw [playing]
        exact unplayed unclaimed sub
      have live : r.streams.lookup id = some name := by
        rw [lookup_streams_addBroadcaster added, if_pos rfl]
      refine reported.checkWaitingClients registered.addQosStream.wired (lookup_streams_addQosStream live)
        fun {sub} plays => ?_
      have waits : sub ∈ o.app.registry.waitingOn name := by
        refine wait sub ?_
        rw [← playing, ← playing_addQosStream]
        exact plays
      have unchanged : r.waitingClients = o.app.registry.waitingClients := by
        obtain ⟨_, _, rfl⟩ := addBroadcaster_eq_some added
        rw [← same]
        rfl
      unfold StreamRegistry.waitingOn at waits ⊢
      rw [waitingClients_addQosStream]
      show sub ∈ (r.waitingClients.lookup name).getD ∅
      rw [unchanged]
      exact waits
  · exact followed

theorem Followed.handlePlay {request : PlayRequest} (lasting : o.Lasting (.play id request))
    (followed : o.app.registry.Followed fun _ _ => False) :
    (handlePlay o.app id request).registry.Followed fun _ _ => False := by
  unfold MediaApplication.handlePlay
  split
  · rename_i claimed
    rw [(claimStream_eq_some claimed).1]
    exact followed.servePlay fun {b} => lasting b
  · exact followed

theorem Followed.handleDeleteStream (followed : app.registry.Followed fun _ _ => False) :
    (handleDeleteStream app id).registry.Followed fun _ _ => False := by
  have closed : (MediaApplication.closeAndForget app.registry id).Followed fun _ _ => False := followed.closeAndForget
  unfold MediaApplication.handleDeleteStream
  split
  · exact followed
  · dsimp only
    split
    · exact ⟨closed.fed, closed.idle⟩
    · exact ⟨closed.fed, closed.idle⟩

theorem Followed.step {request : MediaRequest} (sound : o.app.Sound) (lasting : o.Lasting request)
    (followed : o.app.registry.Followed fun _ _ => False) :
    (o.app.step request).registry.Followed fun _ _ => False := by
  cases request with
  | connect conn =>
    show (if conn ∈ o.app.sessions then o.app else { o.app with sessions := _ }).registry.Followed _
    split
    · exact followed
    · exact followed
  | createStream conn => exact Followed.handleCreateStream followed
  | publish id name => exact Followed.handlePublish sound lasting followed
  | play id request => exact Followed.handlePlay lasting followed
  | receiveAudio id receive => exact followed.handleReceive
  | receiveVideo id receive => exact followed.handleReceive
  | closeStream id =>
    have closed : (MediaApplication.closeAndForget o.app.registry id).Followed fun _ _ => False :=
      followed.closeAndForget
    exact ⟨closed.fed, closed.idle⟩
  | deleteStream id => exact Followed.handleDeleteStream followed
  | disconnect conn =>
    have taken : (o.app.registry.takeClient conn).2.Followed fun _ _ => False := ⟨followed.fed, followed.idle⟩
    exact taken.closeAll

/-- While all requests are lasting, a stream whose last live `play` named a stream is handed the
frames of whoever publishes it. -/
theorem subscription_survives (requests : List MediaRequest) (lasting : Transition.Along step Lasting {} requests)
    {sub b : StreamClientId} {name : Bytes} (subscribed : (run requests).subscribed sub = some name)
    (live : (run requests).app.registry.broadcasterForName name = some b) :
    ∃ client, (sub, client) ∈ (run requests).app.registry.forEachSubscriber b := by
  have reach : Transition.Reach step Lasting {} (run requests) := Transition.Reach.start.along lasting
  obtain ⟨sound, followed⟩ : (run requests).Sound ∧ (run requests).app.registry.Followed fun _ _ => False := by
    refine reach.invariant (I := fun o => o.Sound ∧ o.app.registry.Followed fun _ _ => False) ⟨Sound.empty, ?_⟩ ?_
    · constructor
      · intro _ _ _ _ plays
        cases plays
      · intro _ _ points
        cases points
    · rintro o request allowed ⟨sound, followed⟩
      exact ⟨sound.step request, Followed.step sound.app allowed followed⟩
  rw [sound.subscribed] at subscribed
  have edge := followed.fed not_false subscribed (broadcasterForName_eq_some.mp live)
  have client : ((run requests).app.registry.subscribers.lookup sub).isSome := by
    rw [sound.app.wired.attached, edge]
    rfl
  obtain ⟨client, there⟩ := Option.isSome_iff_exists.mp client
  exact ⟨client, mem_forEachSubscriber.mpr ⟨edge, there⟩⟩

/-- A stream is published, played, closed and published again. -/
def publishedTwice : List MediaRequest :=
  [.connect 1, .connect 2, .publish (1, 1) (some [0x6e]), .play (2, 1) { name := some [0x6e] }, .closeStream (1, 1),
    .publish (1, 1) (some [0x6e])]

theorem lasting_publishedTwice : Transition.Along step Lasting {} publishedTwice := by
  refine ⟨trivial, trivial, ?_, ?_, trivial, ?_, trivial⟩
  · intro _ _
    have nobody (sub : StreamClientId) : (run (publishedTwice.take 2)).app.playing sub = none := rfl
    exact ⟨fun sub plays => (Option.some_ne_none _ (plays.symm.trans (nobody sub))).elim,
      fun _ sub plays => Option.some_ne_none _ (plays.symm.trans (nobody sub))⟩
  · intro b points
    obtain ⟨stream, found, target⟩ := Option.bind_eq_some_iff.mp points
    have own : ∀ entry ∈ (run (publishedTwice.take 3)).app.registry.broadcasts.entries,
        entry.2.qosTarget ≠ some (2, 1) := by decide
    exact own _ (AList.mem_lookup_iff.mp found) target
  · intro _ _
    have player {sub : StreamClientId} {name : Bytes}
        (plays : (run (publishedTwice.take 5)).app.playing sub = some name) : sub = (2, 1) ∧ name = [0x6e] := by
      have one : ∀ entry ∈ (run (publishedTwice.take 5)).app.registry.subscribersToStream.entries,
          entry.1 = (2, 1) ∧ entry.2 = [0x6e] := by decide
      exact one _ (AList.mem_lookup_iff.mp plays)
    constructor
    · intro sub plays
      obtain ⟨rfl, _⟩ := player plays
      decide
    · intro _ sub plays
      cases (player plays).2

/-- A client that has found its publisher still waits, and is fed when the stream is published again. -/
theorem subscription_survives_republish :
    ∃ client, ((2, 1), client) ∈ (run publishedTwice).app.registry.forEachSubscriber (1, 1) := by
  have subscribed : (run publishedTwice).subscribed (2, 1) = some [0x6e] := rfl
  exact subscription_survives publishedTwice lasting_publishedTwice subscribed rfl

/-- A client plays a stream that another one publishes afterwards. -/
def playThenPublish : List MediaRequest :=
  [.connect 1, .connect 2, .play (2, 1) { name := some [0x6e] }, .publish (1, 1) (some [0x6e])]

/-- It is not fed when the stream is published again: it is off the waiting list since the first time. -/
theorem subscription_lost :
    (run (playThenPublish ++ [.closeStream (1, 1), .publish (1, 1) (some [0x6e])])).subscribed (2, 1) = some [0x6e] ∧
      (run (playThenPublish ++ [.closeStream (1, 1), .publish (1, 1) (some [0x6e])])).app.registry.broadcasterForName
        [0x6e] = some (1, 1) ∧
      ¬∃ client, ((2, 1), client) ∈ (run (playThenPublish ++ [.closeStream (1, 1),
        .publish (1, 1) (some [0x6e])])).app.registry.forEachSubscriber (1, 1) := by
  refine ⟨rfl, rfl, ?_⟩
  rintro ⟨client, member⟩
  cases member

end Observed
end Fms
