import Fms.Base.Transition
import Fms.Media.Wiring

namespace Fms
open ByteWire
namespace MediaApplication
open StreamRegistry

variable {r : StreamRegistry} {request : PlayRequest} {sub : StreamClientId}

/-- The registry is wired and owned, and a client plays on streams that its session holds. -/
structure Sound (app : MediaApplication) : Prop where
  wired : app.registry.Wired
  owned : app.registry.Owned
  held : ∀ {id name}, app.registry.subscribersToStream.lookup id = some name → app.Holds id

section
variable {app next : MediaApplication} {id : StreamClientId} {conn : Nat} {name : Bytes}

theorem Sound.grow (sound : app.Sound) (same : next.registry = app.registry)
    (grows : ∀ {x}, app.Holds x → next.Holds x) :
    next.Sound := by
  refine ⟨same ▸ sound.wired, same ▸ sound.owned, fun plays => ?_⟩
  rw [same] at plays
  exact grows (sound.held plays)

theorem Sound.withRegistry (sound : app.Sound) (wired : r.Wired) (owned : r.Owned)
    (plays : ∀ {x played}, r.subscribersToStream.lookup x = some played →
      ∃ before, app.registry.subscribersToStream.lookup x = some before) :
    Sound { app with registry := r } where
  wired := wired
  owned := owned
  held := by
    intro x played found
    obtain ⟨before, there⟩ := plays found
    exact sound.held there

theorem Sound.handleCreateStream (sound : app.Sound) : (handleCreateStream app conn).Sound := by
  unfold MediaApplication.handleCreateStream
  split
  · exact sound
  · rename_i stream next reserved
    obtain ⟨same, _, grows⟩ := reserveStream_eq_some reserved
    have grown : next.Sound := sound.grow same grows
    exact ⟨grown.wired.withClients, grown.owned.addClientStream, grown.held⟩

theorem subscribersToStream_addBroadcaster {next : StreamRegistry} (added : r.addBroadcaster id name = some next) :
    next.subscribersToStream = r.subscribersToStream := by
  obtain ⟨_, _, rfl⟩ := addBroadcaster_eq_some added
  rfl

theorem Sound.addBroadcaster (sound : app.Sound) (added : app.registry.addBroadcaster id name = some r) :
    Sound { app with registry := r } := by
  refine sound.withRegistry (sound.wired.addBroadcaster added)
    (sound.owned.addBroadcaster added) fun {x played} plays => ?_
  rw [subscribersToStream_addBroadcaster added] at plays
  exact ⟨played, plays⟩

theorem Sound.addQosStream (sound : app.Sound) : (addQosStream app id name).Sound := by
  unfold MediaApplication.addQosStream
  split
  · exact sound
  · rename_i qos next reserved
    obtain ⟨same, _, grows⟩ := reserveStream_eq_some reserved
    have grown : next.Sound := sound.grow same grows
    split
    · exact grown
    · rename_i r added
      have registered := grown.addBroadcaster added
      exact ⟨registered.wired.setQosTarget, registered.owned, registered.held⟩

theorem subscribersToStream_promote {b : StreamClientId} {waiting : List (StreamClientId × WaitingClient)} :
    (waiting.foldl (promote b) r).subscribersToStream = r.subscribersToStream := by
  induction waiting generalizing r with
  | nil => rfl
  | cons entry rest ih => exact ih

@[simp] theorem subscribersToStream_checkWaitingClients :
    (checkWaitingClients r name).subscribersToStream = r.subscribersToStream := by
  unfold checkWaitingClients
  split
  · rfl
  · exact subscribersToStream_promote

theorem Sound.handlePublish {name : Option Bytes} (sound : app.Sound) : (handlePublish app id name).Sound := by
  unfold MediaApplication.handlePublish
  split
  · rename_i name next claimed
    obtain ⟨same, _, grows⟩ := claimStream_eq_some claimed
    have grown : next.Sound := sound.grow same grows
    split
    · exact grown
    · rename_i r added
      have registered : (MediaApplication.addQosStream { next with registry := r } id name).Sound :=
        (grown.addBroadcaster added).addQosStream
      refine registered.withRegistry registered.wired.checkWaitingClients registered.owned.checkWaitingClients ?_
      intro x played plays
      rw [subscribersToStream_checkWaitingClients] at plays
      exact ⟨played, plays⟩
  · exact sound

/-- What a `play` leaves its stream playing; nobody else plays anything else. -/
theorem lookup_subscribersToStream_servePlay :
    (servePlay r id request name).subscribersToStream.lookup sub =
      if sub = id then
        match playOutcome r request name with
        | .live _ => some name
        | _ => none
      else r.subscribersToStream.lookup sub := by
  unfold servePlay
  cases playOutcome r request name with
  | vod => exact lookup_subscribersToStream_forgetSubscription
  | notFound => exact lookup_subscribersToStream_forgetSubscription
  | live found =>
    cases found with
    | none => exact lookup_subscribersToStream_addWaitingClient
    | some b => exact lookup_subscribersToStream_addWaitingClient

theorem Sound.handlePlay (sound : app.Sound) : (handlePlay app id request).Sound := by
  unfold MediaApplication.handlePlay
  split
  · rename_i name next _ claimed
    obtain ⟨same, holds, grows⟩ := claimStream_eq_some claimed
    have grown : next.Sound := sound.grow same grows
    refine ⟨grown.wired.servePlay, grown.owned.servePlay, ?_⟩
    intro x played plays
    rw [lookup_subscribersToStream_servePlay] at plays
    split at plays
    · rename_i isId
      exact isId ▸ holds
    · exact grown.held plays
  · exact sound

theorem subscribersToStream_handleReceive {isVideo receive : Bool} :
    (handleReceive r id isVideo receive).subscribersToStream = r.subscribersToStream := by
  unfold handleReceive
  split
  · rfl
  · rfl

theorem Sound.handleReceive {isVideo receive : Bool} (sound : app.Sound) :
    Sound { app with registry := handleReceive app.registry id isVideo receive } := by
  refine sound.withRegistry sound.wired.handleReceive sound.owned.handleReceive fun {x played} plays => ?_
  rw [subscribersToStream_handleReceive] at plays
  exact ⟨played, plays⟩

theorem Sound.handleCloseStream (sound : app.Sound) :
    Sound { app with registry := handleCloseStream app.registry id } := by
  refine sound.withRegistry sound.wired.closeAndForget.withClients sound.owned.handleCloseStream ?_
  intro x played plays
  exact ⟨played, (Shrinks.closeAndForget app.registry id).plays plays⟩

theorem Sound.handleDeleteStream (sound : app.Sound) : (handleDeleteStream app id).Sound := by
  unfold MediaApplication.handleDeleteStream
  split
  · exact sound
  · have closed : Sound { app with registry := MediaApplication.handleCloseStream app.registry id } :=
      sound.handleCloseStream
    dsimp only
    split
    · exact closed
    · rename_i ids found
      refine ⟨closed.wired, closed.owned, fun {x played} plays => ?_⟩
      refine (closed.held plays).insert found fun inSession old => Finset.mem_erase.mpr ⟨fun isStream => ?_, old⟩
      have isId : x = id := Prod.ext inSession isStream
      have gone : (MediaApplication.closeAndForget app.registry id).Absent id := absent_closeAndForget
      rw [isId] at plays
      cases gone.2.symm.trans plays

theorem Sound.disconnect (sound : app.Sound) :
    Sound { sessions := app.sessions.erase conn, registry := removeClient app.registry conn } := by
  refine ⟨sound.wired.withClients.closeAll, sound.owned.removeClient, fun {x played} plays => ?_⟩
  have apart : x.1 ≠ conn := by
    intro ours
    cases (absent_removeClient sound.owned ours).2.symm.trans plays
  have before : app.registry.subscribersToStream.lookup x = some played :=
    (Shrinks.closeAll (app.registry.takeClient conn).2 conn _).plays plays
  obtain ⟨stream, ids, there, member⟩ := sound.held before
  refine ⟨stream, ids, ?_, member⟩
  dsimp only
  rw [Dict.lookup_erase_if, if_neg apart]
  exact there

theorem Sound.connect (sound : app.Sound) (new : conn ∉ app.sessions) :
    Sound { app with sessions := app.sessions.insert conn ∅ } := by
  refine ⟨sound.wired, sound.owned, fun {x played} plays => ?_⟩
  obtain ⟨stream, ids, there, member⟩ := sound.held plays
  refine ⟨stream, ids, ?_, member⟩
  dsimp only
  rw [Dict.lookup_insert_if, if_neg]
  · exact there
  · rintro rfl
    cases (AList.lookup_eq_none.mpr new).symm.trans there

theorem Sound.step (sound : app.Sound) (request : MediaRequest) : (app.step request).Sound := by
  cases request with
  | connect conn =>
    show Sound (if conn ∈ app.sessions then app else { app with sessions := app.sessions.insert conn ∅ })
    split
    · exact sound
    · rename_i new
      exact sound.connect new
  | createStream conn => exact sound.handleCreateStream
  | publish id name => exact sound.handlePublish
  | play id request => exact sound.handlePlay
  | receiveAudio id receive => exact sound.handleReceive
  | receiveVideo id receive => exact sound.handleReceive
  | closeStream id => exact sound.handleCloseStream
  | deleteStream id => exact sound.handleDeleteStream
  | disconnect conn => exact sound.disconnect

/-- The name that the stream plays or waits for. -/
def playing (app : MediaApplication) (sub : StreamClientId) : Option Bytes :=
  app.registry.subscribersToStream.lookup sub

/-- What a `play` leaves its stream playing, where it is not turned away. -/
def served (app : MediaApplication) (id : StreamClientId) (request : PlayRequest) : Option (Option Bytes) :=
  match request.name, app.claimStream id with
  | some name, some _ =>
    match playOutcome app.registry request name with
    | .live _ => some (some name)
    | _ => some none
  | _, _ => none

/-- What a request leaves a stream playing that played `before`. -/
def playingAfter (app : MediaApplication) (sub : StreamClientId) (before : Option Bytes) : MediaRequest → Option Bytes
  | .play id request => if sub = id then (app.served id request).getD before else before
  | .closeStream id | .deleteStream id => if sub = id then none else before
  | .disconnect conn => if sub.1 = conn then none else before
  | _ => before

theorem served_eq_some (live : app.served id request = some (some name)) : request.name = some name := by
  unfold served at live
  split at live
  · rename_i found _
    split at live
    · cases live
      exact found
    · cases live
  · cases live

/-- Only a stream that plays nothing can be turned away. -/
theorem not_holds_of_served (named : request.name = some name)
    (turnedAway : app.served id request = none) : ¬app.Holds id := by
  unfold served at turnedAway
  cases claimed : app.claimStream id with
  | none => exact not_holds_of_claimStream claimed
  | some next =>
    rw [named, claimed] at turnedAway
    dsimp only at turnedAway
    split at turnedAway
    · cases turnedAway
    · cases turnedAway

theorem playing_handleCreateStream : (handleCreateStream app conn).playing sub = app.playing sub := by
  unfold handleCreateStream
  split
  · rfl
  · rename_i reserved
    show AList.lookup sub _ = AList.lookup sub _
    rw [← (reserveStream_eq_some reserved).1]
    rfl

theorem playing_addQosStream : (addQosStream app id name).playing sub = app.playing sub := by
  unfold addQosStream
  split
  · rfl
  · rename_i next reserved
    have same : next.playing sub = app.playing sub := by
      unfold playing
      rw [(reserveStream_eq_some reserved).1]
    split
    · exact same
    · rename_i r added
      refine Eq.trans ?_ same
      show r.subscribersToStream.lookup sub = next.registry.subscribersToStream.lookup sub
      rw [subscribersToStream_addBroadcaster added]

theorem playing_handlePublish {name : Option Bytes} : (handlePublish app id name).playing sub = app.playing sub := by
  unfold handlePublish
  split
  · rename_i name next claimed
    have same : next.playing sub = app.playing sub := by
      unfold playing
      rw [(claimStream_eq_some claimed).1]
    split
    · exact same
    · rename_i r added
      refine Eq.trans ?_ same
      show (checkWaitingClients _ _).subscribersToStream.lookup sub = _
      rw [subscribersToStream_checkWaitingClients]
      refine playing_addQosStream.trans ?_
      show r.subscribersToStream.lookup sub = next.registry.subscribersToStream.lookup sub
      rw [subscribersToStream_addBroadcaster added]
  · rfl

theorem playing_handleDeleteStream (sound : app.Sound) :
    (handleDeleteStream app id).playing sub = if sub = id then none else app.playing sub := by
  unfold handleDeleteStream
  split
  · rename_i control
    split
    · rename_i same
      refine Option.eq_none_iff_forall_ne_some.mpr fun name plays => ?_
      exact (sound.held plays).1 (same ▸ control)
    · rfl
  · dsimp only
    split
    · exact lookup_subscribersToStream_closeAndForget
    · exact lookup_subscribersToStream_closeAndForget

theorem playing_handlePlay :
    (handlePlay app id request).playing sub = if sub = id then (app.served id request).getD
    (app.playing sub) else app.playing sub := by
  unfold handlePlay served
  cases request.name with
  | none => simp
  | some name =>
    cases claimed : app.claimStream id with
    | none => simp
    | some next =>
      dsimp only
      rw [playing, playing, ← (claimStream_eq_some claimed).1]
      dsimp only
      rw [lookup_subscribersToStream_servePlay]
      cases playOutcome next.registry request name with
      | vod => rfl
      | notFound => rfl
      | live found => rfl

theorem playing_step (sound : app.Sound) (request : MediaRequest) (sub : StreamClientId) :
    (app.step request).playing sub = app.playingAfter sub (app.playing sub) request := by
  cases request with
  | connect conn =>
    show playing (if conn ∈ app.sessions then app else { app with sessions := app.sessions.insert conn ∅ }) sub = _
    split
    · rfl
    · rfl
  | createStream conn => exact playing_handleCreateStream
  | publish id name => exact playing_handlePublish
  | play id request => exact playing_handlePlay
  | receiveAudio id receive => exact congrArg (AList.lookup sub) subscribersToStream_handleReceive
  | receiveVideo id receive => exact congrArg (AList.lookup sub) subscribersToStream_handleReceive
  | closeStream id => exact lookup_subscribersToStream_closeAndForget
  | deleteStream id => exact playing_handleDeleteStream sound
  | disconnect conn =>
    show (removeClient app.registry conn).subscribersToStream.lookup sub = if sub.1 =
      conn then none else app.playing sub
    split
    · rename_i ours
      exact (absent_removeClient sound.owned ours).2
    · rename_i apart
      rw [removeClient_eq]
      exact lookup_subscribersToStream_closeAll apart

end
end MediaApplication

/-- The application with what its clients asked for: the name in the last `play` of each stream,
whatever came of it, and the name in its last `play` that was served live and not undone since. -/
structure Observed where
  app : MediaApplication := {}
  lastPlay : StreamClientId → Option Bytes := fun _ => none
  subscribed : StreamClientId → Option Bytes := fun _ => none

namespace Observed
open MediaApplication StreamRegistry

def step (o : Observed) (request : MediaRequest) : Observed where
  app := o.app.step request
  lastPlay sub := match request with
    | .play id request => if sub = id then request.name.or (o.lastPlay sub) else o.lastPlay sub
    | _ => o.lastPlay sub
  subscribed sub := o.app.playingAfter sub (o.subscribed sub) request

def run (requests : List MediaRequest) : Observed := requests.foldl step {}

/-- The application is sound and agrees with what was asked for. -/
structure Sound (o : Observed) : Prop where
  app : o.app.Sound
  asked : ∀ {sub name}, o.app.playing sub = some name → o.lastPlay sub = some name
  subscribed : ∀ sub, o.subscribed sub = o.app.playing sub

theorem Sound.empty : Sound {} where
  app := by
    refine ⟨⟨fun _ => rfl, fun _ => rfl, ?_, ?_⟩, fun _ => .inl ⟨rfl, rfl⟩, ?_⟩
    · intro _ _ edge
      cases edge
    · intro _ _ waits
      cases waits
    · intro _ _ plays
      cases plays
  asked := by
    intro _ _ plays
    cases plays
  subscribed := fun _ => rfl

variable {o : Observed} {r : StreamRegistry} {sub : StreamClientId}

variable {id : StreamClientId}

/-- What a stream plays after a `play` was asked for by it, or earlier: a `play` that is turned away
finds its stream playing nothing. -/
theorem Sound.asked_play {name : Bytes} (sound : o.Sound)
    (plays : o.app.playingAfter sub (o.app.playing sub) (.play id request) = some name) :
    (if sub = id then request.name.or (o.lastPlay sub) else o.lastPlay sub) = some name := by
  unfold playingAfter at plays
  dsimp only at plays
  split at plays
  · rename_i same
    subst same
    rw [if_pos rfl]
    cases service : o.app.served sub request with
    | some played =>
      rw [service, Option.getD_some] at plays
      subst plays
      rw [served_eq_some service]
      rfl
    | none =>
      rw [service, Option.getD_none] at plays
      cases named : request.name with
      | none => exact sound.asked plays
      | some asked => exact absurd (sound.app.held plays) (not_holds_of_served named service)
  · rename_i apart
    rw [if_neg apart]
    exact sound.asked plays

theorem Sound.step (sound : o.Sound) (request : MediaRequest) : (o.step request).Sound where
  app := sound.app.step request
  asked := by
    intro sub name plays
    change (o.app.step request).playing sub = some name at plays
    rw [playing_step sound.app] at plays
    have stopped {gone : Prop} [Decidable gone] (left : (if gone then none else o.app.playing sub) = some name) :
        o.lastPlay sub = some name := by
      split at left
      · cases left
      · exact sound.asked left
    cases request with
    | play id request => exact sound.asked_play plays
    | closeStream id => exact stopped plays
    | deleteStream id => exact stopped plays
    | disconnect conn => exact stopped plays
    | connect conn => exact sound.asked plays
    | createStream conn => exact sound.asked plays
    | publish id name => exact sound.asked plays
    | receiveAudio id receive => exact sound.asked plays
    | receiveVideo id receive => exact sound.asked plays
  subscribed sub := by
    show o.app.playingAfter sub (o.subscribed sub) request = (o.app.step request).playing sub
    rw [playing_step sound.app, sound.subscribed]

theorem run_sound (requests : List MediaRequest) : (run requests).Sound := by
  have reach : Transition.Reach step (fun _ _ => True) {} (run requests) :=
    Transition.Reach.start.foldl fun _ _ _ => trivial
  exact reach.invariant Sound.empty fun _ sound => sound.step _

/-- A stream is named by one of the maps: it publishes, subscribes or is subscribed to, or waits. -/
def Occurs (r : StreamRegistry) (id : StreamClientId) : Prop :=
  id ∈ r.broadcasts ∨ (r.streams.lookup id).isSome ∨ (∃ b, id ∈ r.fanOut b) ∨ (∃ sub, sub ∈ r.fanOut id) ∨
    id ∈ r.subscribers ∨ id ∈ r.subscribersToStream ∨ ∃ name, id ∈ r.waitingOn name

/-- What the maps of the registry say of each other, and whom a frame is handed to. -/
structure Consistent (o : Observed) : Prop where
  published : ∀ id, id ∈ o.app.registry.broadcasts ↔ (o.app.registry.streams.lookup id).isSome
  named_once : ∀ {id other name}, o.app.registry.streams.lookup id = some name →
    o.app.registry.streams.lookup other = some name → id = other
  subscribed : ∀ sub, sub ∈ o.app.registry.subscribers ↔ ∃ b, sub ∈ o.app.registry.fanOut b
  one_edge : ∀ sub ∈ o.app.registry.subscribers, ∃! b, sub ∈ o.app.registry.fanOut b
  live : ∀ {sub b}, sub ∈ o.app.registry.fanOut b → b ∈ o.app.registry.broadcasts
  waiting : ∀ {name sub}, sub ∈ o.app.registry.waitingOn name →
    o.app.registry.subscribersToStream.lookup sub = some name
  owned : ∀ {id}, Occurs o.app.registry id → id.2 ∈ o.app.registry.streamsOf id.1
  handed_once : ∀ b, ((o.app.registry.forEachSubscriber b).map Prod.fst).Nodup
  handed_to_players : ∀ {b sub client}, (sub, client) ∈ o.app.registry.forEachSubscriber b →
    ∃ name, o.app.registry.streams.lookup b = some name ∧ o.lastPlay sub = some name

theorem mem_fanOut_iff (wired : r.Wired) : sub ∈ r.subscribers ↔ ∃ b, sub ∈ r.fanOut b := by
  simp only [mem_fanOut]
  rw [← AList.lookup_isSome, wired.attached, Option.isSome_iff_exists]

theorem mem_broadcasts_iff
    (wired : r.Wired) : id ∈ r.broadcasts ↔ (r.streams.lookup id).isSome := by
  rw [← AList.lookup_isSome, wired.published]

theorem Occurs.present (wired : r.Wired) (occurs : Occurs r id) : ¬r.Absent id := by
  have subscriber {b} (edge : id ∈ r.fanOut b) : ¬r.Absent id := by
    intro absent
    obtain ⟨name, _, plays⟩ := wired.named (mem_fanOut.mp edge)
    cases absent.2.symm.trans plays
  have publisher (live : (r.streams.lookup id).isSome) : ¬r.Absent id := by
    intro absent
    rw [absent.1] at live
    cases live
  rcases occurs with broadcast | stream | ⟨b, edge⟩ | ⟨sub, edge⟩ | client | player | ⟨name, waits⟩
  · exact publisher ((mem_broadcasts_iff wired).mp broadcast)
  · exact publisher stream
  · exact subscriber edge
  · obtain ⟨name, live, _⟩ := wired.named (mem_fanOut.mp edge)
    exact publisher (live ▸ rfl)
  · obtain ⟨b, edge⟩ := (mem_fanOut_iff wired).mp client
    exact subscriber edge
  · exact fun absent => AList.lookup_eq_none.mp absent.2 player
  · intro absent
    cases absent.2.symm.trans (wired.waiting waits)

/-- After any requests from any connections the registry is consistent. -/
theorem run_consistent (requests : List MediaRequest) : (run requests).Consistent := by
  have sound : (run requests).Sound := run_sound requests
  have wired := sound.app.wired
  refine ⟨fun id => mem_broadcasts_iff wired, fun one other =>
    (run requests).app.registry.streams.injective one other,
    fun sub => mem_fanOut_iff wired, ?_, ?_, wired.waiting, ?_, fun b => nodup_forEachSubscriber, ?_⟩
  · intro sub member
    obtain ⟨b, edge⟩ := (mem_fanOut_iff wired).mp member
    refine ⟨b, edge, fun other another => ?_⟩
    exact Option.some.inj ((mem_fanOut.mp another).symm.trans (mem_fanOut.mp edge))
  · intro sub b edge
    obtain ⟨name, live, _⟩ := wired.named (mem_fanOut.mp edge)
    exact (mem_broadcasts_iff wired).mpr (live ▸ rfl)
  · intro id occurs
    exact (sound.app.owned id).resolve_left (occurs.present wired)
  · intro b sub client handed
    obtain ⟨edge, _⟩ := mem_forEachSubscriber.mp handed
    obtain ⟨name, live, plays⟩ := wired.named edge
    exact ⟨name, live, sound.asked plays⟩

end Observed
end Fms
