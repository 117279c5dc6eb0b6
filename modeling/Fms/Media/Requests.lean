import Fms.Media.Wiring

namespace Fms
open ByteWire

def MediaRequest.connection : MediaRequest → Nat
  | .connect conn | .createStream conn | .disconnect conn => conn
  | .publish id _ | .play id _ | .receiveAudio id _ | .receiveVideo id _ | .closeStream id | .deleteStream id => id.1

namespace MediaApplication
open StreamRegistry

section
variable {r : StreamRegistry} {id b : StreamClientId} {name : Bytes}

theorem waitingClients_promote {waiting : List (StreamClientId × WaitingClient)} :
    (waiting.foldl (promote b) r).waitingClients = r.waitingClients := by
  induction waiting generalizing r with
  | nil => rfl
  | cons entry rest ih => exact ih (r := promote b r entry)

end

/-- What becomes of the stream of statistics: no id is left for it, its name is taken, or it
starts. -/
inductive QosRound (app : MediaApplication) (id : StreamClientId) (name : Bytes) : MediaApplication → Prop
  | full : app.reserveStream id.1 = none → QosRound app id name app
  | taken {qos next} : app.reserveStream id.1 = some (qos, next) →
      next.registry.addBroadcaster (id.1, qos) (qosName name) = none → QosRound app id name next
  | started {qos next r} : app.reserveStream id.1 = some (qos, next) →
      next.registry.addBroadcaster (id.1, qos) (qosName name) = some r →
      QosRound app id name { next with registry := r.setQosTarget id (id.1, qos) }

/-- A `publish` is refused, finds its id or its name taken, or starts. -/
inductive PublishRound (app : MediaApplication) (id : StreamClientId) : Option Bytes → MediaApplication → Prop
  | refused {name} : name = none ∨ app.claimStream id = none → PublishRound app id name app
  | taken {name claimed} : app.claimStream id = some claimed → claimed.registry.addBroadcaster id name = none →
      PublishRound app id (some name) claimed
  | started {name claimed r last} : app.claimStream id = some claimed →
      claimed.registry.addBroadcaster id name = some r → last = addQosStream { claimed with registry := r } id name →
      PublishRound app id (some name) { last with registry := checkWaitingClients last.registry name }

section
variable {app : MediaApplication} {id : StreamClientId}

theorem qosRound (app : MediaApplication) (id : StreamClientId) (name : Bytes) :
    QosRound app id name (addQosStream app id name) := by
  unfold addQosStream
  split
  · rename_i full
    exact .full full
  · rename_i reserved
    split
    · rename_i taken
      exact .taken reserved taken
    · rename_i added
      exact .started reserved added

theorem publishRound (app : MediaApplication) (id : StreamClientId) (name : Option Bytes) :
    PublishRound app id name (handlePublish app id name) := by
  cases name with
  | none => exact .refused (.inl rfl)
  | some name =>
    unfold handlePublish
    cases claims : app.claimStream id with
    | none => exact .refused (.inr claims)
    | some claimed =>
      dsimp only
      split
      · rename_i taken
        exact .taken claims taken
      · rename_i added
        exact .started claims added rfl

theorem waitingClients_addQosStream {name : Bytes} :
    (addQosStream app id name).registry.waitingClients = app.registry.waitingClients := by
  generalize outcome : addQosStream app id name = next
  cases outcome ▸ qosRound app id name with
  | full => rfl
  | taken reserved => rw [(reserveStream_eq_some reserved).1]
  | @started qos mid r reserved added =>
    show r.waitingClients = _
    rw [← (reserveStream_eq_some reserved).1]
    obtain ⟨_, _, rfl⟩ := addBroadcaster_eq_some added
    rfl

/-- The streams that are there stay when the stream of the statistics is added. -/
theorem lookup_streams_addQosStream {name : Bytes} {x : StreamClientId} {other : Bytes}
    (live : app.registry.streams.lookup x = some other) :
    (addQosStream app id name).registry.streams.lookup x = some other := by
  generalize outcome : addQosStream app id name = next
  cases outcome ▸ qosRound app id name with
  | full => exact live
  | taken reserved => rwa [(reserveStream_eq_some reserved).1]
  | @started qos mid r reserved added =>
    rw [← (reserveStream_eq_some reserved).1] at live
    show r.streams.lookup x = some other
    rw [lookup_streams_addBroadcaster added, if_neg]
    · exact live
    · rintro rfl
      cases (addBroadcaster_eq_some added).1.symm.trans live

end

end MediaApplication
end Fms
