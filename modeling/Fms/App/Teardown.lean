import Fms.App.SendQueue
import Fms.Base.Transition

namespace Fms

/-- What is done of a teardown: the connection is out of the registry, its send queue is
erased, its subscriptions are removed. -/
inductive TeardownStage
  | connected
  | unregistered
  | erased
  | unsubscribed
  deriving DecidableEq

/-- A thread with messages to enqueue, one after the other. A fan-out holds the lock of the
stream registry shared until it is through. -/
structure Sender where
  messages : List (RtmpMessage × Bool)
  missed : Bool := false
  fanOut : Bool

/-- A connection, its entry in `m_async_messages` and the threads that send to it. -/
structure Teardown where
  maxQueueBytes : UInt64
  stage : TeardownStage := .connected
  entry : Option (AsyncQueue RtmpMessage) := none
  senders : List Sender := []

namespace Teardown

inductive Move
  | enqueueAsyncMessage (msg : RtmpMessage) (urgent : Bool)
  | deliverToSubscriber (sessionHeld : Bool) (bufferReady : Option RtmpMessage) (msg : RtmpMessage)
  | proceed (sender : Nat)
  | getAsyncMessage
  | tearDown

def push (s : Teardown) (index : Nat) (sender : Sender) (msg : RtmpMessage) (urgent : Bool)
    (rest : List (RtmpMessage × Bool)) : Teardown :=
  { s with
    entry := some ((s.entry.getD {}).push id s.maxQueueBytes msg urgent).queue
    senders := s.senders.set index { sender with messages := rest, missed := false } }

/-- The next step of a sender: a push, or the way to the exclusive lock when there is no entry. -/
def proceed (s : Teardown) (index : Nat) : Teardown :=
  match s.senders[index]? with
  | none => s
  | some sender => match sender.messages with
    | [] => s
    | (msg, urgent) :: rest =>
      if sender.missed ∨ s.entry.isSome then s.push index sender msg urgent rest
      else { s with senders := s.senders.set index { sender with missed := true } }

def fanOutAtWork (s : Teardown) : Bool := s.senders.any fun sender => sender.fanOut && !sender.messages.isEmpty

def step (s : Teardown) : Move → Teardown
  | .enqueueAsyncMessage msg urgent =>
    if s.stage = .connected then { s with senders := s.senders ++ [{ messages := [(msg, urgent)], fanOut := false }] }
    else s
  | .deliverToSubscriber sessionHeld bufferReady msg =>
    -- the weak pointer of the subscriber, or the registry, has to yield the session
    if s.stage ≠ .unsubscribed ∧ (sessionHeld ∨ s.stage = .connected) then
      { s with
        senders := s.senders ++ [{ messages := (bufferReady.toList ++ [msg]).map (·, false), fanOut := true }] }
    else s
  | .proceed index => s.proceed index
  | .getAsyncMessage => { s with entry := s.entry.map fun q => ((q.pop id).map Prod.snd).getD q }
  | .tearDown => match s.stage with
    | .connected => { s with stage := .unregistered }
    | .unregistered => { s with stage := .erased, entry := none }
    | .erased => if s.fanOutAtWork then s else { s with stage := .unsubscribed }
    | .unsubscribed => s

/-- The queue is erased when no thread is about to push, and no fan-out starts after that. -/
def Move.InTime (s : Teardown) : Move → Prop
  | .tearDown => s.stage = .unregistered → ∀ sender ∈ s.senders, sender.messages = []
  | .deliverToSubscriber sessionHeld _ _ => s.stage = .erased → sessionHeld = false
  | _ => True

/-- There is no queue and no one to push. -/
structure Clean (s : Teardown) : Prop where
  entry : s.entry = none
  senders : ∀ sender ∈ s.senders, sender.messages = []

theorem Clean.proceed {s : Teardown} (clean : s.Clean) (index : Nat) : s.proceed index = s := by
  unfold Teardown.proceed
  split
  · rfl
  · rename_i sender found
    rw [clean.senders sender (List.mem_of_getElem? found)]

/-- A connection past the erasure is clean, and stays so. -/
theorem clean_step {s : Teardown} {move : Move} (inTime : move.InTime s)
    (clean : s.stage = .erased ∨ s.stage = .unsubscribed → s.Clean)
    (past : (s.step move).stage = .erased ∨ (s.step move).stage = .unsubscribed) : (s.step move).Clean := by
  cases move with
  | enqueueAsyncMessage msg urgent =>
    simp only [step] at past ⊢
    split at past
    · rename_i connected
      rcases past with erased | unsubscribed
      · cases connected.symm.trans erased
      · cases connected.symm.trans unsubscribed
    · rename_i gone
      rw [if_neg gone]
      exact clean past
  | deliverToSubscriber sessionHeld bufferReady msg =>
    simp only [step] at past ⊢
    split at past
    · rename_i starts
      rcases past with erased | unsubscribed
      · have held := inTime erased
        rcases starts.2 with yes | connected
        · cases held.symm.trans yes
        · cases connected.symm.trans erased
      · exact absurd unsubscribed starts.1
    · rename_i none
      rw [if_neg none]
      exact clean past
  | proceed index =>
    have same : (s.step (.proceed index)).stage = s.stage := by
      simp only [step, proceed]
      split
      · rfl
      · split
        · rfl
        · split <;> rfl
    rw [same] at past
    rw [step, (clean past).proceed index]
    exact clean past
  | getAsyncMessage =>
    have before := clean past
    exact ⟨by simp [step, before.entry], before.senders⟩
  | tearDown =>
    cases stage : s.stage with
    | connected => simp [step, stage] at past
    | unregistered =>
      simp only [step, stage]
      exact ⟨rfl, inTime stage⟩
    | erased =>
      have before := clean (.inl stage)
      simp only [step, stage]
      split
      · exact before
      · exact ⟨before.entry, before.senders⟩
    | unsubscribed =>
      simp only [step, stage]
      exact clean (.inr stage)

/-- A teardown whose erasure finds no thread about to push, and after whose erasure no fan-out
starts, leaves no send queue. -/
theorem teardown_leaves_no_queue {cap : UInt64} {s : Teardown}
    (reach : Transition.Reach step Move.InTime { maxQueueBytes := cap } s) (finished : s.stage = .unsubscribed) :
    s.entry = none := by
  have clean := reach.invariant (I := fun s => s.stage = .erased ∨ s.stage = .unsubscribed → s.Clean)
    (by rintro (erased | unsubscribed) <;> contradiction) clean_step
  exact (clean (.inr finished)).entry

def frame : RtmpMessage :=
  { type := .audioData, streamId := 1, channelId := 6, timestamp := 0, payload := some [0x2f] }

/-- A delivery, a call that passed its check, and the teardown after both. -/
def orderly : Teardown :=
  List.foldl step { maxQueueBytes := 0 }
    [.deliverToSubscriber true none frame, .enqueueAsyncMessage frame false, .proceed 0, .tearDown, .proceed 1,
      .proceed 0, .proceed 1, .tearDown, .tearDown]

theorem teardown_leaves_no_queue_orderly : orderly.stage = .unsubscribed ∧ orderly.entry = none := by
  refine ⟨by decide, teardown_leaves_no_queue
    (Transition.Reach.start.along ⟨?_, trivial, trivial, ?_, trivial, trivial,
    trivial, ?_, ?_, trivial⟩) (by decide)⟩
  · rintro ⟨⟩
  · rintro ⟨⟩
  · intro _
    show ∀ sender ∈ [_, _], _
    simp
  · rintro ⟨⟩

/-- A fan-out between the erasure and the end of the teardown. -/
def lateFanOut : Teardown :=
  List.foldl step { maxQueueBytes := 0 }
    [.tearDown, .tearDown, .deliverToSubscriber true none frame, .proceed 0, .proceed 0, .tearDown]

/-- A call that passed its check before the teardown and pushes after it. -/
def lateCall : Teardown :=
  List.foldl step { maxQueueBytes := 0 }
    [.enqueueAsyncMessage frame false, .tearDown, .tearDown, .tearDown, .proceed 0, .proceed 0]

theorem queue_left_behind :
    (lateFanOut.stage = .unsubscribed ∧ (∀ sender ∈ lateFanOut.senders, sender.messages = []) ∧
        lateFanOut.entry.isSome = true) ∧
      lateCall.stage = .unsubscribed ∧ (∀ sender ∈ lateCall.senders, sender.messages = []) ∧
        lateCall.entry.isSome = true := by
  refine ⟨⟨by decide, ?_, by decide⟩, by decide, ?_, by decide⟩
  · show ∀ sender ∈ [_], _
    simp
  · show ∀ sender ∈ [_], _
    simp

end Teardown

end Fms
