import Fms.App.SendQueue
import Fms.Base.Dict
import Fms.Base.Numbering
import Fms.Base.Transition

namespace Fms

/-- A queued message and how many were pushed onto its queue before it. -/
structure Posted where
  message : RtmpMessage
  urgent : Bool
  number : Nat

/-- A message that left its queue when so many had been pushed. -/
structure Departed where
  posted : Posted
  pushed : Nat

/-- A queue with its history: what was pushed onto it, what left it at the front and what was
shed. -/
structure Line where
  queue : AsyncQueue Posted := {}
  posts : List Posted := []
  departed : List Departed := []
  shed : List Posted := []

namespace Line

def pushed (line : Line) : Nat := line.posts.length

/-- The queue with a message at its end, or in front if it is urgent. -/
def entered (line : Line) (msg : RtmpMessage) (urgent : Bool) : List Posted :=
  if urgent then ⟨msg, urgent, line.pushed⟩ :: line.queue.msgs else line.queue.msgs ++ [⟨msg, urgent, line.pushed⟩]

def push (line : Line) (cap : UInt64) (msg : RtmpMessage) (urgent : Bool) : Line × Bool :=
  let after := line.queue.push Posted.message cap ⟨msg, urgent, line.pushed⟩ urgent
  let kept := after.queue.msgs.map Posted.number
  ({ line with
      queue := after.queue
      posts := line.posts ++ [⟨msg, urgent, line.pushed⟩]
      shed := line.shed ++ (line.entered msg urgent).filter fun x => x.number ∉ kept }, after.overCap)

def pop (line : Line) : Line :=
  match line.queue.pop Posted.message with
  | none => line
  | some (posted, queue) => { line with queue := queue, departed := line.departed ++ [⟨posted, line.pushed⟩] }

end Line

/-- Where a call of `enqueue_async_message_unchecked` stands: before the look for an entry,
before the creation of one, or past its push with the bytes it left and whether they are too
many. -/
inductive EnqueuePhase
  | looking
  | missed
  | pushed (queueBytes : UInt64) (overCap : Bool)
  | done (queueBytes : UInt64)
  deriving DecidableEq

structure EnqueueCall where
  connectionId : UInt32
  msg : RtmpMessage
  urgent : Bool
  phase : EnqueuePhase := .looking

/-- The part of `rtmp_application` that queues messages, the calls in it and the connections
for which `destroy_connection` was called. -/
structure SendQueues where
  maxQueueBytes : UInt64
  asyncMessages : Dict UInt32 Line := ∅
  calls : List EnqueueCall := []
  destroyed : List UInt32 := []

namespace SendQueues

def lineOf (s : SendQueues) (connectionId : UInt32) : Line := (s.asyncMessages.lookup connectionId).getD {}

/-- The push of a call, onto the entry there is or a new one. -/
def push (s : SendQueues) (index : Nat) (call : EnqueueCall) : SendQueues :=
  let (line, overCap) := (s.lineOf call.connectionId).push s.maxQueueBytes call.msg call.urgent
  { s with
    asyncMessages := s.asyncMessages.insert call.connectionId line
    calls := s.calls.set index { call with phase := .pushed line.queue.bytes overCap } }

/-- The next step of a call. -/
def proceed (s : SendQueues) (index : Nat) : SendQueues :=
  match s.calls[index]? with
  | none => s
  | some call => match call.phase with
    | .looking =>
      if call.connectionId ∈ s.asyncMessages then s.push index call
      else { s with calls := s.calls.set index { call with phase := .missed } }
    | .missed => s.push index call
    | .pushed queueBytes overCap =>
      { s with
        calls := s.calls.set index { call with phase := .done queueBytes }
        destroyed := if overCap then call.connectionId :: s.destroyed else s.destroyed }
    | .done _ => s

inductive Move
  | enqueueAsyncMessage (connectionId : UInt32) (msg : RtmpMessage) (urgent hasConnection : Bool)
  | proceed (index : Nat)
  | getAsyncMessage (connectionId : UInt32)
  | deleteConnection (connectionId : UInt32)

def step (s : SendQueues) : Move → SendQueues
  | .enqueueAsyncMessage connectionId msg urgent hasConnection =>
    if hasConnection then
      { s with calls := s.calls ++ [{ connectionId := connectionId, msg := msg, urgent := urgent }] }
    else s
  | .proceed index => s.proceed index
  | .getAsyncMessage connectionId => match s.asyncMessages.lookup connectionId with
    | none => s
    | some line => { s with asyncMessages := s.asyncMessages.insert connectionId line.pop }
  | .deleteConnection connectionId => { s with asyncMessages := s.asyncMessages.erase connectionId }

/-- A message is pushed only where the counters of its queue have room for it. -/
def Move.Fits (s : SendQueues) : Move → Prop
  | .proceed index => ∀ call, s.calls[index]? = some call → call.phase = .looking ∨ call.phase = .missed →
      (s.lineOf call.connectionId).queue.Fits Posted.message s.maxQueueBytes
        ⟨call.msg, call.urgent, (s.lineOf call.connectionId).pushed⟩
  | _ => True

end SendQueues

/-- `x` is in front of `y`: it came first, or later as an urgent one. -/
def Posted.Before (x y : Posted) : Prop :=
  x.number < y.number ∧ y.urgent = false ∨ y.number < x.number ∧ x.urgent = true

/-- `x` was right to leave before `y`: it came first, and `y` is no urgent one that found it
waiting; or it came later as an urgent one. -/
def Departed.Before (x : Departed) (y : Posted) : Prop :=
  x.posted.number < y.number ∧ (y.urgent = true → x.pushed ≤ y.number) ∨
    y.number < x.posted.number ∧ x.posted.urgent = true

/-- Every message that was pushed left, waits or was shed; what was shed are video frames, and
nothing is without a cap. The messages that left and those that wait are in order. -/
structure Line.InOrder (line : Line) (cap : UInt64) : Prop where
  numbered : line.posts.map Posted.number = List.range line.pushed
  whole : (line.departed.map Departed.posted ++ line.queue.msgs ++ line.shed).Perm line.posts
  shed : ∀ x ∈ line.shed, cap ≠ 0 ∧ x.message.Droppable
  departed : line.departed.Pairwise fun x y => x.Before y.posted
  waiting : ∀ x ∈ line.departed, ∀ y ∈ line.queue.msgs, x.Before y
  queue : line.queue.msgs.Pairwise Posted.Before
  past : ∀ x ∈ line.departed, x.pushed ≤ line.pushed

namespace Line
variable {line : Line} {cap : UInt64} {msg : RtmpMessage} {urgent : Bool}

theorem InOrder.posted (order : line.InOrder cap) {x : Posted}
    (member : x ∈ line.departed.map Departed.posted ++ line.queue.msgs) : x.number < line.pushed := by
  have named := List.mem_map_of_mem (f := Posted.number) (order.whole.subset (List.mem_append_left _ member))
  rw [order.numbered] at named
  exact List.mem_range.mp named

theorem InOrder.gone (order : line.InOrder cap) {x : Departed} (gone : x ∈ line.departed) :
    x.posted.number < line.pushed :=
  order.posted (List.mem_append_left _ (List.mem_map_of_mem gone))

theorem InOrder.known (order : line.InOrder cap) {x : Posted}
    (waits : x ∈ line.queue.msgs) : x.number < line.pushed :=
  order.posted (List.mem_append_right _ waits)

theorem mem_entered {x : Posted} (member : x ∈ line.entered msg urgent) :
    x ∈ line.queue.msgs ∨ x = ⟨msg, urgent, line.pushed⟩ := by
  unfold entered at member
  split at member
  · exact (List.mem_cons.mp member).symm
  · exact (List.mem_append.mp member).imp_right List.mem_singleton.mp

theorem entered_perm : (line.entered msg urgent).Perm (line.queue.msgs ++ [⟨msg, urgent, line.pushed⟩]) := by
  unfold entered
  split
  · exact (List.perm_append_singleton ..).symm
  · exact List.Perm.refl _

theorem InOrder.entered (order : line.InOrder cap) : (line.entered msg urgent).Pairwise Posted.Before := by
  unfold Line.entered
  split
  · rename_i isUrgent
    exact List.pairwise_cons.mpr ⟨fun y waits => .inr ⟨order.known waits, isUrgent⟩, order.queue⟩
  · rename_i notUrgent
    refine List.pairwise_append.mpr ⟨order.queue, List.pairwise_singleton .., fun x waits y last => ?_⟩
    rw [List.mem_singleton.mp last]
    exact .inl ⟨order.known waits, Bool.not_eq_true _ ▸ notUrgent⟩

/-- The new message joins what waits, and what is shed of that joins what was shed. -/
theorem InOrder.whole_push (order : line.InOrder cap) :
    ((line.push cap msg urgent).1.departed.map Departed.posted ++ (line.push cap msg urgent).1.queue.msgs ++
      (line.push cap msg urgent).1.shed).Perm (line.push cap msg urgent).1.posts := by
  have distinct : ((line.entered msg urgent).map Posted.number).Nodup := by
    refine List.pairwise_map.mpr (order.entered.imp fun {x y} before => ?_)
    rcases before with ⟨less, _⟩ | ⟨more, _⟩
    · exact less.ne
    · exact more.ne'
  have parts : ((line.push cap msg urgent).1.queue.msgs ++ (line.entered msg urgent).filter fun x =>
      x.number ∉ (line.push cap msg urgent).1.queue.msgs.map Posted.number).Perm (line.entered msg urgent) :=
    Numbering.perm_lost AsyncQueue.push_sublist distinct
  exact Numbering.perm_join order.whole entered_perm parts

theorem InOrder.push (order : line.InOrder cap) : (line.push cap msg urgent).1.InOrder cap := by
  have kept : (line.push cap msg urgent).1.queue.msgs.Sublist (line.entered msg urgent) := AsyncQueue.push_sublist
  have longer : (line.push cap msg urgent).1.pushed = line.pushed + 1 := List.length_append
  refine ⟨?_, order.whole_push, fun x shed => ?_, order.departed, fun x gone y waits =>
    ?_, order.entered.sublist kept,
    fun x gone => ?_⟩
  · rw [longer, List.range_succ, ← order.numbered]
    exact List.map_append
  · rcases List.mem_append.mp shed with before | now
    · exact order.shed x before
    · obtain ⟨member, lost⟩ := List.mem_filter.mp now
      exact AsyncQueue.push_shed member fun here => of_decide_eq_true lost (List.mem_map_of_mem here)
  · rcases mem_entered (kept.subset waits) with before | rfl
    · exact order.waiting x gone y before
    · exact .inl ⟨order.gone gone, fun _ => order.past x gone⟩
  · rw [longer]
    exact Nat.le_succ_of_le (order.past x gone)

theorem pop_bytes (line : Line) : line.pop.queue.bytes ≤ line.queue.bytes := by
  unfold pop
  split
  · exact UInt64.le_refl _
  · rename_i posted queue popped
    unfold AsyncQueue.pop at popped
    split at popped
    · cases popped
    · cases popped
      simp only
      split
      · exact UInt64.zero_le
      · rename_i some_
        exact UInt64.sub_le (UInt64.le_of_lt (UInt64.not_le.mp some_))

theorem InOrder.pop (accounted : line.queue.Accounted Posted.message) (order : line.InOrder cap) :
    line.pop.queue.Accounted Posted.message ∧ line.pop.InOrder cap := by
  unfold Line.pop
  split
  · exact ⟨accounted, order⟩
  · rename_i posted queue popped
    have msgs := AsyncQueue.pop_msgs popped
    refine ⟨accounted.pop popped, ?_⟩
    have waiting := order.waiting
    have ordered := order.queue
    have whole := order.whole
    rw [msgs] at waiting ordered whole
    obtain ⟨first, others⟩ := List.pairwise_cons.mp ordered
    refine ⟨order.numbered, ?_, order.shed,
      List.pairwise_append.mpr ⟨order.departed, List.pairwise_singleton .., fun x gone y last => ?_⟩,
      fun x gone y waits => ?_, others, fun x gone => ?_⟩
    · simpa only [List.map_append, List.map_singleton, List.append_assoc, List.singleton_append] using whole
    · rw [List.mem_singleton.mp last]
      exact waiting x gone posted List.mem_cons_self
    · rcases List.mem_append.mp gone with before | now
      · exact waiting x before y (List.mem_cons_of_mem _ waits)
      · rw [List.mem_singleton.mp now]
        exact (first y waits).imp (fun ⟨less, calm⟩ => ⟨less, fun hurry => absurd (calm.symm.trans hurry) nofun⟩) id
    · rcases List.mem_append.mp gone with before | now
      · exact order.past x before
      · rw [List.mem_singleton.mp now]
        exact le_rfl

end Line

namespace SendQueues
variable {s : SendQueues} {index : Nat} {call : EnqueueCall}

/-- Every queue is accounted for and in order, and one over the cap has its connection
destroyed, or will have. -/
structure Kept (s : SendQueues) : Prop where
  accounted : ∀ id line, s.asyncMessages.lookup id = some line → line.queue.Accounted Posted.message
  order : ∀ id line, s.asyncMessages.lookup id = some line → line.InOrder s.maxQueueBytes
  bounded : s.maxQueueBytes ≠ 0 → ∀ id line, s.asyncMessages.lookup id = some line →
    line.queue.bytes ≤ s.maxQueueBytes ∨ id ∈ s.destroyed ∨
      ∃ call ∈ s.calls, call.connectionId = id ∧ ∃ queueBytes, call.phase = .pushed queueBytes true
  pushed : s.maxQueueBytes ≠ 0 → ∀ call ∈ s.calls, ∀ queueBytes overCap, call.phase = .pushed queueBytes overCap →
    queueBytes ≤ s.maxQueueBytes ∨ overCap = true
  done : s.maxQueueBytes ≠ 0 → ∀ call ∈ s.calls, ∀ queueBytes, call.phase = .done queueBytes →
    queueBytes ≤ s.maxQueueBytes ∨ call.connectionId ∈ s.destroyed

theorem mem_set_or {other : EnqueueCall} (next : EnqueueCall) (at_ : s.calls[index]? = some call)
    (member : other ∈ s.calls) : other ∈ s.calls.set index next ∨ other = call := by
  obtain ⟨place, found⟩ := List.mem_iff_getElem?.mp member
  by_cases same : index = place
  · subst same
    exact .inr (Option.some.inj (found.symm.trans at_))
  · exact .inl (List.mem_iff_getElem?.mpr ⟨place, by rw [List.getElem?_set_ne same, found]⟩)

theorem Kept.lineOf (kept : s.Kept) (id : UInt32) :
    (s.lineOf id).queue.Accounted Posted.message ∧ (s.lineOf id).InOrder s.maxQueueBytes := by
  unfold SendQueues.lineOf
  cases found : s.asyncMessages.lookup id with
  | none => exact ⟨⟨rfl, rfl⟩, ⟨rfl, .refl _, by simp, .nil, by simp, .nil, by simp⟩⟩
  | some line => exact ⟨kept.accounted id line found, kept.order id line found⟩

theorem Kept.push (kept : s.Kept) (at_ : s.calls[index]? = some call)
    (pending : call.phase = .looking ∨ call.phase = .missed)
    (fits : (s.lineOf call.connectionId).queue.Fits Posted.message s.maxQueueBytes
      ⟨call.msg, call.urgent, (s.lineOf call.connectionId).pushed⟩) : (s.push index call).Kept := by
  obtain ⟨accounted, order⟩ := kept.lineOf call.connectionId
  have notPushed : ∀ queueBytes overCap, call.phase ≠ .pushed queueBytes overCap := by
    rintro _ _ same
    rcases pending with looking | missed
    · cases looking.symm.trans same
    · cases missed.symm.trans same
  have here : ∀ next, next ∈ s.calls.set index next := List.mem_set (List.getElem?_eq_some_iff.mp at_).1
  refine ⟨fun id line found => ?_, fun id line found => ?_, fun limited id line found => ?_,
    fun limited other member queueBytes overCap is => ?_, fun limited other member queueBytes is => ?_⟩
  · rw [SendQueues.push, Dict.lookup_insert_if] at found
    split at found
    · cases found
      exact accounted.push fits
    · exact kept.accounted id line found
  · rw [SendQueues.push, Dict.lookup_insert_if] at found
    split at found
    · cases found
      exact order.push
    · exact kept.order id line found
  · rw [SendQueues.push, Dict.lookup_insert_if] at found
    split at found
    · rename_i same
      cases found
      refine (AsyncQueue.push_bounded limited).imp_right fun excess => .inr ⟨_, here _, same.symm, ?_⟩
      exact ⟨_, congrArg (EnqueuePhase.pushed _) excess⟩
    · refine (kept.bounded limited id line found).imp_right (Or.imp_right ?_)
      rintro ⟨other, member, same, queueBytes, is⟩
      rcases mem_set_or _ at_ member with stays | rfl
      · exact ⟨other, stays, same, queueBytes, is⟩
      · exact absurd is (notPushed _ _)
  · rcases List.mem_or_eq_of_mem_set member with before | rfl
    · exact kept.pushed limited other before queueBytes overCap is
    · cases is
      exact AsyncQueue.push_bounded limited
  · rcases List.mem_or_eq_of_mem_set member with before | rfl
    · exact kept.done limited other before queueBytes is
    · cases is

theorem Kept.proceed (kept : s.Kept) (fits : Move.Fits s (.proceed index)) : (s.proceed index).Kept := by
  unfold SendQueues.proceed
  split
  · exact kept
  · rename_i call at_
    split
    · rename_i looking
      split
      · exact kept.push at_ (.inl looking) (fits call at_ (.inl looking))
      · refine ⟨kept.accounted, kept.order, fun limited id line found => ?_,
          fun limited other member queueBytes overCap is => ?_, fun limited other member queueBytes is => ?_⟩
        · refine (kept.bounded limited id line found).imp_right (Or.imp_right ?_)
          rintro ⟨other, member, same, queueBytes, is⟩
          rcases mem_set_or _ at_ member with stays | rfl
          · exact ⟨other, stays, same, queueBytes, is⟩
          · cases looking.symm.trans is
        · rcases List.mem_or_eq_of_mem_set member with before | rfl
          · exact kept.pushed limited other before queueBytes overCap is
          · cases is
        · rcases List.mem_or_eq_of_mem_set member with before | rfl
          · exact kept.done limited other before queueBytes is
          · cases is
    · rename_i missed
      exact kept.push at_ (.inr missed) (fits call at_ (.inr missed))
    · rename_i queueBytes overCap pushed
      have callIn := List.mem_of_getElem? at_
      have grown {id : UInt32} (before : id ∈ s.destroyed) :
          id ∈ if overCap then call.connectionId :: s.destroyed else s.destroyed := by
        split
        · exact List.mem_cons_of_mem _ before
        · exact before
      refine ⟨kept.accounted, kept.order, fun limited id line found => ?_,
        fun limited other member bytes excess is => ?_, fun limited other member bytes is => ?_⟩
      · refine (kept.bounded limited id line found).imp_right fun what => ?_
        rcases what with before | ⟨other, member, same, bytes, is⟩
        · exact .inl (grown before)
        · rcases mem_set_or _ at_ member with stays | rfl
          · exact .inr ⟨other, stays, same, bytes, is⟩
          · cases pushed.symm.trans is
            rw [← same]
            exact .inl List.mem_cons_self
      · rcases List.mem_or_eq_of_mem_set member with before | rfl
        · exact kept.pushed limited other before bytes excess is
        · cases is
      · rcases List.mem_or_eq_of_mem_set member with before | rfl
        · exact (kept.done limited other before bytes is).imp_right grown
        · cases is
          refine (kept.pushed limited call callIn _ _ pushed).imp_right fun excess => ?_
          rw [if_pos excess]
          exact List.mem_cons_self
    · exact kept

theorem Kept.step (kept : s.Kept) {move : Move} (fits : move.Fits s) : (s.step move).Kept := by
  cases move with
  | enqueueAsyncMessage id msg urgent hasConnection =>
    simp only [SendQueues.step]
    split
    · refine ⟨kept.accounted, kept.order, fun limited id line found => ?_,
        fun limited other member queueBytes overCap is => ?_, fun limited other member queueBytes is => ?_⟩
      · refine (kept.bounded limited id line found).imp_right (Or.imp_right ?_)
        rintro ⟨other, member, rest⟩
        exact ⟨other, List.mem_append_left _ member, rest⟩
      · rcases List.mem_append.mp member with before | new
        · exact kept.pushed limited other before queueBytes overCap is
        · cases List.mem_singleton.mp new
          cases is
      · rcases List.mem_append.mp member with before | new
        · exact kept.done limited other before queueBytes is
        · cases List.mem_singleton.mp new
          cases is
    · exact kept
  | proceed index => exact kept.proceed fits
  | getAsyncMessage id =>
    simp only [SendQueues.step]
    split
    · exact kept
    · rename_i line found
      have popped := (kept.order id line found).pop (kept.accounted id line found)
      have here {other : UInt32} {after : Line} (now :
        (s.asyncMessages.insert id line.pop).lookup other = some after) :
          other = id ∧ after = line.pop ∨ s.asyncMessages.lookup other = some after := by
        rw [Dict.lookup_insert_if] at now
        split at now
        · rename_i same
          exact .inl ⟨same, (Option.some.inj now).symm⟩
        · exact .inr now
      refine ⟨fun other after now => ?_, fun other after now => ?_, fun limited other after now =>
        ?_, kept.pushed, kept.done⟩
      · rcases here now with ⟨_, rfl⟩ | before
        · exact popped.1
        · exact kept.accounted other after before
      · rcases here now with ⟨_, rfl⟩ | before
        · exact popped.2
        · exact kept.order other after before
      · rcases here now with ⟨rfl, rfl⟩ | before
        · exact (kept.bounded limited other line found).imp_left (UInt64.le_trans line.pop_bytes)
        · exact kept.bounded limited other after before
  | deleteConnection id =>
    have here {other : UInt32} {line : Line} (now : (s.asyncMessages.erase id).lookup other = some line) :
        s.asyncMessages.lookup other = some line := by
      rw [Dict.lookup_erase_if] at now
      split at now
      · cases now
      · exact now
    exact ⟨fun other line now => kept.accounted other line (here now), fun other line now =>
      kept.order other line (here now),
      fun limited other line now => kept.bounded limited other line (here now), kept.pushed, kept.done⟩

theorem maxQueueBytes_step (move : Move) : (s.step move).maxQueueBytes = s.maxQueueBytes := by
  cases move with
  | enqueueAsyncMessage id msg urgent hasConnection =>
    simp only [step]
    split <;> rfl
  | proceed index =>
    simp only [step, proceed]
    split
    · rfl
    · split
      · split <;> rfl
      all_goals rfl
  | getAsyncMessage id =>
    simp only [step]
    split <;> rfl
  | deleteConnection id => rfl

/-- As long as no push overruns a counter, every queue is accounted for: its counters are exact,
each message that was pushed has left, waits or was shed as a video frame, and those that are
not shed leave in order. An enqueuing call that leaves more than the cap destroys the
connection. -/
theorem queues_accounted {cap : UInt64} {s : SendQueues}
    (reach : Transition.Reach step Move.Fits { maxQueueBytes := cap } s) :
    (∀ id line, s.asyncMessages.lookup id = some line →
      line.queue.count.toNat = line.queue.msgs.length ∧
        line.queue.bytes.toNat = AsyncQueue.charge Posted.message line.queue.msgs ∧ line.InOrder cap) ∧
      (cap ≠ 0 →
        (∀ call ∈ s.calls, ∀ queueBytes, call.phase = .done queueBytes →
          queueBytes ≤ cap ∨ call.connectionId ∈ s.destroyed) ∧
        ∀ id line, s.asyncMessages.lookup id = some line →
          line.queue.bytes ≤ cap ∨ id ∈ s.destroyed ∨
            ∃ call ∈ s.calls, call.connectionId = id ∧ ∃ queueBytes, call.phase = .pushed queueBytes true) := by
  obtain ⟨kept, rfl⟩ := reach.invariant (I := fun s => s.Kept ∧ s.maxQueueBytes = cap)
    ⟨⟨nofun, nofun, nofun, nofun, nofun⟩, rfl⟩
    fun {s move} fits ⟨kept, same⟩ => ⟨kept.step fits, (maxQueueBytes_step move).trans same⟩
  refine ⟨fun id line found => ?_, fun limited => ⟨kept.done limited, kept.bounded limited⟩⟩
  have accounted := kept.accounted id line found
  exact ⟨accounted.count, accounted.bytes, kept.order id line found⟩

def interFrame : RtmpMessage :=
  { type := .videoData, streamId := 1, channelId := 6, timestamp := 0, payload := some [0x22, 1] }

def command : RtmpMessage :=
  { type := .invoke, streamId := 1, channelId := 3, timestamp := 0, payload := some [] }

/-- Two inter frames, the second of which has both shed, and a command that is too much. -/
def slowConsumer : List Move :=
  [.enqueueAsyncMessage 1 interFrame false true, .proceed 0, .proceed 0, .enqueueAsyncMessage 1 interFrame false true,
    .proceed 1, .enqueueAsyncMessage 1 command true true, .proceed 2, .proceed 2]

theorem queues_accounted_slowConsumer :
    let s := slowConsumer.foldl step { maxQueueBytes := 40 }
    s.destroyed = [1] ∧ ∃ line, s.asyncMessages.lookup 1 = some line ∧ line.shed.map Posted.number = [0, 1] ∧
      line.queue.count.toNat = line.queue.msgs.length ∧
      (line.departed.map Departed.posted ++ line.queue.msgs ++ line.shed).Perm line.posts := by
  have reach : Transition.Reach step Move.Fits { maxQueueBytes := 40 }
      (slowConsumer.foldl step { maxQueueBytes := 40 }) := by
    refine Transition.Reach.start.along ⟨trivial, ?_, ?_, trivial, ?_, trivial, ?_, ?_, trivial⟩
    · rintro call ⟨⟩ _
      exact ⟨by decide, .inl (by decide)⟩
    · rintro call ⟨⟩ _
      exact ⟨by decide, .inl (by decide)⟩
    · rintro call ⟨⟩ _
      exact ⟨by decide, .inl (by decide)⟩
    · rintro call ⟨⟩ _
      exact ⟨by decide, .inl (by decide)⟩
    · rintro call ⟨⟩ past
      exact absurd past (by decide)
  obtain ⟨count, _, order⟩ := (queues_accounted reach).1 1 _ rfl
  exact ⟨by decide, _, rfl, by decide, count, order.whole⟩

def commandCall : EnqueueCall := { connectionId := 1, msg := command, urgent := false }

theorem any_number (n : Nat) : ∃ s, Transition.Reach step (fun _ _ => True) { maxQueueBytes := 0 } s ∧
    s.maxQueueBytes = 0 ∧ ∃ line, s.asyncMessages.lookup 1 = some line ∧ line.queue.msgs.length = n + 1 ∧
      line.queue.count = UInt32.ofNat (n + 1) := by
  induction n with
  | zero =>
    have run : List.foldl step { maxQueueBytes := 0 }
        [.enqueueAsyncMessage 1 command false true, .proceed 0, .proceed 0] =
      { maxQueueBytes := 0
        asyncMessages := (∅ : Dict UInt32 Line).insert 1 (({} : Line).push 0 command false).1
        calls := [{ connectionId := 1, msg := command, urgent := false, phase := .pushed 256 false }] } := rfl
    exact ⟨_, run ▸ Transition.Reach.start.foldl fun _ _ _ => trivial, rfl, _, rfl, rfl, rfl⟩
  | succ n ih =>
    obtain ⟨s, reach, unbounded, line, found, length, count⟩ := ih
    have entry : (1 : UInt32) ∈ s.asyncMessages := AList.lookup_isSome.mp (by rw [found]; rfl)
    refine ⟨_, (reach.next (.enqueueAsyncMessage 1 command false true) trivial).next
      (.proceed s.calls.length) trivial, ?_⟩
    have pushes : step (step s (.enqueueAsyncMessage 1 command false true)) (.proceed s.calls.length) =
        push { s with calls := s.calls ++ [commandCall] } s.calls.length commandCall := by
      show proceed { s with calls := s.calls ++ [commandCall] } s.calls.length = _
      rw [proceed, List.getElem?_concat_length]
      exact if_pos entry
    have same : lineOf { s with calls := s.calls ++ [commandCall] } 1 = line := by
      rw [lineOf, found]
      rfl
    rw [pushes]
    refine ⟨unbounded, _, AList.lookup_insert _, ?_⟩
    have calm : ¬(s.maxQueueBytes ≠ 0 ∧ line.queue.bytes + command.queuedSize > s.maxQueueBytes / 2) := fun limited =>
      limited.1 unbounded
    simp only [commandCall] at same ⊢
    simp only [same, AsyncQueue.push, if_neg calm]
    refine ⟨?_, ?_⟩
    · simp [length]
    · rw [count, UInt32.ofNat_add (n + 1) 1]
      rfl

theorem count_wraps : ∃ s, Transition.Reach step (fun _ _ => True) { maxQueueBytes := 0 } s ∧
    ∃ line, s.asyncMessages.lookup 1 = some line ∧ line.queue.count.toNat ≠ line.queue.msgs.length := by
  obtain ⟨s, reach, _, line, found, length, count⟩ := any_number (2 ^ 32 - 1)
  refine ⟨s, reach, line, found, ?_⟩
  rw [length, count]
  decide

end SendQueues

end Fms
