import Fms.Base.Numbering
import Fms.Base.Transition
import Fms.Connection.RtmpConnection
import Mathlib

namespace Fms
open ByteWire Numbering

namespace ConnectionLog

/-- The messages that were shed by the queue or dropped for want of room. -/
def lost (log : ConnectionLog) : List Nat := log.shed ++ log.dropped

/-- What was serialized and what waits are all messages so far that were not lost, in order. -/
structure Lines (log : ConnectionLog) (waiting : List Handed) : Prop where
  inLine : InLine Handed.number log.handed.length log.lost (log.serialized ++ waiting)
  names : ∀ h ∈ log.serialized ++ waiting, log.handed[h.number]? = some h.msg

/-- The line holds, in order, all of the first messages that were not lost, as many as stated;
what is handed over or lost later does not change that. -/
structure Settled (log : ConnectionLog) (count : Nat) (line : List Handed) : Prop where
  numbers : line.map Handed.number = (List.range count).filter (· ∉ log.lost)
  names : ∀ h ∈ line, log.handed[h.number]? = some h.msg
  below : count ≤ log.handed.length

/-- A close message was taken from the queue: everything before it was serialized, what waits
came after it. -/
structure Ended (log : ConnectionLog) (number : Nat) (waiting : List Handed) : Prop where
  closes : ∃ msg, log.handed[number]? = some msg ∧ msg.type = .close
  settled : log.Settled number log.serialized
  later : ∀ h ∈ waiting, number < h.number

variable {log : ConnectionLog} {waiting front back kept rest line : List Handed} {h : Handed} {msg : RtmpMessage}
  {number count : Nat}

theorem getElem?_hand {place : Nat} {found : RtmpMessage} (before : log.handed[place]? = some found) :
    (log.handed ++ [msg])[place]? = some found := by
  rw [List.getElem?_append_left (List.getElem?_eq_some_iff.mp before).1, before]

theorem Settled.hand (settled : log.Settled count line) :
    Settled { log with handed := log.handed ++ [msg] } count line := by
  refine ⟨settled.numbers, fun h member => getElem?_hand (settled.names h member), ?_⟩
  rw [List.length_append]
  exact settled.below.trans (Nat.le_add_right ..)

theorem Settled.lose (settled : log.Settled count line) {shed dropped : List Nat}
    (gone : ∀ n < count, n ∈ shed ++ dropped ↔ n ∈ log.lost) :
    Settled { log with shed := shed, dropped := dropped } count line := by
  refine ⟨settled.numbers.trans (List.filter_congr fun n inside => ?_), settled.names, settled.below⟩
  exact decide_eq_decide.mpr (not_congr (gone n (List.mem_range.mp inside)).symm)

theorem Lines.settled (lines : log.Lines waiting) : log.Settled log.handed.length (log.serialized ++ waiting) :=
  ⟨lines.inLine.numbers, lines.names, le_rfl⟩

theorem Lines.hand (lines : log.Lines waiting) :
    Lines { log with handed := log.handed ++ [msg] } (waiting ++ [⟨log.handed.length, msg⟩]) := by
  refine ⟨?_, fun h member => ?_⟩
  · simp only [List.length_append, List.length_singleton, ← List.append_assoc]
    exact lines.inLine.join rfl
  · rw [← List.append_assoc] at member
    rcases List.mem_append.mp member with before | now
    · exact getElem?_hand (lines.names h before)
    · rw [List.mem_singleton.mp now]
      exact List.getElem?_concat_length

theorem Lines.serialize (lines : log.Lines (front ++ rest)) :
    Lines { log with serialized := log.serialized ++ front } rest := by
  have same : log.serialized ++ (front ++ rest) = (log.serialized ++ front) ++ rest := (List.append_assoc ..).symm
  exact ⟨same ▸ lines.inLine, same ▸ lines.names⟩

theorem Lines.lose (lines : log.Lines (front ++ back)) (sub : kept.Sublist back) {shed dropped : List Nat}
    (gone : ∀ n, n ∈ shed ++ dropped ↔ n ∈ log.lost ++ (back.map Handed.number).filter (· ∉ kept.map Handed.number)) :
    Lines { log with shed := shed, dropped := dropped } (front ++ kept) := by
  refine ⟨?_, fun h member => lines.names h ?_⟩
  · have inLine := lines.inLine
    rw [← List.append_assoc] at inLine ⊢
    exact (inLine.lose sub).congr gone
  · exact ((List.Sublist.refl log.serialized).append ((List.Sublist.refl front).append sub)).subset member

theorem Lines.shed (lines : log.Lines (front ++ back)) (sub : kept.Sublist back) :
    Lines { log with shed := log.shed ++ (back.map Handed.number).filter (· ∉ kept.map Handed.number) }
      (front ++ kept) := by
  refine lines.lose sub fun n => ?_
  simp only [lost, List.mem_append]
  exact or_right_comm

theorem Lines.drop (lines : log.Lines (front ++ [h])) :
    Lines { log with dropped := log.dropped ++ [h.number] } front := by
  have after : Lines { log with dropped := log.dropped ++ [h.number] } (front ++ []) :=
    lines.lose (List.nil_sublist _) fun n => by simp [lost]
  rwa [List.append_nil] at after

theorem Lines.close (lines : log.Lines (h :: rest)) (closes : h.msg.type = .close) : log.Ended h.number rest := by
  obtain ⟨serialized, below, later⟩ := lines.inLine.cut
  exact ⟨⟨h.msg, lines.names h (by simp), closes⟩,
    ⟨serialized, fun other member => lines.names other (List.mem_append_left _ member), below.le⟩, later⟩

theorem Ended.below (ended : log.Ended number waiting) : number < log.handed.length := by
  obtain ⟨msg, found, _⟩ := ended.closes
  exact (List.getElem?_eq_some_iff.mp found).1

theorem Ended.hand (ended : log.Ended number waiting) :
    Ended { log with handed := log.handed ++ [msg] } number (waiting ++ [⟨log.handed.length, msg⟩]) := by
  obtain ⟨close, found, closes⟩ := ended.closes
  refine ⟨⟨close, getElem?_hand found, closes⟩, ended.settled.hand, fun h member => ?_⟩
  rcases List.mem_append.mp member with before | now
  · exact ended.later h before
  · rw [List.mem_singleton.mp now]
    exact ended.below

/-- What the queue sheds after that came after that. -/
theorem Ended.shed (ended : log.Ended number back) (sub : kept.Sublist back) :
    Ended { log with shed := log.shed ++ (back.map Handed.number).filter (· ∉ kept.map Handed.number) }
      number kept := by
  refine ⟨ended.closes, ended.settled.lose fun n below => ?_, fun h member => ended.later h (sub.subset member)⟩
  have apart : n ∉ back.map Handed.number := by
    intro member
    obtain ⟨h, waits, rfl⟩ := List.mem_map.mp member
    have later := ended.later h waits
    omega
  simp only [lost, List.mem_append, List.mem_filter, apart, false_and, or_false]

end ConnectionLog

namespace RtmpConnection
open ConnectionLog

/-- No close message has come up. -/
structure Running (c : RtmpConnection) : Prop where
  closedBy : c.log.closedBy = none
  toClose : c.toClose = false
  closing : c.closing = false
  lines : c.log.Lines c.waiting
  idle : c.writeInProgress = false → c.outputBuffer = [] ∧ c.preAppResults = []
  writes : c.log.writes = if c.writeInProgress then 1 else 0
  noApp : c.app = false → c.queue.msgs = []

/-- A close message has come up behind the write in flight. -/
structure Doomed (c : RtmpConnection) (number : Nat) : Prop where
  closedBy : c.log.closedBy = some number
  toClose : c.toClose = true
  closing : c.closing = false
  app : c.app = true
  preApp : c.preAppResults = []
  ended : c.log.Ended number c.queue.msgs
  flying : c.writeInProgress = true
  writes : c.log.writes = 1

/-- The socket is closed: for a close message, or for a full queue or a failed write. -/
structure Gone (c : RtmpConnection) : Prop where
  closing : c.closing = true
  erased : c.queue.msgs = []
  writes : c.log.writes = 0 ∨ c.log.writes = 1 ∧ c.writeInProgress = true
  ended : ∀ number, c.log.closedBy = some number →
    (∃ msg, c.log.handed[number]? = some msg ∧ msg.type = .close) ∧ c.log.Settled number c.log.serialized
  cutOff : c.log.closedBy = none → (c.closePosted = true ∨ c.log.failed = true) ∧
    c.log.Settled c.log.handedOpen (c.log.serialized ++ c.log.cutOff)

def Orderly (c : RtmpConnection) : Prop := c.Running ∨ (∃ number, c.Doomed number) ∨ c.Gone

/-- `handle_notify` may start: no write is in flight. -/
structure Ready (c : RtmpConnection) : Prop where
  closedBy : c.log.closedBy = none
  toClose : c.toClose = false
  closing : c.closing = false
  lines : c.log.Lines c.waiting
  landed : c.writeInProgress = false
  buffer : c.outputBuffer = []
  writes : c.log.writes = 0
  noApp : c.app = false → c.queue.msgs = []

variable {c : RtmpConnection} {channel : UInt32} {msg : RtmpMessage} {number : Nat}

theorem Running.ready (running : c.Running) (landed : c.writeInProgress = false) : c.Ready := by
  refine ⟨running.closedBy, running.toClose, running.closing, running.lines, landed, (running.idle landed).1, ?_,
    running.noApp⟩
  rw [running.writes, landed]
  rfl

theorem map_own (done : List Handed) : (done.map Handed.own).map Prod.snd = done := by
  simp [Handed.own, Function.comp_def]

theorem close_gone (opened : c.closing = false)
    (writes : c.log.writes = 0 ∨ c.log.writes = 1 ∧ c.writeInProgress = true)
    (ended : ∀ number, c.log.closedBy = some number → c.log.Ended number c.queue.msgs)
    (cut : c.log.closedBy = none → (c.closePosted = true ∨ c.log.failed = true) ∧ c.log.Lines c.waiting) :
    c.close.Gone := by
  rw [RtmpConnection.close, if_neg (by simp [opened])]
  refine ⟨rfl, rfl, writes, fun number closed => ?_, fun none => ?_⟩
  · obtain ⟨closes, ⟨numbers, names, below⟩, _⟩ := ended number closed
    exact ⟨closes, numbers, names, below⟩
  · obtain ⟨cause, lines⟩ := cut none
    obtain ⟨numbers, names, below⟩ := lines.settled
    exact ⟨cause, numbers, names, below⟩

/-- After a close message the close has nothing more to say. -/
theorem close_ended (opened : c.closing = false)
    (writes : c.log.writes = 0 ∨ c.log.writes = 1 ∧ c.writeInProgress = true)
    (closedBy : c.log.closedBy = some number) (ended : c.log.Ended number c.queue.msgs) : c.close.Gone := by
  refine close_gone opened writes (fun other closed => ?_) fun none => ?_
  · cases closedBy.symm.trans closed
    exact ended
  · cases closedBy.symm.trans none

theorem Ready.notified (ready : c.Ready) {after : RtmpConnection} (notified : Notified c after) : after.Orderly := by
  have lines := ready.lines
  rw [waiting] at lines
  cases notified with
  | preApp done rest parts =>
    rw [parts, List.map_append, List.append_assoc] at lines
    have later := lines.serialize
    refine .inl ⟨ready.closedBy, ready.toClose, ready.closing, ⟨later.inLine, later.names⟩,
      (fun none => by cases none), ?_, ready.noApp⟩
    simp [performWrite, serialized, ready.writes]
  | nothing preApp noApp =>
    refine .inl ⟨ready.closedBy, ready.toClose, ready.closing, lines, fun _ =>
      ⟨ready.buffer, preApp⟩, ?_, ready.noApp⟩
    rw [ready.writes, ready.landed]
    rfl
  | empty queue preApp app msgs =>
    rw [msgs] at lines
    refine .inl ⟨ready.closedBy, ready.toClose, ready.closing, lines, fun _ => ⟨ready.buffer, preApp⟩, ?_,
      fun none => absurd (none.symm.trans app) Bool.false_ne_true⟩
    show c.log.writes = _
    rw [ready.writes, show RtmpConnection.writeInProgress _ = false from ready.landed]
    rfl
  | batch done queue preApp app msgs =>
    rw [preApp, msgs, List.map_nil, List.nil_append] at lines
    have later := lines.serialize
    rw [← map_own done] at later
    refine .inl ⟨ready.closedBy, ready.toClose, ready.closing, ?_, (fun none => by cases none), ?_,
      fun none => absurd (none.symm.trans app) Bool.false_ne_true⟩
    · show Lines _ (c.preAppResults.map Prod.snd ++ queue.msgs)
      rw [preApp]
      exact ⟨later.inLine, later.names⟩
    · simp [performWrite, serialized, ready.writes]
  | close last queue preApp app closes msgs =>
    rw [preApp, msgs, List.map_nil, List.nil_append] at lines
    obtain ⟨found, ⟨numbers, names, below⟩, later⟩ := lines.close closes
    exact .inr (.inr (close_ended ready.closing (.inl ready.writes) rfl ⟨found, ⟨numbers, names, below⟩, later⟩))
  | lastBatch done last queue preApp app closes msgs =>
    rw [preApp, msgs, List.map_nil, List.nil_append] at lines
    have ended := lines.serialize.close closes
    rw [← map_own done] at ended
    obtain ⟨found, ⟨numbers, names, below⟩, later⟩ := ended
    refine .inr
      (.inl ⟨last.number, rfl, rfl, ready.closing, app, preApp, ⟨found, ⟨numbers, names, below⟩, later⟩, rfl, ?_⟩)
    simp [performWrite, serialized, ready.writes]

theorem Ready.handleNotify (ready : c.Ready) : c.handleNotify.Orderly :=
  ready.notified (handleNotify_notified ready.landed ready.closing)

/-- A message goes to the end of the queue, which may shed some or have the connection
destroyed. -/
theorem enqueueAsyncMessage_open (msg : RtmpMessage) (opened : c.closing = false) :
    ∃ (queue : AsyncQueue Handed) (posted : Bool), queue.msgs.Sublist (c.queue.msgs ++ [c.next msg]) ∧
      (c.hand msg).enqueueAsyncMessage (c.next msg) =
        { c with
          queue := queue
          closePosted := posted
          log := { c.log with
            handed := c.log.handed ++ [msg]
            shed := c.log.shed ++
              ((c.queue.msgs ++ [c.next msg]).map Handed.number).filter (· ∉ queue.msgs.map Handed.number) } } := by
  let pushed := c.queue.push Handed.msg c.maxQueueBytes (c.next msg) false
  refine ⟨pushed.queue, c.closePosted || pushed.overCap, AsyncQueue.push_sublist, ?_⟩
  unfold enqueueAsyncMessage
  rw [if_neg (by simp [hand, opened])]
  rfl

theorem Running.enqueue (running : c.Running) (app : c.app = true) :
    ((c.hand msg).enqueueAsyncMessage (c.next msg)).Running := by
  have lines : Lines { c.log with handed := c.log.handed ++ [msg] }
      (c.preAppResults.map Prod.snd ++ (c.queue.msgs ++ [c.next msg])) := by
    rw [← List.append_assoc]
    exact running.lines.hand
  obtain ⟨queue, posted, sub, enqueued⟩ := enqueueAsyncMessage_open msg running.closing
  rw [enqueued]
  exact ⟨running.closedBy, running.toClose, running.closing, lines.shed sub, running.idle, running.writes,
    fun none => absurd (none.symm.trans app) Bool.false_ne_true⟩

theorem Running.result (running : c.Running) : ((c.hand msg).handleAppResult channel (c.next msg)).Running := by
  have lines : Lines { c.log with handed := c.log.handed ++ [msg] } (c.waiting ++ [c.next msg]) := running.lines.hand
  unfold handleAppResult
  split
  · -- nothing waits, so that the message is the next one
    rename_i direct
    obtain ⟨landed, free⟩ : c.writeInProgress = false ∧ (c.app = false ∨ c.queue.msgs = []) := by
      simpa [hand] using direct
    have nothing : c.waiting = [] := by
      rw [waiting, (running.idle landed).2, free.elim running.noApp id]
      rfl
    rw [nothing, List.nil_append, ← List.append_nil [c.next msg]] at lines
    have after := lines.serialize
    rw [serializeMessage_open channel _ (by exact running.closing)]
    refine ⟨running.closedBy, running.toClose, running.closing, ?_, (fun none => by cases none), ?_, running.noApp⟩
    · show Lines _ c.waiting
      rw [nothing]
      exact ⟨after.inLine, after.names⟩
    · simp [performWrite, serialized, hand, running.writes, landed]
  · rename_i indirect
    split
    · rename_i app
      exact running.enqueue app
    · rename_i noApp
      have none : c.app = false := by simpa [hand] using noApp
      have flying : c.writeInProgress = true := by simpa [hand, none] using indirect
      have idle {P : Prop} (landed : c.writeInProgress = false) : P :=
        absurd (landed.symm.trans flying) Bool.false_ne_true
      have nothing := running.noApp none
      rw [waiting, nothing, List.append_nil] at lines
      split
      · refine ⟨running.closedBy, running.toClose, running.closing, ?_, idle, running.writes, running.noApp⟩
        show Lines _ ((c.preAppResults ++ [(channel, c.next msg)]).map Prod.snd ++ c.queue.msgs)
        rw [nothing, List.append_nil, List.map_append]
        exact lines
      · refine ⟨running.closedBy, running.toClose, running.closing, ?_, idle, running.writes, running.noApp⟩
        show Lines _ (c.preAppResults.map Prod.snd ++ c.queue.msgs)
        rw [nothing, List.append_nil]
        exact lines.drop

theorem Running.one (running : c.Running) (flying : c.log.writes ≠ 0) : c.log.writes = 1 := by
  have writes := running.writes
  split at writes
  · exact writes
  · exact absurd writes flying

theorem Running.writeCompletes (running : c.Running) (flying : c.log.writes ≠ 0) :
    (c.handleWritePacket false).Orderly := by
  have one := running.one flying
  unfold handleWritePacket
  simp only [Bool.false_eq_true, if_false, running.toClose]
  refine Ready.handleNotify ⟨running.closedBy, rfl, running.closing, ⟨running.lines.inLine, running.lines.names⟩, rfl,
    rfl, ?_, running.noApp⟩
  show c.log.writes - 1 = 0
  omega

theorem Running.writeFails (running : c.Running) (flying : c.log.writes ≠ 0) : (c.handleWritePacket true).Gone := by
  have one := running.one flying
  refine close_gone running.closing (.inl ?_) (fun number closed => ?_) fun _ => ⟨.inr rfl, ?_⟩
  · show c.log.writes - 1 = 0
    omega
  · cases running.closedBy.symm.trans closed
  · exact ⟨running.lines.inLine, running.lines.names⟩

/-- The close for which `destroy_connection` was called: what still waits is lost. -/
theorem Running.closeRuns (running : c.Running) (posted : c.closePosted = true) : c.close.Gone := by
  refine close_gone running.closing ?_ (fun number closed => ?_) fun _ => ⟨.inl posted, running.lines⟩
  · have writes := running.writes
    split at writes
    · rename_i flying
      exact .inr ⟨writes, flying⟩
    · exact .inl writes
  · cases running.closedBy.symm.trans closed

theorem Doomed.enqueue (doomed : c.Doomed number) :
    ((c.hand msg).enqueueAsyncMessage (c.next msg)).Doomed number := by
  have ended : Ended { c.log with handed := c.log.handed ++ [msg] } number (c.queue.msgs ++ [c.next msg]) :=
    doomed.ended.hand
  obtain ⟨queue, posted, sub, enqueued⟩ := enqueueAsyncMessage_open msg doomed.closing
  rw [enqueued]
  exact ⟨doomed.closedBy, doomed.toClose, doomed.closing, doomed.app, doomed.preApp, ended.shed sub, doomed.flying,
    doomed.writes⟩

theorem Doomed.close (doomed : c.Doomed number) : c.close.Gone :=
  close_ended doomed.closing (.inr ⟨doomed.writes, doomed.flying⟩) doomed.closedBy doomed.ended

theorem Doomed.handleWritePacket (doomed : c.Doomed number) (error : Bool) : (c.handleWritePacket error).Gone := by
  obtain ⟨found, ⟨numbers, names, below⟩, later⟩ := doomed.ended
  have landed : c.log.writes - 1 = 0 := by rw [doomed.writes]
  cases error with
  | true => exact close_ended doomed.closing (.inl landed) doomed.closedBy ⟨found, ⟨numbers, names, below⟩, later⟩
  | false =>
    unfold RtmpConnection.handleWritePacket
    simp only [Bool.false_eq_true, if_false, doomed.toClose, if_true]
    exact close_ended doomed.closing (.inl landed) doomed.closedBy ⟨found, ⟨numbers, names, below⟩, later⟩

theorem Gone.hand (gone : c.Gone) : (c.hand msg).Gone := by
  refine ⟨gone.closing, gone.erased, gone.writes, fun number closed => ?_, fun none => ?_⟩
  · obtain ⟨⟨close, found, closes⟩, settled⟩ := gone.ended number closed
    exact ⟨⟨close, getElem?_hand found, closes⟩, settled.hand⟩
  · obtain ⟨cause, settled⟩ := gone.cutOff none
    exact ⟨cause, settled.hand⟩

theorem Gone.enqueue (gone : c.Gone) {result : Handed} : c.enqueueAsyncMessage result = c := by
  rw [enqueueAsyncMessage, if_pos gone.closing]

/-- A write to the closed socket changes nothing that counts. -/
theorem Gone.performWrite (gone : c.Gone) (landed : c.writeInProgress = false) : c.performWrite.Gone := by
  have none : c.log.writes = 0 :=
    gone.writes.resolve_right fun flying => absurd (landed.symm.trans flying.2) Bool.false_ne_true
  refine ⟨gone.closing, gone.erased, .inr ⟨congrArg (· + 1) none, rfl⟩, fun number closed => ?_, fun none => ?_⟩
  · obtain ⟨found, numbers, names, below⟩ := gone.ended number closed
    exact ⟨found, numbers, names, below⟩
  · obtain ⟨cause, numbers, names, below⟩ := gone.cutOff none
    exact ⟨cause, numbers, names, below⟩

theorem Gone.result (gone : c.Gone) : ((c.hand msg).handleAppResult channel (c.next msg)).Gone := by
  have handed : (c.hand msg).Gone := gone.hand
  unfold handleAppResult
  split
  · rename_i direct
    obtain ⟨landed, _⟩ : c.writeInProgress = false ∧ (c.app = false ∨ c.queue.msgs = []) := by
      simpa [RtmpConnection.hand] using direct
    rw [serializeMessage_closed channel _ handed.closing]
    exact Gone.performWrite ⟨handed.closing, handed.erased, handed.writes, handed.ended, handed.cutOff⟩ landed
  · split
    · rw [handed.enqueue]
      exact handed
    · split
      · exact ⟨handed.closing, handed.erased, handed.writes, handed.ended, handed.cutOff⟩
      · -- the dropped message came after the close
        have later {count n : Nat} (below : count ≤ c.log.handed.length) (less : n < count) :
            n ∈ c.log.shed ++ (c.log.dropped ++ [(c.next msg).number]) ↔ n ∈ c.log.lost := by
          have other : n ≠ c.log.handed.length := by omega
          simp [lost, next, other]
        refine ⟨handed.closing, handed.erased, handed.writes, fun number closed => ?_, fun none => ?_⟩
        · obtain ⟨found, settled⟩ := handed.ended number closed
          exact ⟨found, settled.lose fun n less => later (gone.ended number closed).2.below less⟩
        · obtain ⟨cause, settled⟩ := handed.cutOff none
          exact ⟨cause, settled.lose fun n less => later (gone.cutOff none).2.below less⟩

theorem Gone.handleNotify (gone : c.Gone) : c.handleNotify.Gone := by
  unfold RtmpConnection.handleNotify
  split
  · exact gone
  · rename_i landed
    split
    · obtain ⟨writer, buffer, rest, drained⟩ := drainPreApp_closed c.preAppResults gone.closing
      rw [drained]
      refine Gone.performWrite ⟨gone.closing, gone.erased, gone.writes, gone.ended, gone.cutOff⟩ ?_
      exact Bool.eq_false_iff.mpr landed
    · split
      · rw [gone.erased]
        exact gone
      · exact gone

theorem Gone.handleWritePacket (gone : c.Gone) (error : Bool) : (c.handleWritePacket error).Gone := by
  have landed : c.log.writes - 1 = 0 := by
    rcases gone.writes with none | ⟨one, _⟩
    · rw [none]
    · rw [one]
  have after (failed inProgress : Bool) (buffer : Bytes) (stays : c.log.failed = true → failed = true) :
      Gone { c with
        writeInProgress := inProgress
        outputBuffer := buffer
        log := { c.log with writes := c.log.writes - 1, failed := failed } } := by
    refine ⟨gone.closing, gone.erased, .inl landed, fun number closed => ?_, fun none => ?_⟩
    · obtain ⟨found, numbers, names, below⟩ := gone.ended number closed
      exact ⟨found, numbers, names, below⟩
    · obtain ⟨cause, numbers, names, below⟩ := gone.cutOff none
      exact ⟨cause.imp_right stays, numbers, names, below⟩
  have closed {d : RtmpConnection} (gone : d.Gone) : d.close.Gone := by
    rw [RtmpConnection.close, if_pos gone.closing]
    exact gone
  unfold RtmpConnection.handleWritePacket
  cases error with
  | true => exact closed (after true c.writeInProgress c.outputBuffer fun _ => rfl)
  | false =>
    dsimp only
    rw [if_neg Bool.false_ne_true]
    split
    · exact closed (after c.log.failed false [] id)
    · exact (after c.log.failed false [] id).handleNotify

theorem Running.step (running : c.Running) (move : Move) : (c.step move).Orderly := by
  cases move with
  | setApp =>
    exact .inl ⟨running.closedBy, running.toClose, running.closing, running.lines, running.idle, running.writes,
      (fun none => by cases none)⟩
  | enqueue msg =>
    simp only [RtmpConnection.step]
    split
    · rename_i app
      exact .inl (running.enqueue app)
    · exact .inl running
  | result channel msg => exact .inl running.result
  | notify =>
    cases landed : c.writeInProgress with
    | false => exact (running.ready landed).handleNotify
    | true =>
      rw [RtmpConnection.step, RtmpConnection.handleNotify, if_pos landed]
      exact .inl running
  | writeCompletes =>
    simp only [RtmpConnection.step]
    split
    · exact .inl running
    · rename_i flying
      exact running.writeCompletes flying
  | writeFails =>
    simp only [RtmpConnection.step]
    split
    · exact .inl running
    · rename_i flying
      exact .inr (.inr (running.writeFails flying))
  | closeRuns =>
    simp only [RtmpConnection.step]
    split
    · rename_i posted
      exact .inr (.inr (running.closeRuns posted))
    · exact .inl running

theorem Doomed.step (doomed : c.Doomed number) (move : Move) : (c.step move).Doomed number ∨ (c.step move).Gone := by
  have flying : c.log.writes ≠ 0 := by
    rw [doomed.writes]
    exact one_ne_zero
  cases move with
  | setApp =>
    exact .inl ⟨doomed.closedBy, doomed.toClose, doomed.closing, rfl, doomed.preApp, doomed.ended, doomed.flying,
      doomed.writes⟩
  | enqueue msg =>
    simp only [RtmpConnection.step, doomed.app, if_true]
    exact .inl doomed.enqueue
  | result channel msg =>
    have queues : (c.hand msg).handleAppResult channel (c.next msg) =
        (c.hand msg).enqueueAsyncMessage (c.next msg) := by
      rw [handleAppResult, if_neg (by simp [hand, doomed.flying]), if_pos (by exact doomed.app)]
    rw [RtmpConnection.step, queues]
    exact .inl doomed.enqueue
  | notify =>
    rw [RtmpConnection.step, RtmpConnection.handleNotify, if_pos doomed.flying]
    exact .inl doomed
  | writeCompletes =>
    rw [RtmpConnection.step, if_neg flying]
    exact .inr (doomed.handleWritePacket false)
  | writeFails =>
    rw [RtmpConnection.step, if_neg flying]
    exact .inr (doomed.handleWritePacket true)
  | closeRuns =>
    simp only [RtmpConnection.step]
    split
    · exact .inr doomed.close
    · exact .inl doomed

theorem Gone.step (gone : c.Gone) (move : Move) : (c.step move).Gone := by
  cases move with
  | setApp => exact ⟨gone.closing, gone.erased, gone.writes, gone.ended, gone.cutOff⟩
  | enqueue msg =>
    simp only [RtmpConnection.step]
    split
    · rw [gone.hand.enqueue]
      exact gone.hand
    · exact gone
  | result channel msg => exact gone.result
  | notify => exact gone.handleNotify
  | writeCompletes =>
    simp only [RtmpConnection.step]
    split
    · exact gone
    · exact gone.handleWritePacket false
  | writeFails =>
    simp only [RtmpConnection.step]
    split
    · exact gone
    · exact gone.handleWritePacket true
  | closeRuns =>
    simp only [RtmpConnection.step, RtmpConnection.close, gone.closing, if_true, ite_self]
    exact gone

theorem Orderly.step (orderly : c.Orderly) (move : Move) : (c.step move).Orderly := by
  rcases orderly with running | ⟨number, doomed⟩ | gone
  · exact running.step move
  · exact .inr ((doomed.step move).imp_left fun doomed => ⟨number, doomed⟩)
  · exact .inr (.inr (gone.step move))

theorem orderly_start {cap : UInt64} : Orderly { maxQueueBytes := cap } := by
  have lines : ({} : ConnectionLog).Lines [] := ⟨.empty, fun h member => absurd member List.not_mem_nil⟩
  exact .inl ⟨rfl, rfl, rfl, lines, fun _ => ⟨rfl, rfl⟩, rfl, fun _ => rfl⟩

def sent (c : RtmpConnection) : List Handed := c.log.serialized.filter fun h => !h.msg.refused

/-- The message with this number was neither lost nor refused by the serializer. -/
def passes (c : RtmpConnection) (n : Nat) : Bool := n ∉ c.log.lost && !c.log.handed[n]?.any RtmpMessage.refused

theorem numbers_passing {l : List Handed} {count : Nat} (settled : c.log.Settled count l) :
    (l.filter fun h => !h.msg.refused).map Handed.number = (List.range count).filter c.passes := by
  have same : (l.filter fun h => !h.msg.refused) = l.filter fun h =>
    !c.log.handed[h.number]?.any RtmpMessage.refused := by
    refine List.filter_congr fun h member => ?_
    rw [settled.names h member]
    rfl
  have outside : (l.filter fun h => !c.log.handed[h.number]?.any RtmpMessage.refused).map Handed.number =
      (l.map Handed.number).filter fun n => !c.log.handed[n]?.any RtmpMessage.refused := by
    rw [List.filter_map]
    rfl
  rw [same, outside, settled.numbers, List.filter_filter]
  exact List.filter_congr fun n _ => Bool.and_comm ..

/-- In every run, one write is in flight at most. While the connection is open and no close
message has come up, the messages sent and those that wait are, in order, all that were
handed over, without those that were shed, dropped or refused. After a close message, those
sent are exactly the ones before it. A connection that is closed without one was destroyed for
a queue over its cap, or a write of it failed; then the messages sent and those that waited at
that moment are exactly the ones handed over until then. -/
theorem replies_in_order {cap : UInt64} {c : RtmpConnection}
    (reach : Transition.Reach step (fun _ _ => True) { maxQueueBytes := cap } c) :
    c.log.writes ≤ 1 ∧ (∀ h ∈ c.sent, c.log.handed[h.number]? = some h.msg) ∧
      (c.log.closedBy = none → c.closing = false →
        (c.sent ++ c.waiting.filter fun h => !h.msg.refused).map Handed.number =
          (List.range c.log.handed.length).filter c.passes) ∧
      (∀ number, c.log.closedBy = some number →
        (∃ msg, c.log.handed[number]? = some msg ∧ msg.type = .close) ∧
          c.sent.map Handed.number = (List.range number).filter c.passes) ∧
      (c.log.closedBy = none → c.closing = true →
        (c.closePosted = true ∨ c.log.failed = true) ∧ c.log.handedOpen ≤ c.log.handed.length ∧
          (c.sent ++ c.log.cutOff.filter fun h => !h.msg.refused).map Handed.number =
            (List.range c.log.handedOpen).filter c.passes) := by
  have orderly := reach.invariant (I := Orderly) orderly_start fun _ orderly => orderly.step _
  have named {l : List Handed} (names : ∀ h ∈ c.log.serialized ++ l, c.log.handed[h.number]? = some h.msg) :
      ∀ h ∈ c.sent, c.log.handed[h.number]? = some h.msg := fun h member =>
    names h (List.mem_append_left _ (List.mem_of_mem_filter member))
  have passing {l : List Handed} {count : Nat} (settled : c.log.Settled count (c.log.serialized ++ l)) :
      (c.sent ++ l.filter fun h => !h.msg.refused).map Handed.number = (List.range count).filter c.passes := by
    rw [sent, ← List.filter_append]
    exact numbers_passing settled
  rcases orderly with running | ⟨number, doomed⟩ | gone
  · refine ⟨?_, named running.lines.names, fun _ _ => passing running.lines.settled, fun number closed => ?_,
      fun _ closing => ?_⟩
    · rw [running.writes]
      split <;> omega
    · cases running.closedBy.symm.trans closed
    · cases running.closing.symm.trans closing
  · refine ⟨doomed.writes.le, named (l := []) (by simpa using doomed.ended.settled.names), fun open_ => ?_,
      fun other closed => ?_, fun open_ => ?_⟩
    · cases doomed.closedBy.symm.trans open_
    · cases doomed.closedBy.symm.trans closed
      exact ⟨doomed.ended.closes, numbers_passing doomed.ended.settled⟩
    · cases doomed.closedBy.symm.trans open_
  · refine ⟨?_, ?_, fun _ opened => ?_, fun number closed => ?_, fun none _ => ?_⟩
    · rcases gone.writes with none | ⟨one, _⟩
      · rw [none]
        exact Nat.zero_le _
      · exact one.le
    · cases closed : c.log.closedBy with
      | none => exact named (gone.cutOff closed).2.names
      | some number => exact named (l := []) (by simpa using (gone.ended number closed).2.names)
    · cases gone.closing.symm.trans opened
    · obtain ⟨closes, settled⟩ := gone.ended number closed
      exact ⟨closes, numbers_passing settled⟩
    · obtain ⟨cause, settled⟩ := gone.cutOff none
      exact ⟨cause, settled.below, passing settled⟩

def reply (body : UInt8) : RtmpMessage :=
  { type := .invoke, streamId := 0, channelId := 3, timestamp := 0, payload := some [body] }

def closeMessage : RtmpMessage :=
  { type := .close, streamId := 0, channelId := 3, timestamp := 0, payload := some [] }

/-- Two results before the application, one of them behind a write; then a message and a close
message on the queue, and one more. -/
def shortLife : RtmpConnection :=
  List.foldl step { maxQueueBytes := 0 }
    [.result 3 (reply 1), .result 3 (reply 2), .setApp, .enqueue (reply 3), .enqueue closeMessage, .writeCompletes,
      .writeCompletes, .enqueue (reply 4), .writeCompletes, .notify]

/-- A small cap, and a write that does not complete: the second message behind it is one too
many, and both are lost with the connection. -/
def slowPeer : RtmpConnection :=
  List.foldl step { maxQueueBytes := 300 }
    [.setApp, .result 3 (reply 1), .enqueue (reply 2), .enqueue (reply 3), .closeRuns, .enqueue (reply 4), .notify]

theorem replies_in_order_closed :
    (shortLife.log.closedBy = some 3 ∧
      shortLife.sent.map Handed.number = (List.range 3).filter shortLife.passes) ∧
      slowPeer.closePosted = true ∧ slowPeer.sent.map Handed.number = [0] ∧
        slowPeer.log.cutOff.map Handed.number = [1, 2] ∧
        (slowPeer.sent ++ slowPeer.log.cutOff.filter fun h => !h.msg.refused).map Handed.number =
          (List.range slowPeer.log.handedOpen).filter slowPeer.passes := by
  have short : Transition.Reach step (fun _ _ => True) { maxQueueBytes := 0 } shortLife :=
    Transition.Reach.start.foldl fun _ _ _ => trivial
  have slow : Transition.Reach step (fun _ _ => True) { maxQueueBytes := 300 } slowPeer :=
    Transition.Reach.start.foldl fun _ _ _ => trivial
  have closed : shortLife.log.closedBy = some 3 := by decide
  refine ⟨⟨closed, ((replies_in_order short).2.2.2.1 3 closed).2⟩, by decide, by decide, by decide, ?_⟩
  exact ((replies_in_order slow).2.2.2.2 (by decide) (by decide)).2.2

/-- A reply whose body the encoder gives up on. -/
def unwritable : RtmpMessage := { type := .invoke, streamId := 0, channelId := 3, timestamp := 0, payload := none }

/-- It is handed over, neither shed nor dropped nor behind a close message, and nothing of it
is sent. -/
theorem reply_refused :
    let c := step { maxQueueBytes := 0 } (.result 3 unwritable)
    c.log.handed = [unwritable] ∧ c.log.lost = [] ∧ c.log.closedBy = none ∧ c.waiting = [] ∧ c.sent = [] ∧
      c.log.written = [] := by
  refine ⟨rfl, rfl, rfl, rfl, rfl, rfl⟩

end RtmpConnection

end Fms
