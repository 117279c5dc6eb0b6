import Fms.Connection.ReplyOrder
import Fms.Rtmp.RoundTrip

namespace Fms
open ByteWire Scan

/-- The wire can carry the message, or the serializer refuses it. -/
def RtmpMessage.Carried (msg : RtmpMessage) : Prop :=
  (∃ body, msg.Sendable body) ∨ msg.refused = true ∧ msg.type ≠ .chunkSize

theorem RtmpMessage.Sendable.accepted {msg : RtmpMessage} {body : Bytes} (sendable : msg.Sendable body) :
    msg.refused = false := by
  have limit := sendable.limit
  have length : (UInt32.ofNat body.length).toNat = body.length := toNat_word (by omega)
  simp only [RtmpMessage.refused, sendable.payload]
  refine decide_eq_false fun above => ?_
  have less := UInt32.lt_iff_toNat_lt.mp above
  rw [length] at less
  have most : RtmpHeader.eMaxMessageLength.toNat = 0xFFFFFF := rfl
  omega

namespace ChunkWriter
variable {w : ChunkWriter} {msg : RtmpMessage}

theorem serialize_refused (refused : msg.refused = true) (chunkSize : UInt32) (previous : RtmpHeader) :
    RtmpProtocol.serialize chunkSize msg previous = none := by
  unfold RtmpMessage.refused at refused
  unfold RtmpProtocol.serialize
  split at refused
  · rename_i none
    rw [none]
    rfl
  · rename_i payload some_
    rw [some_]
    exact if_pos (of_decide_eq_true refused)

/-- With its own channel, or without a trace, a message is compressed against the header last
sent on its chunk stream. -/
theorem serializeOn_own {channel : UInt32} (own : msg.channelId = channel ∨ msg.refused = true) :
    w.serializeOn channel msg = w.serializeMessage msg := by
  rcases own with rfl | refused
  · rfl
  · rw [serializeOn, serializeMessage, serialize_refused refused, serialize_refused refused]

theorem serializeEach_own {entries : List (UInt32 × RtmpMessage)}
    (own : ∀ entry ∈ entries, entry.2.channelId = entry.1 ∨ entry.2.refused = true) :
    w.serializeEach entries = w.serializeAll (entries.map Prod.snd) := by
  induction entries generalizing w with
  | nil => rfl
  | cons entry entries ih =>
    rw [serializeEach, List.map_cons, serializeAll, serializeOn_own (own entry List.mem_cons_self)]
    simp only [ih fun other later => own other (List.mem_cons_of_mem _ later)]

theorem serializeAll_append (first second : List RtmpMessage) :
    w.serializeAll (first ++ second) =
      (((w.serializeAll first).1.serializeAll second).1,
        (w.serializeAll first).2 ++ ((w.serializeAll first).1.serializeAll second).2) := by
  induction first generalizing w with
  | nil => rfl
  | cons msg first ih => simp only [List.cons_append, serializeAll, ih, List.append_assoc]

theorem serializeMessage_refused (refused : msg.refused = true) (plain : msg.type ≠ .chunkSize) :
    w.serializeMessage msg = (w, []) := by
  have none : announced msg = none := by
    unfold announced
    split
    · rename_i is _
      exact absurd is plain
    · rfl
  rw [serializeMessage, serialize_refused refused, announce, none]

theorem serializeAll_accepted {msgs : List RtmpMessage} (carried : ∀ msg ∈ msgs, msg.Carried) :
    w.serializeAll msgs = w.serializeAll (msgs.filter fun msg => !msg.refused) := by
  induction msgs generalizing w with
  | nil => rfl
  | cons msg msgs ih =>
    have later := fun {w} => ih (w := w) fun other member => carried other (List.mem_cons_of_mem _ member)
    rcases carried msg List.mem_cons_self with ⟨body, sendable⟩ | ⟨refused, plain⟩
    · rw [List.filter_cons_of_pos (by simp [sendable.accepted])]
      simp only [serializeAll, later]
    · rw [List.filter_cons_of_neg (by simp [refused]), serializeAll, serializeMessage_refused refused plain, ← later]
      rfl

theorem simulates_fresh (ids : Finset UInt32) : Simulates ids {} {} where
  readHeader := rfl
  framingError := rfl
  chunkSize := rfl
  positive := by decide
  sync := fun _ => ⟨rfl, rfl, fun named => absurd rfl named⟩
  known := fun id present => absurd present (AList.notMem_empty id)

end ChunkWriter

namespace RtmpConnection
open ChunkWriter RtmpParser

/-- A result that comes now is written with the sent header of its request's channel. -/
def takesChannel (c : RtmpConnection) : Bool :=
  if c.writeInProgress then !c.app && c.preAppResults.length < eMaxPreAppResults
  else !c.closing && (!c.app || c.queue.msgs.isEmpty)

/-- A result that is written with the header of its request's channel is for that channel. -/
def Move.Own (c : RtmpConnection) : Move → Prop
  | .result channel msg => c.takesChannel = true → msg.channelId = channel ∨ msg.refused = true
  | _ => True

variable {c : RtmpConnection} {channel : UInt32} {msg : RtmpMessage}

/-- The socket was given the messages so far, each compressed against the header last sent on
its own chunk stream, and the writer has these headers. -/
structure Framed (c : RtmpConnection) : Prop where
  written : c.log.written = (({} : ChunkWriter).serializeAll (c.log.serialized.map Handed.msg)).2
  writer : c.closing = false → c.writer = (({} : ChunkWriter).serializeAll (c.log.serialized.map Handed.msg)).1
  preApp : c.closing = false →
    ∀ entry ∈ c.preAppResults, entry.2.msg.channelId = entry.1 ∨ entry.2.msg.refused = true

theorem Framed.batch (framed : c.Framed) (opened : c.closing = false) (buffer : c.outputBuffer = [])
    {done : List (UInt32 × Handed)}
    (own : ∀ entry ∈ done, entry.2.msg.channelId = entry.1 ∨ entry.2.msg.refused = true) :
    c.log.written ++ (c.serialized done).outputBuffer =
        (({} : ChunkWriter).serializeAll ((c.serialized done).log.serialized.map Handed.msg)).2 ∧
      (c.serialized done).writer =
        (({} : ChunkWriter).serializeAll ((c.serialized done).log.serialized.map Handed.msg)).1 := by
  have each : ∀ entry ∈ done.map fun entry =>
    (entry.1, entry.2.msg), entry.2.channelId = entry.1 ∨ entry.2.refused = true := by
    intro entry member
    obtain ⟨source, inside, rfl⟩ := List.mem_map.mp member
    exact own source inside
  have msgs : (done.map fun entry => (entry.1, entry.2.msg)).map Prod.snd = (done.map Prod.snd).map Handed.msg := by
    simp [Function.comp_def]
  simp only [serialized, buffer, List.nil_append, List.map_append, ChunkWriter.serializeEach_own each, msgs,
    ChunkWriter.serializeAll_append, framed.writer opened, framed.written, and_self]

theorem own_own (done : List Handed) : ∀ entry ∈ done.map Handed.own,
    entry.2.msg.channelId = entry.1 ∨ entry.2.msg.refused = true := by
  intro entry member
  obtain ⟨h, _, rfl⟩ := List.mem_map.mp member
  exact .inl rfl

theorem performWrite_written (opened : c.closing = false) :
    c.performWrite.log.written = c.log.written ++ c.outputBuffer := by
  simp [performWrite, opened]

/-- A closed connection adds nothing to what the socket was given. -/
theorem Framed.closed (framed : c.Framed) {after : RtmpConnection} (closing : after.closing = true)
    (written : after.log.written = c.log.written) (serialized : after.log.serialized = c.log.serialized) :
    after.Framed := by
  refine ⟨?_, fun opened => ?_, fun opened => ?_⟩
  · rw [written, serialized]
    exact framed.written
  · cases opened.symm.trans closing
  · cases opened.symm.trans closing

theorem Framed.close (framed : c.Framed) : c.close.Framed := by
  unfold RtmpConnection.close
  split
  · exact framed
  · exact framed.closed rfl rfl rfl

theorem Framed.notified (framed : c.Framed) (opened : c.closing = false) (buffer : c.outputBuffer = [])
    {after : RtmpConnection} (notified : Notified c after) : after.Framed := by
  have preApp := framed.preApp opened
  cases notified with
  | preApp done rest parts =>
    have own := fun entry inside => preApp entry (parts ▸ List.mem_append_left rest inside)
    obtain ⟨written, writer⟩ := framed.batch opened buffer own
    refine ⟨?_, fun _ => writer, fun _ entry inside => preApp entry (parts ▸ List.mem_append_right done inside)⟩
    rw [performWrite_written (by exact opened)]
    exact written
  | nothing => exact framed
  | empty => exact ⟨framed.written, framed.writer, framed.preApp⟩
  | batch done queue =>
    obtain ⟨written, writer⟩ := framed.batch opened buffer (own_own done)
    refine ⟨?_, fun _ => writer, framed.preApp⟩
    rw [performWrite_written (by exact opened)]
    exact written
  | close last queue =>
    have before : Framed { c with queue := queue, log := { c.log with closedBy := some last.number } } :=
      ⟨framed.written, framed.writer, framed.preApp⟩
    exact before.close
  | lastBatch done last queue =>
    obtain ⟨written, writer⟩ := framed.batch opened buffer (own_own done)
    refine ⟨?_, fun _ => writer, framed.preApp⟩
    rw [performWrite_written (by exact opened)]
    exact written

theorem Framed.hand (framed : c.Framed) : (c.hand msg).Framed := ⟨framed.written, framed.writer, framed.preApp⟩

theorem Framed.enqueue (framed : c.Framed) {result : Handed} : (c.enqueueAsyncMessage result).Framed := by
  unfold enqueueAsyncMessage
  split
  · exact framed
  · exact ⟨framed.written, framed.writer, framed.preApp⟩

theorem Framed.result (framed : c.Framed) {result : Handed}
    (buffer : c.writeInProgress = false → c.closing = false → c.outputBuffer = [])
    (own : c.takesChannel = true → result.msg.channelId = channel ∨ result.msg.refused = true) :
    (c.handleAppResult channel result).Framed := by
  unfold handleAppResult
  split
  · rename_i direct
    obtain ⟨landed, free⟩ : c.writeInProgress = false ∧ (c.app = false ∨ c.queue.msgs = []) := by simpa using direct
    cases closing : c.closing with
    | true =>
      rw [serializeMessage_closed channel result closing]
      exact framed.closed closing (by simp [performWrite, closing]) rfl
    | false =>
      have right : ∀ entry ∈ [(channel, result)], entry.2.msg.channelId = entry.1 ∨ entry.2.msg.refused = true := by
        intro entry member
        rw [List.mem_singleton.mp member]
        exact own (by simpa [takesChannel, closing, landed] using free)
      obtain ⟨written, writer⟩ := framed.batch closing (buffer landed closing) right
      rw [serializeMessage_open channel result closing]
      refine ⟨?_, fun _ => writer, framed.preApp⟩
      rw [performWrite_written (by exact closing)]
      exact written
  · rename_i indirect
    split
    · exact framed.enqueue
    · rename_i noApp
      split
      · rename_i room
        have none : c.app = false := by simpa using noApp
        have flying : c.writeInProgress = true := by simpa [none] using indirect
        refine ⟨framed.written, framed.writer, fun opened entry member => ?_⟩
        rcases List.mem_append.mp member with before | now
        · exact framed.preApp opened entry before
        · rw [List.mem_singleton.mp now]
          exact own (by simp [takesChannel, flying, none, room])
      · exact ⟨framed.written, framed.writer, framed.preApp⟩

theorem Orderly.buffer (orderly : c.Orderly) (landed : c.writeInProgress = false) (opened : c.closing = false) :
    c.outputBuffer = [] := by
  rcases orderly with running | ⟨number, doomed⟩ | gone
  · exact (running.idle landed).1
  · exact absurd (landed.symm.trans doomed.flying) Bool.false_ne_true
  · exact absurd (opened.symm.trans gone.closing) Bool.false_ne_true

theorem Framed.handleNotify_closed (framed : c.Framed) (closing : c.closing = true) (erased : c.queue.msgs = []) :
    c.handleNotify.Framed := by
  unfold RtmpConnection.handleNotify
  split
  · exact framed
  · split
    · obtain ⟨writer, buffer, rest, drained⟩ := drainPreApp_closed c.preAppResults closing
      rw [drained]
      exact framed.closed closing (by simp [performWrite, closing]) rfl
    · rw [erased]
      split <;> exact framed

theorem Framed.handleNotify (framed : c.Framed) (orderly : c.Orderly) : c.handleNotify.Framed := by
  cases landed : c.writeInProgress with
  | true =>
    rw [RtmpConnection.handleNotify, if_pos landed]
    exact framed
  | false =>
    cases closing : c.closing with
    | false => exact framed.notified closing (orderly.buffer landed closing) (handleNotify_notified landed closing)
    | true =>
      rcases orderly with running | ⟨number, doomed⟩ | gone
      · exact absurd (running.closing.symm.trans closing) Bool.false_ne_true
      · exact absurd (doomed.closing.symm.trans closing) Bool.false_ne_true
      · exact framed.handleNotify_closed closing gone.erased

theorem Framed.handleWritePacket (framed : c.Framed) (orderly : c.Orderly) (error : Bool) :
    (c.handleWritePacket error).Framed := by
  cases error with
  | true => exact Framed.close ⟨framed.written, framed.writer, framed.preApp⟩
  | false =>
    let landed : RtmpConnection := { c with
      writeInProgress := false
      outputBuffer := []
      log := { c.log with writes := c.log.writes - 1 } }
    have after : landed.Framed := ⟨framed.written, framed.writer, framed.preApp⟩
    show (if c.toClose then landed.close else landed.handleNotify).Framed
    split
    · exact after.close
    · cases closing : c.closing with
      | false => exact after.notified closing rfl (handleNotify_notified rfl closing)
      | true =>
        rcases orderly with running | ⟨number, doomed⟩ | gone
        · exact absurd (running.closing.symm.trans closing) Bool.false_ne_true
        · exact absurd (doomed.closing.symm.trans closing) Bool.false_ne_true
        · exact after.handleNotify_closed closing gone.erased

theorem Framed.step (framed : c.Framed) (orderly : c.Orderly) {move : Move} (own : move.Own c) :
    (c.step move).Framed := by
  cases move with
  | setApp => exact ⟨framed.written, framed.writer, framed.preApp⟩
  | enqueue msg =>
    simp only [RtmpConnection.step]
    split
    · exact framed.hand.enqueue
    · exact framed
  | result channel msg => exact framed.hand.result orderly.buffer own
  | notify => exact framed.handleNotify orderly
  | writeCompletes =>
    simp only [RtmpConnection.step]
    split
    · exact framed
    · exact framed.handleWritePacket orderly false
  | writeFails =>
    simp only [RtmpConnection.step]
    split
    · exact framed
    · exact framed.handleWritePacket orderly true
  | closeRuns =>
    simp only [RtmpConnection.step]
    split
    · exact framed.close
    · exact framed

/-- When every result that is written with its request's header is for the request's channel,
the socket gets each message compressed against the header last written on its own chunk
stream, and a fresh reader of these bytes has exactly the messages that were sent; a refused
one leaves no trace. -/
theorem output_reads_back {μ : Type} (decode : RtmpHeader → Bytes → Option μ) {cap : UInt64} {c : RtmpConnection}
    (reach : Transition.Reach RtmpConnection.step (fun c move => move.Own c) { maxQueueBytes := cap } c)
    (carried : ∀ h ∈ c.log.serialized, h.msg.Carried)
    (few : (c.sent.map fun h => h.msg.channelId).toFinset.card ≤ 4096) :
    let parsed := parse decode {} (({} : ByteWriter).write c.log.written)
    c.log.written = (({} : ChunkWriter).serializeAll (c.sent.map Handed.msg)).2 ∧
      parsed.out.map assembledSummary = c.sent.map (fun h => summary h.msg) ∧
      parsed.buffer.data = [] ∧ parsed.parser.framingError = false := by
  have start : Framed { maxQueueBytes := cap } :=
    ⟨rfl, fun _ => rfl, fun _ entry member => absurd member List.not_mem_nil⟩
  obtain ⟨orderly, framed⟩ := reach.invariant (I := fun c => c.Orderly ∧ c.Framed) ⟨orderly_start, start⟩
    fun own ⟨orderly, framed⟩ => ⟨orderly.step _, framed.step orderly own⟩
  have msgs : (c.log.serialized.map Handed.msg).filter (fun msg => !msg.refused) = c.sent.map Handed.msg := by
    rw [List.filter_map]
    rfl
  have written : c.log.written = (({} : ChunkWriter).serializeAll (c.sent.map Handed.msg)).2 := by
    rw [framed.written, serializeAll_accepted, msgs]
    intro msg member
    obtain ⟨h, inside, rfl⟩ := List.mem_map.mp member
    exact carried h inside
  have sendable : ∀ msg ∈ c.sent.map Handed.msg,
      (∃ body, msg.Sendable body) ∧ msg.channelId ∈ (c.sent.map fun h => h.msg.channelId).toFinset := by
    intro msg member
    obtain ⟨h, inside, rfl⟩ := List.mem_map.mp member
    obtain ⟨serialized, accepted⟩ := List.mem_filter.mp inside
    refine ⟨?_, List.mem_toFinset.mpr (List.mem_map_of_mem inside)⟩
    exact (carried h serialized).resolve_right fun ⟨refused, _⟩ => by simp [refused] at accepted
  have run := (simulates_fresh _).run_messages decode few _ sendable
  dsimp only
  refine ⟨written, ?_⟩
  rw [parse_out, parse_state, parse_data, ByteWriter.data_write, written]
  rw [List.map_map] at run
  exact run

/-- A command on stream 1 that leaves on the chunk stream of commands. -/
def closeStreamResult : RtmpMessage :=
  { type := .invoke, streamId := 1, channelId := 3, timestamp := 0, payload := some [1] }

/-- A command that leaves on the control channel of stream 1. -/
def streamStatus : RtmpMessage :=
  { type := .invoke, streamId := 1, channelId := 8, timestamp := 0, payload := some [2, 3] }

/-- A result for a request on its own channel, then a message on another one and one that is
refused. -/
def ownChannels : RtmpConnection :=
  List.foldl RtmpConnection.step { maxQueueBytes := 0 }
    [.setApp, .result 3 closeStreamResult, .enqueue streamStatus, .result 8 unwritable, .writeCompletes]

theorem output_reads_back_ownChannels : ownChannels.sent.map Handed.msg = [closeStreamResult, streamStatus] ∧
    ownChannels.log.written = (({} : ChunkWriter).serializeAll (ownChannels.sent.map Handed.msg)).2 := by
  have reach : Transition.Reach RtmpConnection.step (fun c move => move.Own c) { maxQueueBytes := 0 } ownChannels :=
    Transition.Reach.start.along
      ⟨trivial, fun _ => .inl rfl, trivial, fun taken => absurd taken (by decide), trivial, trivial⟩
  refine ⟨rfl, (output_reads_back (fun _ _ => (none : Option Unit)) reach (fun h member => ?_) (by decide)).1⟩
  have among : h ∈ [⟨0, closeStreamResult⟩, ⟨1, streamStatus⟩, ⟨2, unwritable⟩] := member
  simp only [List.mem_cons, List.not_mem_nil, or_false] at among
  rcases among with rfl | rfl | rfl
  · exact .inl ⟨[1], ⟨by decide, by decide⟩, rfl, by decide, nofun⟩
  · exact .inl ⟨[2, 3], ⟨by decide, by decide⟩, rfl, by decide, nofun⟩
  · exact .inr ⟨rfl, nofun⟩

/-- The same command as the result of a request on the control channel of its stream, and then
a message on that channel. -/
def foreignHeader : RtmpConnection :=
  List.foldl RtmpConnection.step { maxQueueBytes := 0 }
    [.setApp, .result 8 closeStreamResult, .writeCompletes, .enqueue streamStatus, .notify]

/-- The message is compressed against a header that was never written on its chunk stream: the
reader gives it stream 0. -/
theorem stream_id_lost :
    foreignHeader.sent.map (fun h => summary h.msg) = [(20, 1, 3, 0, [1]), (20, 1, 8, 0, [2, 3])] ∧
      (parse (fun _ _ => (none : Option Unit)) {} (({} : ByteWriter).write foreignHeader.log.written)).out.map
        assembledSummary = [(20, 1, 3, 0, [1]), (20, 0, 8, 0, [2, 3])] := by
  refine ⟨rfl, ?_⟩
  have read : ((scanner fun _ _ => (none : Option Unit)).rounds 3 {} foreignHeader.log.written).map
      (fun result => result.out.map assembledSummary) = some [(20, 1, 3, 0, [1]), (20, 0, 8, 0, [2, 3])] := rfl
  obtain ⟨result, ends, out⟩ := Option.map_eq_some_iff.mp read
  rw [parse_out, ByteWriter.data_write, ← out, ← Scanner.run_of_rounds ends]
  rfl

end RtmpConnection

end Fms
