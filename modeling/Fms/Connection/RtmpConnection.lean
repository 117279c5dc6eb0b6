import Fms.App.SendQueue

namespace Fms
open ByteWire

/-- The serializer writes nothing: the body is beyond the AMF write bounds, or longer than the
header can say. -/
def RtmpMessage.refused (msg : RtmpMessage) : Bool :=
  match msg.payload with
  | none => true
  | some payload => UInt32.ofNat payload.length > RtmpHeader.eMaxMessageLength

namespace ChunkWriter

/-- `serialize_message` with the sent header of a given channel. -/
def serializeOn (w : ChunkWriter) (channel : UInt32) (msg : RtmpMessage) : ChunkWriter × Bytes :=
  let w' := w.announce msg
  match RtmpProtocol.serialize w.outgoingChunkSize msg (w.sentHeader channel) with
  | some (h, bytes) => ({ w' with sent := w'.sent.insert channel h }, bytes)
  | none => (w', [])

/-- Several messages, each with the sent header of its channel. -/
def serializeEach (w : ChunkWriter) : List (UInt32 × RtmpMessage) → ChunkWriter × Bytes
  | [] => (w, [])
  | (channel, msg) :: rest =>
    let (w, bytes) := w.serializeOn channel msg
    let (w, more) := w.serializeEach rest
    (w, bytes ++ more)

theorem serializeEach_append (w : ChunkWriter) (first second : List (UInt32 × RtmpMessage)) :
    w.serializeEach (first ++ second) =
      (((w.serializeEach first).1.serializeEach second).1,
        (w.serializeEach first).2 ++ ((w.serializeEach first).1.serializeEach second).2) := by
  induction first generalizing w with
  | nil => rfl
  | cons entry first ih => simp only [List.cons_append, serializeEach, ih, List.append_assoc]

end ChunkWriter

/-- A message with its place among all that were handed over. -/
structure Handed where
  number : Nat
  msg : RtmpMessage

/-- A message with its own channel. -/
def Handed.own (h : Handed) : UInt32 × Handed := (h.msg.channelId, h)

/-- The history of a connection: what was handed over, what was serialized while the socket
was open and the bytes the socket was given; the numbers of messages that were shed or
dropped, the one that closed the connection, and the writes in flight. For the moment the
socket was closed, what waited then and how many had been handed over; and whether a write
had failed. -/
structure ConnectionLog where
  handed : List RtmpMessage := []
  serialized : List Handed := []
  written : Bytes := []
  shed : List Nat := []
  dropped : List Nat := []
  closedBy : Option Nat := none
  writes : Nat := 0
  cutOff : List Handed := []
  handedOpen : Nat := 0
  failed : Bool := false

/-- `rtmp_connection` once it reads packets, with its queue in the application. -/
structure RtmpConnection where
  maxQueueBytes : UInt64
  app : Bool := false
  queue : AsyncQueue Handed := {}
  preAppResults : List (UInt32 × Handed) := []
  writer : ChunkWriter := {}
  outputBuffer : Bytes := []
  writeInProgress : Bool := false
  toClose : Bool := false
  closing : Bool := false
  /-- `destroy_connection` has posted `close` onto the connection's own `io_context`. -/
  closePosted : Bool := false
  log : ConnectionLog := {}

namespace RtmpConnection

/-- What waits for the socket, in the order of the routes. -/
def waiting (c : RtmpConnection) : List Handed := c.preAppResults.map Prod.snd ++ c.queue.msgs

def eMaxWriteBatchBytes : Nat := 256 * 1024
def eMaxPreAppResults : Nat := 16

def serializeMessage (c : RtmpConnection) (channel : UInt32) (result : Handed) : RtmpConnection :=
  let (writer, bytes) := c.writer.serializeOn channel result.msg
  { c with
    writer := writer
    outputBuffer := c.outputBuffer ++ bytes
    log := if c.closing then c.log else { c.log with serialized := c.log.serialized ++ [result] } }

/-- A write to a closed socket fails later and gives it nothing. -/
def performWrite (c : RtmpConnection) : RtmpConnection :=
  { c with
    writeInProgress := true
    log := { c.log with
      writes := c.log.writes + 1
      written := if c.closing then c.log.written else c.log.written ++ c.outputBuffer } }

/-- The connection leaves the registry, and its queue is erased with all that is in it. -/
def close (c : RtmpConnection) : RtmpConnection :=
  if c.closing then c
  else
    { c with
      closing := true
      queue := {}
      log := { c.log with cutOff := c.waiting, handedOpen := c.log.handed.length } }

/-- `enqueue_async_message` refuses a connection that left the registry, and has one destroyed
whose queue is over the cap with nothing left to shed. -/
def enqueueAsyncMessage (c : RtmpConnection) (result : Handed) : RtmpConnection :=
  if c.closing then c
  else
    let pushed := c.queue.push Handed.msg c.maxQueueBytes result false
    let kept := pushed.queue.msgs.map Handed.number
    let shed := ((c.queue.msgs ++ [result]).map Handed.number).filter (· ∉ kept)
    { c with
      queue := pushed.queue
      closePosted := c.closePosted || pushed.overCap
      log := { c.log with shed := c.log.shed ++ shed } }

def handleAppResult (c : RtmpConnection) (channel : UInt32) (result : Handed) : RtmpConnection :=
  if !c.writeInProgress && (!c.app || c.queue.msgs.isEmpty) then (c.serializeMessage channel result).performWrite
  else if c.app then c.enqueueAsyncMessage result
  else if c.preAppResults.length < eMaxPreAppResults then
    { c with preAppResults := c.preAppResults ++ [(channel, result)] }
  else { c with log := { c.log with dropped := c.log.dropped ++ [result.number] } }

/-- The loop of `handle_notify` over the results from before the application. -/
def drainPreApp : List (UInt32 × Handed) → RtmpConnection → RtmpConnection
  | [], c => { c with preAppResults := [] }
  | (channel, result) :: rest, c =>
    if c.outputBuffer.length < eMaxWriteBatchBytes then drainPreApp rest (c.serializeMessage channel result)
    else { c with preAppResults := (channel, result) :: rest }

/-- Its loop over the queue: the messages it serialized, and the close message that ended it.
Every turn takes a message out, so there are at most as many turns as messages. -/
def drain : Nat → RtmpConnection → Nat → RtmpConnection × Nat × Option Nat
  | 0, c, i => (c, i, none)
  | turns + 1, c, i =>
    if c.outputBuffer.length < eMaxWriteBatchBytes then
      match c.queue.pop Handed.msg with
      | none => (c, i, none)
      | some (result, queue) =>
        let c := { c with queue := queue }
        if result.msg.type = .close then (c, i, some result.number)
        else drain turns (c.serializeMessage result.msg.channelId result) (i + 1)
    else (c, i, none)

def handleNotify (c : RtmpConnection) : RtmpConnection :=
  if c.writeInProgress then c
  else if !c.preAppResults.isEmpty then (drainPreApp c.preAppResults c).performWrite
  else if c.app then
    match drain c.queue.msgs.length c 0 with
    | (c, 0, none) => c
    | (c, _ + 1, none) => c.performWrite
    | (c, 0, some number) => { c with log := { c.log with closedBy := some number } }.close
    | (c, _ + 1, some number) =>
      { c with toClose := true, log := { c.log with closedBy := some number } }.performWrite
  else c

/-- A write that completes, with an error or without one. -/
def handleWritePacket (c : RtmpConnection) (error : Bool) : RtmpConnection :=
  let c := { c with log := { c.log with writes := c.log.writes - 1 } }
  if error then { c with log := { c.log with failed := true } }.close
  else
    let c := { c with writeInProgress := false, outputBuffer := [] }
    if c.toClose then c.close else c.handleNotify

inductive Move
  | setApp
  | enqueue (msg : RtmpMessage)
  | result (channel : UInt32) (msg : RtmpMessage)
  | notify
  | writeCompletes
  | writeFails
  | closeRuns

/-- The next message that is handed over. -/
def next (c : RtmpConnection) (msg : RtmpMessage) : Handed := ⟨c.log.handed.length, msg⟩

def hand (c : RtmpConnection) (msg : RtmpMessage) : RtmpConnection :=
  { c with log := { c.log with handed := c.log.handed ++ [msg] } }

def step (c : RtmpConnection) : Move → RtmpConnection
  | .setApp => { c with app := true }
  | .enqueue msg => if c.app then (c.hand msg).enqueueAsyncMessage (c.next msg) else c
  | .result channel msg => (c.hand msg).handleAppResult channel (c.next msg)
  | .notify => c.handleNotify
  | .writeCompletes => if c.log.writes = 0 then c else c.handleWritePacket false
  | .writeFails => if c.log.writes = 0 then c else c.handleWritePacket true
  | .closeRuns => if c.closePosted then c.close else c

variable {c : RtmpConnection}

/-- An open connection after some of its messages were serialized. -/
def serialized (c : RtmpConnection) (done : List (UInt32 × Handed)) : RtmpConnection :=
  let written := c.writer.serializeEach (done.map fun entry => (entry.1, entry.2.msg))
  { c with
    writer := written.1
    outputBuffer := c.outputBuffer ++ written.2
    log := { c.log with serialized := c.log.serialized ++ done.map Prod.snd } }

theorem serialized_nil : c.serialized [] = c := by
  simp [serialized, ChunkWriter.serializeEach]

theorem serialized_append (first second : List (UInt32 × Handed)) :
    (c.serialized first).serialized second = c.serialized (first ++ second) := by
  simp only [serialized, List.map_append, ChunkWriter.serializeEach_append, List.append_assoc]

theorem serializeMessage_open (channel : UInt32) (result : Handed) (opened : c.closing = false) :
    c.serializeMessage channel result = c.serialized [(channel, result)] := by
  simp [serializeMessage, serialized, ChunkWriter.serializeEach, opened]

theorem serializeMessage_closed (channel : UInt32) (result : Handed) (closed : c.closing = true) :
    c.serializeMessage channel result =
      { c with
        writer := (c.writer.serializeOn channel result.msg).1
        outputBuffer := c.outputBuffer ++ (c.writer.serializeOn channel result.msg).2 } := by
  simp [serializeMessage, closed]

/-- With the socket closed nothing of what it serializes is sent. -/
theorem drainPreApp_closed (entries : List (UInt32 × Handed)) (closed : c.closing = true) :
    ∃ writer buffer rest,
      drainPreApp entries c = { c with writer := writer, outputBuffer := buffer, preAppResults := rest } := by
  induction entries generalizing c with
  | nil => exact ⟨c.writer, c.outputBuffer, [], rfl⟩
  | cons entry entries ih =>
    obtain ⟨channel, result⟩ := entry
    rw [drainPreApp]
    split
    · rw [serializeMessage_closed channel result closed]
      obtain ⟨writer, buffer, rest, drained⟩ := ih (c := { c with
        writer := (c.writer.serializeOn channel result.msg).1
        outputBuffer := c.outputBuffer ++ (c.writer.serializeOn channel result.msg).2 }) closed
      exact ⟨writer, buffer, rest, drained⟩
    · exact ⟨c.writer, c.outputBuffer, (channel, result) :: entries, rfl⟩

/-- The loop over the results from before the application serializes some in front. -/
theorem drainPreApp_spec (entries : List (UInt32 × Handed)) (opened : c.closing = false) :
    ∃ done rest, entries = done ++ rest ∧
      drainPreApp entries c = { c.serialized done with preAppResults := rest } := by
  induction entries generalizing c with
  | nil => exact ⟨[], [], rfl, by rw [drainPreApp, serialized_nil]⟩
  | cons entry entries ih =>
    obtain ⟨channel, result⟩ := entry
    rw [drainPreApp]
    split
    · rw [serializeMessage_open channel result opened]
      obtain ⟨done, rest, parts, drained⟩ := ih (c := c.serialized [(channel, result)]) opened
      refine ⟨(channel, result) :: done, rest, by rw [parts]; rfl, ?_⟩
      rw [drained, serialized_append]
      rfl
    · exact ⟨[], (channel, result) :: entries, rfl, by rw [serialized_nil]⟩

/-- The loop over the queue serializes some in front, up to a close message if it comes to one. -/
theorem drain_spec (turns i : Nat) (opened : c.closing = false) :
    ∃ done queue stop,
      drain turns c i = ({ c.serialized (done.map Handed.own) with queue := queue }, i + done.length, stop) ∧
      (stop = none ∧ c.queue.msgs = done ++ queue.msgs ∨
        ∃ last, stop = some last.number ∧ last.msg.type = .close ∧ c.queue.msgs = done ++ last :: queue.msgs) := by
  induction turns generalizing c i with
  | zero => exact ⟨[], c.queue, none, by rw [drain, List.map_nil, serialized_nil]; rfl, .inl ⟨rfl, rfl⟩⟩
  | succ turns ih =>
    rw [drain]
    split
    · split
      · exact ⟨[], c.queue, none, by rw [List.map_nil, serialized_nil]; rfl, .inl ⟨rfl, rfl⟩⟩
      · rename_i result queue popped
        have msgs := AsyncQueue.pop_msgs popped
        simp only
        split
        · rename_i closes
          exact ⟨[], queue, some result.number, by rw [List.map_nil, serialized_nil]; rfl,
            .inr ⟨result, rfl, closes, msgs⟩⟩
        · rw [serializeMessage_open result.msg.channelId result (by exact opened)]
          obtain ⟨done, queue', stop, drained, rest⟩ :=
            ih (c := serialized { c with queue := queue } [result.own]) (i + 1) opened
          refine ⟨result :: done, queue', stop, ?_, ?_⟩
          · have turn : i + 1 + done.length = i + (result :: done).length := by
              rw [List.length_cons]
              omega
            rw [← turn]
            refine drained.trans ?_
            rw [serialized_append]
            rfl
          · rw [msgs]
            rcases rest with ⟨none, parts⟩ | ⟨last, is, closes, parts⟩
            · exact .inl ⟨none, congrArg _ parts⟩
            · exact .inr ⟨last, is, closes, congrArg _ parts⟩
    · exact ⟨[], c.queue, none, by rw [List.map_nil, serialized_nil]; rfl, .inl ⟨rfl, rfl⟩⟩

/-- What `handle_notify` can do to an open connection with no write in flight. -/
inductive Notified (c : RtmpConnection) : RtmpConnection → Prop
  | preApp (done rest : List (UInt32 × Handed)) : c.preAppResults = done ++ rest →
      Notified c { c.serialized done with preAppResults := rest }.performWrite
  | nothing : c.preAppResults = [] → c.app = false → Notified c c
  | empty (queue : AsyncQueue Handed) : c.preAppResults = [] → c.app = true → c.queue.msgs = queue.msgs →
      Notified c { c with queue := queue }
  | batch (done : List Handed) (queue : AsyncQueue Handed) : c.preAppResults = [] → c.app = true →
      c.queue.msgs = done ++ queue.msgs →
      Notified c { c.serialized (done.map Handed.own) with queue := queue }.performWrite
  | close (last : Handed) (queue : AsyncQueue Handed) : c.preAppResults = [] → c.app = true →
      last.msg.type = .close → c.queue.msgs = last :: queue.msgs →
      Notified c { c with queue := queue, log := { c.log with closedBy := some last.number } }.close
  | lastBatch (done : List Handed) (last : Handed) (queue : AsyncQueue Handed) : c.preAppResults = [] → c.app = true →
      last.msg.type = .close → c.queue.msgs = done ++ last :: queue.msgs →
      Notified c (performWrite
        { c.serialized (done.map Handed.own) with
          queue := queue
          toClose := true
          log := { (c.serialized (done.map Handed.own)).log with closedBy := some last.number } })

theorem handleNotify_notified (landed : c.writeInProgress = false) (opened : c.closing = false) :
    Notified c c.handleNotify := by
  unfold handleNotify
  rw [landed, if_neg Bool.false_ne_true]
  split
  · obtain ⟨done, rest, parts, drained⟩ := drainPreApp_spec c.preAppResults opened
    rw [drained]
    exact .preApp done rest parts
  · rename_i noneBefore
    have preApp : c.preAppResults = [] := by simpa using noneBefore
    split
    · rename_i app
      obtain ⟨done, queue, stop, drained, rest⟩ := drain_spec c.queue.msgs.length 0 opened
      rw [drained, Nat.zero_add]
      cases done with
      | nil =>
        rw [List.map_nil, serialized_nil]
        rcases rest with ⟨rfl, msgs⟩ | ⟨last, rfl, closes, msgs⟩
        · exact .empty queue preApp app msgs
        · exact .close last queue preApp app closes msgs
      | cons first done =>
        rcases rest with ⟨rfl, msgs⟩ | ⟨last, rfl, closes, msgs⟩
        · exact .batch (first :: done) queue preApp app msgs
        · exact .lastBatch (first :: done) last queue preApp app closes msgs
    · rename_i noApp
      exact .nothing preApp (by simpa using noApp)

end RtmpConnection

end Fms
