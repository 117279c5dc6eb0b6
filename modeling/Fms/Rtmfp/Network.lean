import Fms.Base.Transition
import Fms.Rtmfp.Flow

namespace Fms.Rtmfp
open ByteWire

/-- A user data chunk of the flow. -/
structure UserData where
  seqNumber : Nat
  fsnOffset : Nat
  data : DataChunk

def UserData.forwardSeqNumber (c : UserData) : Nat :=
  if c.fsnOffset > c.seqNumber then 0 else c.seqNumber - c.fsnOffset

/-- `create_flags` for a chunk without options. -/
def createFlags (fragCtrl : FragCtrl) (abandon final : Bool) : UInt8 :=
  fragCtrl.toByte <<< 4 ||| (if abandon then 0x02 else 0) ||| (if final then 0x01 else 0)

structure RangeAck where
  cumulativeAck : Nat
  ranges : List (Nat × Nat)

/-- The ranges of an acknowledgement as the peer reads them. -/
def absoluteRanges : Nat → List (Nat × Nat) → List (Nat × Nat)
  | _, [] => []
  | cursor, (x, y) :: rest =>
    let range := absoluteRange cursor x y
    range :: absoluteRanges range.2 rest

namespace Flow

/-- The part of `has_data_to_send` that sends on a flow: the fragment goes in flight under a
new transmission number. -/
def sendFragment (f : Flow) (tsn : Nat) : Option UserData × Flow :=
  match f.getFragmentForSending with
  | (none, f) => (none, f)
  | (some (frag, fsn), f) =>
    let send (g : Fragment) : Fragment :=
      if g.seq = frag.seq then { g with inFlight := true, nakCount := 0, sentAbandoned := g.abandoned, tsn } else g
    let flags := createFlags frag.fragCtrl frag.abandoned false
    (some ⟨frag.seq, frag.seq - fsn, { flags, options := [], userData := frag.data }⟩,
      { f with fragments := f.fragments.update send fun g => by unfold send; split <;> rfl })

/-- `handle_user_data` up to the forward jump. -/
def receive (f : Flow) (c : UserData) : Flow :=
  let frag := { seq := c.seqNumber, data := c.data.userData, fragCtrl := .ofByte c.data.fragCtl }
  let f :=
    if !c.data.shouldAbandon && f.state = .isOpen then (f.addFragment frag).1
    else if c.data.shouldAbandon then f.removeFragmentsUntilSeq c.forwardSeqNumber
    else f
  f.addSequencesUntil c.forwardSeqNumber

/-- The loop of `handle_flow_message`, with the messages it takes. -/
def takeMessages : Nat → Flow → List Bytes × Flow
  | 0, f => ([], f)
  | fuel + 1, f =>
    match f.messageData with
    | (none, f) => ([], f)
    | (some message, f) =>
      let (messages, f) := takeMessages fuel f.removeLastMessage
      (message :: messages, f)

/-- `handle_user_data`. A message takes at least one fragment off the buffer, so the fuel is
never what ends the loop. -/
def handleUserData (f : Flow) (c : UserData) : List Bytes × Flow :=
  let f := f.receive c
  if c.data.isFinal then ([], f.addSequencesUntil c.seqNumber) else takeMessages (f.fragments.size + 1) f

def rangeAck (f : Flow) : RangeAck := ⟨f.seqManager.getRangeAck.1, f.seqManager.getRangeAck.2⟩

/-- `handle_range_ack`, with the highest transmission number acknowledged so far. -/
def handleRangeAck (f : Flow) (maxTsnAck : Nat) (ack : RangeAck) : Flow × Nat :=
  let (f, tsn) := f.ackFragmentsUntil ack.cumulativeAck
  let (f, maxTsnAck) := (absoluteRanges ack.cumulativeAck ack.ranges).foldl
    (fun (f, maxTsnAck) (first, last) =>
      let (f, tsn) := f.ackFragmentsForRange first last
      (f, max maxTsnAck tsn)) (f, max maxTsnAck tsn)
  (f.updateNakCount maxTsnAck, maxTsnAck)

/-- Whether a buffer bound refuses one of the fragments when they are queued in turn. -/
def refusesAny : Flow → List (FragCtrl × Bytes) → Bool
  | _, [] => false
  | f, part :: rest => f.isFull part.2.length || (f.enqueue part).refusesAny rest

end Flow

/-- A sending and a receiving flow, every chunk and acknowledgement ever emitted, the
messages queued and taken so far, and whether a buffer bound ever refused a fragment of
the sender. Chunks and acknowledgements are never taken off the lists, so that any of
them can be delivered late, twice or not at all. -/
structure Net where
  tx : Flow
  rx : Flow
  sent : List UserData := []
  acks : List RangeAck := []
  queued : List Bytes := []
  taken : List Bytes := []
  nextTsn : Nat := 1
  maxTsnAck : Nat := 0
  refused : Bool := false

inductive Action
  | queue (data : Bytes)
  | send
  | deliver (i : Nat)
  | ack
  | deliverAck (i : Nat)
  | timeout

/-- The length of a message is a 32-bit number. -/
def Action.Representable : Action → Prop
  | .queue data => data.length < 2 ^ 32
  | _ => True

namespace Net

def fresh (usage : Usage) (others : Nat) : Net where
  tx := { role := .sender, usage }
  rx := { role := .receiver, others := some others }

def step (s : Net) : Action → Net
  | .queue data =>
    { s with
      tx := s.tx.addAndFragmentData data
      queued := s.queued ++ [data]
      refused := s.refused || s.tx.refusesAny (Flow.cut data) }
  | .send =>
    match s.tx.sendFragment s.nextTsn with
    | (none, tx) => { s with tx }
    | (some chunk, tx) => { s with tx, sent := s.sent ++ [chunk], nextTsn := s.nextTsn + 1 }
  | .deliver i =>
    match s.sent[i]? with
    | none => s
    | some chunk =>
      let (messages, rx) := s.rx.handleUserData chunk
      { s with rx, taken := s.taken ++ messages }
  | .ack => { s with acks := s.acks ++ [s.rx.rangeAck] }
  | .deliverAck i =>
    match s.acks[i]? with
    | none => s
    | some ack =>
      let (tx, maxTsnAck) := s.tx.handleRangeAck s.maxTsnAck ack
      { s with tx, maxTsnAck }
  | .timeout => { s with tx := s.tx.onTimeoutAlarm }

end Net
end Fms.Rtmfp
