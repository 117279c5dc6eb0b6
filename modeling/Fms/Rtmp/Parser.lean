import Fms.Base.Scan
import Fms.Rtmp.Protocol

namespace Fms
open ByteWire Scan

/-- `rtmp_parser`: the framing state, over the channels of the connection. -/
structure RtmpParser where
  channels : ChannelManager := ∅
  readHeader : Bool := true
  chunkSize : UInt32 := 128
  channelId : UInt32 := 0
  framingError : Bool := false

/-- A call of the sink the parser delivers to. -/
inductive SinkCall (μ : Type)
  | handleMessage (header : RtmpHeader) (message : Message μ)
  | handleInternalMessage (message : Message μ)

/-- A message as it stands when its last chunk has arrived (the received header of
its channel and the reassembled body), with the sink calls it leads to. -/
structure Assembled (μ : Type) where
  header : RtmpHeader
  body : Bytes
  calls : List (SinkCall μ)

namespace RtmpParser

def eMaxChunkSize : UInt32 := 0xFFFFFF
def eMaxPeerChunkSize : UInt32 := 0x7FFFFFFF
def eMaxMessageLength : UInt32 := 8 * 1024 * 1024

/-- Apply a peer's chunk size: unchanged outside the range the protocol allows. -/
def setChunkSize (p : RtmpParser) (n : UInt32) : RtmpParser :=
  if n < 1 ∨ n > eMaxPeerChunkSize then p
  else { p with chunkSize := if n > eMaxChunkSize then eMaxChunkSize else n }

def peekChannelId (r : Bytes) : Option UInt32 := do
  let (c, r) ← tryU8 r
  let ((channel, _), _) ← RtmpHeader.tryChannelId c r
  return channel

/-- What becomes of a decoded message: an abort clears the named channel if it is
open, an announced chunk size is applied by the sink, anything else is handed on. -/
def deliver {μ : Type} (p : RtmpParser) (header : RtmpHeader) : Message μ → RtmpParser × List (SinkCall μ)
  | .abort id =>
    match p.channels.findChannel id with
    | some target => ({ p with channels := p.channels.store id target.clearData }, [])
    | none => (p, [])
  | .chunkSize size => (p.setChunkSize size, [.handleInternalMessage (.chunkSize size)])
  | .windowAcknowledgementSize size =>
    (p, [.handleInternalMessage (.windowAcknowledgementSize size),
      .handleMessage header (.windowAcknowledgementSize size)])
  | message => (p, [.handleMessage header message])

/-- `dispatch`: a body that does not decode is dropped; the channel is cleared whatever
became of the message. -/
def dispatch {μ : Type} (decode : RtmpHeader → Bytes → Option μ) (p : RtmpParser) (channel : RtmpChannel) :
    RtmpParser × List (SinkCall μ) :=
  let delivered := match RtmpProtocol.deserialize decode channel.buffer channel.receivedHeader with
    | none => (p, [])
    | some message => p.deliver channel.receivedHeader message
  ({ delivered.1 with channels := delivered.1.channels.store p.channelId channel.clearData }, delivered.2)

/-- The header half of a round: find or open the channel and commit its header, or
stop where the scan would stop. -/
def headerPhase (p : RtmpParser) (r : Bytes) : Except (RtmpParser × Bytes) (RtmpParser × Bytes) :=
  if p.readHeader then
    match peekChannelId r with
    | none => .error (p, r)
    | some cid =>
      match p.channels.openChannel cid with
      | none => .error ({ p with framingError := true }, r)
      | some (channel, channels) =>
        match channel.tryDeserializeHeader r with
        | none => .error ({ p with channels, channelId := cid }, r)
        | some (channel, r) =>
          .ok ({ p with channels := channels.store cid channel, channelId := cid, readHeader := false }, r)
  else .ok (p, r)

/-- How many payload bytes the current chunk carries; nothing when the chunk breaks
the framing: a zero chunk size, a message over the limit, or a header that shrinks
the message below what is already buffered. -/
def payloadSize (p : RtmpParser) (channel : RtmpChannel) : Option UInt32 :=
  if p.chunkSize = 0 then none
  else if channel.receivedHeader.messageLength > eMaxMessageLength then none
  else if channel.dataSize > channel.receivedHeader.messageLength then none
  else
    let left := channel.receivedHeader.messageLength - channel.dataSize
    some (if left > p.chunkSize then p.chunkSize else left)

section parse
variable {μ : Type} (decode : RtmpHeader → Bytes → Option μ)

/-- Take a complete chunk payload into the current channel. -/
def acceptPayload (p : RtmpParser) (channel : RtmpChannel) (payload : Bytes) :
    RtmpParser × List (Assembled μ) :=
  let channel := channel.adjustTimestamp.addData payload
  let p := { p with readHeader := true }
  if channel.hasEnoughData then
    let channel := channel.setPrevMessageComplete true
    let (p, calls) := dispatch decode { p with channels := p.channels.store p.channelId channel } channel
    (p, [⟨channel.receivedHeader, channel.buffer, calls⟩])
  else
    let channel := channel.setPrevMessageComplete false
    ({ p with channels := p.channels.store p.channelId channel }, [])

/-- The payload half of a round, on the channel the header half left current. -/
def payloadPhase (p : RtmpParser) (r : Bytes) : Outcome RtmpParser UInt8 (Assembled μ) :=
  let (channel, channels) := p.channels.getChannel p.channelId
  let p := { p with channels }
  match p.payloadSize channel with
  | none => .stop { p with framingError := true } r
  | some size =>
    match takeBytes size.toNat r with
    | none => .stop p r
    | some (payload, r) =>
      let (p, out) := p.acceptPayload decode channel payload
      .next p r out

/-- One round of the loop of `parse`. -/
def step (p : RtmpParser) (r : Bytes) : Outcome RtmpParser UInt8 (Assembled μ) :=
  match p.headerPhase r with
  | .error (p, r) => .stop p r
  | .ok (p, r) => payloadPhase decode p r

theorem headerPhase_ok {p p' : RtmpParser} {r r' : Bytes} (done : p.headerPhase r = .ok (p', r')) :
    p'.readHeader = false ∧ r' <:+ r ∧
      (p.readHeader = true ∧ r'.length < r.length ∨ p.readHeader = false ∧ p' = p ∧ r' = r) := by
  unfold headerPhase at done
  split at done
  · rename_i expecting
    split at done
    · cases done
    · split at done
      · cases done
      · split at done
        · cases done
        · rename_i channel rest read
          cases Except.ok.inj done
          obtain ⟨⟨h, behind⟩, got, same⟩ := Option.map_eq_some_iff.mp read
          cases same
          have shorter := RtmpHeader.tryDeserialize_length got
          exact ⟨rfl, (RtmpHeader.tryDeserialize_local _).suffix got, Or.inl ⟨expecting, shorter⟩⟩
  · rename_i expecting
    cases Except.ok.inj done
    have inside : p.readHeader = false := by simpa using expecting
    exact ⟨inside, List.suffix_refl _, Or.inr ⟨inside, rfl, rfl⟩⟩

theorem deliver_readHeader (p : RtmpParser) (header : RtmpHeader) (message : Message μ) :
    (p.deliver header message).1.readHeader = p.readHeader := by
  unfold deliver setChunkSize
  split
  · split <;> rfl
  · dsimp only
    split <;> rfl
  · rfl
  · rfl

theorem dispatch_readHeader (p : RtmpParser) (channel : RtmpChannel) :
    (dispatch decode p channel).1.readHeader = p.readHeader := by
  unfold dispatch
  dsimp only
  split
  · rfl
  · exact deliver_readHeader p _ _

theorem acceptPayload_readHeader (p : RtmpParser) (channel : RtmpChannel) (payload : Bytes) :
    (acceptPayload decode p channel payload).1.readHeader = true := by
  unfold acceptPayload
  dsimp only
  split
  · exact dispatch_readHeader decode _ _
  · rfl

theorem payloadPhase_next {p p' : RtmpParser} {r r' : Bytes} {out : List (Assembled μ)}
    (next : payloadPhase decode p r = .next p' r' out) : p'.readHeader = true ∧ r' <:+ r := by
  unfold payloadPhase at next
  dsimp only at next
  split at next
  · cases next
  · split at next
    · cases next
    · rename_i size _ payload behind cut
      cases next
      obtain ⟨rfl, _⟩ := takeBytes_some cut
      exact ⟨acceptPayload_readHeader decode _ _ _, List.suffix_append payload _⟩

/-- The loop of `parse`: a round that goes on either consumed a header or left the
payload state, so the scan ends. -/
def scanner : Scanner RtmpParser UInt8 (Assembled μ) where
  step := step decode
  rank p r := 2 * r.length + if p.readHeader then 0 else 1
  progress := by
    intro p r p' r' out _ next
    unfold step at next
    split at next
    · cases next
    · rename_i p1 r1 header
      obtain ⟨expecting, tail⟩ := payloadPhase_next decode next
      have shorter := tail.length_le
      rcases (headerPhase_ok header).2.2 with ⟨before, consumed⟩ | ⟨before, rfl, rfl⟩
      · simp only [expecting, before, if_true]
        omega
      · simp only [expecting, before, if_true, Bool.false_eq_true, if_false]
        omega

/-- What a call of `parse` leaves: the parser, the input buffer without what was
consumed, the messages assembled, and the result of the call (nothing where the
source answers that more input is needed). -/
structure Parsed (μ : Type) where
  parser : RtmpParser
  buffer : ByteWriter
  out : List (Assembled μ)
  complete : Option Bool

def parse (p : RtmpParser) (buffer : ByteWriter) : Parsed μ :=
  let scan := (scanner decode).run p buffer.data
  let committed := buffer.size - scan.rest.length
  { parser := scan.state
    buffer := buffer.consume committed (Nat.sub_le _ _)
    out := scan.out
    complete := if committed < buffer.size then none else some (!scan.out.isEmpty) }

end parse
end RtmpParser
end Fms
