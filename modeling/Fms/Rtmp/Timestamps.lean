import Fms.Rtmp.RoundTrip
import Mathlib

namespace Fms
open ByteWire Scan

variable {w : RtmpHeader} {c : RtmpChannel} {msgs : List Sent}

/-- The first header of a message, by format, with the fields it carries. -/
inductive Start
  | new (timestamp : UInt32) (messageType : UInt8) (streamId : UInt32)
  | sameSource (delta : UInt32) (messageType : UInt8)
  | timerChange (delta : UInt32)
  | repeated

structure Sent where
  start : Start
  body : Bytes

/-- The sender on one chunk stream: its chunk size and the header in force. -/
structure ChunkSender where
  chunkSize : UInt32
  header : RtmpHeader

namespace ChunkSender

/-- The header in force once a message has started: what its first header leaves out stays. -/
def announce (w : RtmpHeader) (m : Sent) : RtmpHeader :=
  match m.start with
  | .new timestamp messageType streamId =>
    { w with headerType := .headerNew, timestamp, messageType, streamId, messageLength := .ofNat m.body.length }
  | .sameSource delta messageType =>
    { w with
      headerType := .headerSameSource, tsDeltaWrite := delta, messageType, messageLength := .ofNat m.body.length }
  | .timerChange delta => { w with headerType := .headerTimerChange, tsDeltaWrite := delta }
  | .repeated => w

def firstHeader (w : RtmpHeader) (m : Sent) : Bytes :=
  match m.start with
  | .new .. => (announce w m).serializeHeaderNew
  | .sameSource .. => (announce w m).serializeHeaderSameSource
  | .timerChange .. => (announce w m).serializeHeaderTimerChange
  | .repeated => (announce w m).serializeHeaderContinueSize

/-- A sender that announces a chunk size uses it from the next message on, as far as a parser takes it up. -/
def announcedSize (chunkSize : UInt32) (w : RtmpHeader) (body : Bytes) : UInt32 :=
  if w.messageType = MessageType.chunkSize.code then
    match tryU32Be body with
    | some (n, _) => (({ chunkSize } : RtmpParser).setChunkSize n).chunkSize
    | none => chunkSize
  else chunkSize

def next (s : ChunkSender) (m : Sent) : ChunkSender where
  chunkSize := announcedSize s.chunkSize (announce s.header m) m.body
  header := announce s.header m

/-- A message on the wire: its first header, and its body with a type-3 header between two chunks. -/
def send (s : ChunkSender) (m : Sent) : Bytes :=
  firstHeader s.header m ++ RtmpProtocol.chunkBuffer s.chunkSize m.body (announce s.header m)

def sendAll : ChunkSender → List Sent → Bytes
  | _, [] => []
  | s, m :: rest => s.send m ++ (s.next m).sendAll rest

/-- The length that the header in force announces is that of the body. -/
def Describes (w : RtmpHeader) (m : Sent) : Prop :=
  match m.start with
  | .new .. | .sameSource .. => m.body.length < 2 ^ 24
  | .timerChange _ | .repeated => m.body.length = w.messageLength.toNat

def WellFormed : RtmpHeader → List Sent → Prop
  | _, [] => True
  | w, m :: rest => Describes w m ∧ WellFormed (announce w m) rest

theorem announce_messageLength {m : Sent} (fits : Describes w m) :
    (announce w m).messageLength.toNat = m.body.length := by
  unfold Describes at fits
  unfold announce
  split
  · rename_i start
    rw [start] at fits
    exact UInt32.toNat_ofNat_of_lt' (fits.trans (by decide))
  · rename_i start
    rw [start] at fits
    exact UInt32.toNat_ofNat_of_lt' (fits.trans (by decide))
  · rename_i start
    rw [start] at fits
    exact fits.symm
  · rename_i start
    rw [start] at fits
    exact fits.symm

theorem announce_channelId (w : RtmpHeader) (m : Sent) : (announce w m).channelId = w.channelId := by
  unfold announce
  split <;> rfl

theorem firstHeader_basic (w : RtmpHeader) (m : Sent) :
    ∃ format tail, firstHeader w m = RtmpHeader.basicHeader format w.channelId ++ tail := by
  rw [← announce_channelId w m]
  unfold firstHeader
  split
  · exact ⟨_, _, by rw [RtmpHeader.serializeHeaderNew, List.append_assoc, List.append_assoc, List.append_assoc,
      List.append_assoc]⟩
  · exact ⟨_, _, by rw [RtmpHeader.serializeHeaderSameSource, List.append_assoc, List.append_assoc,
      List.append_assoc]⟩
  · exact ⟨_, _, by rw [RtmpHeader.serializeHeaderTimerChange, List.append_assoc]⟩
  · exact ⟨_, _, by rw [RtmpHeader.serializeHeaderContinueSize]⟩

end ChunkSender

/-- What decides the next timestamp on a channel: the last one, the delta that a type-3 header would
repeat, whether the last header was a type-0 one, and whether a message has been completed. -/
@[ext] structure Clock where
  timestamp : UInt32 := 0
  delta : UInt32 := 0
  isNew : Bool := true
  complete : Bool := false

namespace Clock

/-- The first chunk of a message. -/
def read (k : Clock) : Start → Clock
  | .new timestamp _ _ => { k with timestamp, delta := 0, isNew := true }
  | .sameSource delta _ | .timerChange delta => { k with timestamp := k.timestamp + delta, delta, isNew := false }
  | .repeated =>
    if !k.complete then { k with isNew := false }
    else if k.isNew then { k with timestamp := k.timestamp + k.timestamp, delta := k.timestamp, isNew := false }
    else { k with timestamp := k.timestamp + k.delta, isNew := false }

/-- The rest of the message: every chunk after the first has a type-3 header. -/
def finish (k : Clock) (single : Bool) : Clock := { k with isNew := k.isNew && single, complete := true }

/-- Two clocks that the messages to come cannot tell apart. -/
structure Agree (k k' : Clock) (rest : List Sent) : Prop where
  timestamp : k.timestamp = k'.timestamp
  delta : k.delta = k'.delta
  complete : k.complete = k'.complete
  fresh : k.isNew = true ∨ k'.isNew = true → k.delta = 0
  kind : k.isNew = k'.isNew ∨ k.timestamp = 0 ∨ ∀ m ∈ rest.head?, m.start ≠ .repeated

theorem Agree.read {k k' : Clock} {m : Sent} {rest : List Sent} (agree : Agree k k' (m :: rest)) :
    k.read m.start = k'.read m.start := by
  obtain ⟨timestamp, delta, isNew, complete⟩ := k
  obtain ⟨timestamp', delta', isNew', complete'⟩ := k'
  obtain ⟨rfl, rfl, rfl, fresh, kind⟩ := agree
  dsimp only at fresh kind
  cases start : m.start with
  | new => rfl
  | sameSource => rfl
  | timerChange => rfl
  | repeated =>
    rcases kind with rfl | rfl | other
    · rfl
    · cases complete with
      | false => rfl
      | true =>
        cases isNew with
        | false =>
          cases isNew' with
          | false => rfl
          | true =>
            cases fresh (.inr rfl)
            rfl
        | true =>
          cases fresh (.inl rfl)
          cases isNew' <;> rfl
    · exact absurd start (other m rfl)

theorem read_isNew {k : Clock} {start : Start} (isNew : (k.read start).isNew = true) :
    ∃ timestamp messageType streamId, start = .new timestamp messageType streamId := by
  cases start with
  | new timestamp messageType streamId => exact ⟨timestamp, messageType, streamId, rfl⟩
  | sameSource => cases isNew
  | timerChange => cases isNew
  | repeated =>
    unfold read at isNew
    dsimp only at isNew
    split at isNew
    · cases isNew
    · split at isNew <;> cases isNew

end Clock

namespace RtmpHeader

/-- The header a reader holds agrees with the one in force at the sender and with the clock. -/
structure Shows (w : RtmpHeader) (k : Clock) (h : RtmpHeader) : Prop where
  timestamp : h.timestamp = k.timestamp
  delta : h.tsDeltaRead = k.delta
  messageLength : h.messageLength = w.messageLength
  messageType : h.messageType = w.messageType
  field : h.hasExtendedTs = extended w.repeatedTs
  kind : h.headerType = .headerNew ↔ k.isNew = true

theorem Shows.single {h : RtmpHeader} {k : Clock} (shows : Shows w k h) : Shows w (k.finish true) h :=
  ⟨shows.timestamp, shows.delta, shows.messageLength, shows.messageType, shows.field,
    shows.kind.trans (by simp [Clock.finish])⟩

theorem Shows.continues {k : Clock} (ok : ChannelIdOk w.channelId) (i : Nat) :
    RtmpParser.Continues w.channelId w.serializeHeaderContinueSize (Shows w (k.finish (i = 0)))
      (Shows w (k.finish (i + 1 = 0))) where
  peek rest := by
    rw [serializeHeaderContinueSize, List.append_assoc]
    exact RtmpParser.peekChannelId_basicHeader _ ok _
  read rest shows := by
    obtain ⟨headerSize, read⟩ := tryDeserialize_headerContinue _ w ok shows.field rest
    refine ⟨_, read, ?_, rfl⟩
    exact ⟨shows.timestamp, shows.delta, shows.messageLength, shows.messageType, shows.field, by simp [Clock.finish]⟩

end RtmpHeader

namespace RtmpChannel
open RtmpHeader ChunkSender

theorem adjustTimestamp_afterNew (complete : c.prevMessageComplete = true)
    (continued : c.receivedHeader.headerType = .headerContinue) (after : c.prevHeaderType = .headerNew) :
    c.adjustTimestamp.receivedHeader = { c.receivedHeader with
      timestamp := c.receivedHeader.timestamp + c.prevTimestamp
      tsDeltaRead := c.prevTimestamp } := by
  simp [adjustTimestamp, complete, continued, after]

/-- The first header of a message moves the channel as it moves the clock. -/
theorem read_start {k : Clock} {m : Sent} (ok : ChannelIdOk w.channelId) (fits : Describes w m)
    (shows : Shows w k c.receivedHeader) (complete : c.prevMessageComplete = k.complete) (rest : Bytes) :
    ∃ h, c.receivedHeader.tryDeserialize (firstHeader w m ++ rest) = some (h, rest) ∧
      h.messageLength = (announce w m).messageLength ∧
      Shows (announce w m) (k.read m.start) (c.withHeader h).adjustTimestamp.receivedHeader := by
  have ok' : ChannelIdOk (announce w m).channelId := announce_channelId w m ▸ ok
  obtain ⟨start, body⟩ := m
  cases start with
  | new timestamp messageType streamId =>
    have length := announce_messageLength fits
    obtain ⟨headerSize, read⟩ := tryDeserialize_headerNew c.receivedHeader _ ok' (length ▸ fits) rest
    refine ⟨_, read, rfl, ?_⟩
    rw [adjustTimestamp_other (.inr (by simp [withHeader]))]
    exact ⟨rfl, rfl, rfl, rfl, by simp [withHeader, announce, repeatedTs], by simp [withHeader, Clock.read]⟩
  | sameSource delta messageType =>
    have length := announce_messageLength fits
    obtain ⟨headerSize, read⟩ := tryDeserialize_headerSameSource c.receivedHeader _ ok' (length ▸ fits) rest
    refine ⟨_, read, rfl, ?_⟩
    rw [adjustTimestamp_other (.inr (by simp [withHeader]))]
    refine ⟨?_, rfl, rfl, rfl, by simp [withHeader, announce, repeatedTs], by simp [withHeader, Clock.read]⟩
    exact congrArg (· + delta) shows.timestamp
  | timerChange delta =>
    obtain ⟨headerSize, read⟩ := tryDeserialize_headerTimerChange c.receivedHeader _ ok' rest
    refine ⟨_, read, shows.messageLength, ?_⟩
    rw [adjustTimestamp_other (.inr (by simp [withHeader]))]
    refine ⟨?_, rfl, shows.messageLength, shows.messageType, by simp [withHeader, announce, repeatedTs],
      by simp [withHeader, Clock.read]⟩
    exact congrArg (· + delta) shows.timestamp
  | repeated =>
    obtain ⟨headerSize, read⟩ := tryDeserialize_headerContinue c.receivedHeader w ok shows.field rest
    refine ⟨_, read, shows.messageLength, ?_⟩
    cases before : k.complete with
    | false =>
      rw [adjustTimestamp_other (.inl (by exact complete.trans before))]
      simp only [Clock.read, before]
      exact ⟨shows.timestamp, shows.delta, shows.messageLength, shows.messageType, shows.field, by simp [withHeader]⟩
    | true =>
      cases kind : k.isNew with
      | true =>
        rw [adjustTimestamp_afterNew (by exact complete.trans before) (by rfl) (by exact shows.kind.mpr kind)]
        simp only [Clock.read, before, kind]
        refine ⟨?_, shows.timestamp, shows.messageLength, shows.messageType, shows.field, by simp [withHeader]⟩
        exact congrArg₂ (· + ·) shows.timestamp shows.timestamp
      | false =>
        have after : c.receivedHeader.headerType ≠ .headerNew := fun isNew =>
          by cases kind.symm.trans (shows.kind.mp isNew)
        rw [adjustTimestamp_opening (by exact complete.trans before) (by rfl) (by exact after)]
        simp only [Clock.read, before, kind]
        refine ⟨?_, shows.delta, shows.messageLength, shows.messageType, shows.field, by simp [withHeader]⟩
        exact congrArg₂ (· + ·) shows.timestamp shows.delta

end RtmpChannel

namespace ChunkSender
open RtmpHeader RtmpChannel RtmpParser

/-- Between two messages: the parser is in step with the sender and with the clock. -/
structure Follows (s : ChunkSender) (k : Clock) (p : RtmpParser) : Prop where
  readHeader : p.readHeader = true
  chunkSize : p.chunkSize = s.chunkSize
  positive : 1 ≤ s.chunkSize.toNat
  room : s.header.channelId ∈ p.channels ∨ p.channels.keys.length < ChannelManager.eMaxChannels
  buffer : (p.channels.getChannel s.header.channelId).1.buffer = []
  messageLen : (p.channels.getChannel s.header.channelId).1.messageLen = 0
  complete : (p.channels.getChannel s.header.channelId).1.prevMessageComplete = k.complete
  shows : Shows s.header k (p.channels.getChannel s.header.channelId).1.receivedHeader

variable {s : ChunkSender} {k : Clock} {p : RtmpParser} {m : Sent}

theorem Follows.start (follows : s.Follows k p) (ok : ChannelIdOk s.header.channelId) (fits : Describes s.header m)
    (rest : Bytes) :
    ∃ q c, p.headerPhase (firstHeader s.header m ++ rest) = .ok (q, rest) ∧ q.chunkSize = p.chunkSize ∧
      Holding (Shows (announce s.header m) ((k.read m.start).finish true)) s.header.channelId
        (announce s.header m).messageLength [] q c := by
  obtain ⟨h, read, length, shows⟩ := read_start ok fits follows.shows follows.complete rest
  obtain ⟨format, tail, basic⟩ := firstHeader_basic s.header m
  have peek : peekChannelId (firstHeader s.header m ++ rest) = some s.header.channelId := by
    rw [basic, List.append_assoc]
    exact peekChannelId_basicHeader format ok _
  have phase := headerPhase_read follows.readHeader peek (ChannelManager.openChannel_get follows.room)
    (tryDeserializeHeader_of read)
  refine ⟨_, (p.channels.getChannel s.header.channelId).1.withHeader h, phase, rfl, ?_⟩
  exact {
    current := rfl
    channel := ChannelManager.getChannel_store _ _ _
    buffer := follows.buffer
    messageLen := congrArg UInt32.toNat follows.messageLen
    messageLength := length
    header := shows.single }

theorem announcedSize_pos {chunkSize : UInt32} (positive : 1 ≤ chunkSize.toNat) (w : RtmpHeader) (body : Bytes) :
    1 ≤ (announcedSize chunkSize w body).toNat := by
  unfold announcedSize
  split
  · split
    · rename_i n _ _
      unfold setChunkSize
      dsimp only
      split
      · exact positive
      · rename_i allowed
        dsimp only
        split
        · decide
        · exact UInt32.le_iff_toNat_le.mp (UInt32.not_lt.mp fun zero => allowed (.inl zero))
    · exact positive
  · exact positive

theorem dispatch_announcedSize {μ : Type} (decode : RtmpHeader → Bytes → Option μ) {q : RtmpParser}
    (type : c.receivedHeader.messageType = w.messageType) :
    (dispatch decode q c).1.chunkSize = announcedSize q.chunkSize w c.buffer := by
  unfold announcedSize
  split
  · rename_i control
    have known := MessageType.ofCode_code (t := .chunkSize) (by decide)
    have read : RtmpProtocol.deserialize decode c.buffer c.receivedHeader =
        (tryU32Be c.buffer).map fun found => .chunkSize found.1 := by
      simp only [RtmpProtocol.deserialize, type, control, known]
    unfold dispatch
    rw [read]
    cases tryU32Be c.buffer with
    | none => rfl
    | some found =>
      simp only [Option.map_some, deliver, setChunkSize]
      split
      · rfl
      · rfl
  · rename_i other
    exact dispatch_chunkSize_other decode (type ▸ other)

theorem Follows.send_ne_nil (ok : ChannelIdOk s.header.channelId)
    (rest : Bytes) : firstHeader s.header m ++ rest ≠ [] := by
  obtain ⟨format, tail, basic⟩ := firstHeader_basic s.header m
  obtain ⟨b, more, _, bytes, _⟩ := basicHeader_spec format ok
  rw [basic, bytes]
  simp

variable {μ : Type} (decode : RtmpHeader → Bytes → Option μ)

theorem Follows.message (follows : s.Follows k p) (ok : ChannelIdOk s.header.channelId) (fits : Describes s.header m)
    (limit : m.body.length ≤ 8 * 1024 * 1024) (rest : Bytes) :
    ∃ p' a, (scanner decode).run p (s.send m ++ rest) =
        { (scanner decode).run p' rest with out := a :: ((scanner decode).run p' rest).out } ∧
      (s.next m).Follows ((k.read m.start).finish (m.body.length ≤ s.chunkSize.toNat)) p' ∧
      a.header.timestamp = (k.read m.start).timestamp := by
  have length := announce_messageLength fits
  have id := announce_channelId s.header m
  have positive := follows.positive
  obtain ⟨chunks, framed, lower, upper⟩ := chunkBuffer_eq s.chunkSize follows.positive m.body (announce s.header m)
  obtain ⟨q, c, phase, size, holding⟩ := follows.start ok fits
    (RtmpProtocol.chunkLoop s.chunkSize.toNat (announce s.header m).serializeHeaderContinueSize chunks m.body ++ rest)
  have same : q.chunkSize = s.chunkSize := size.trans follows.chunkSize
  have continues (i : Nat) := id ▸ Shows.continues (k := k.read m.start) (by rwa [id]) i
  obtain ⟨q', c', whole, frame, run⟩ := holding.run_body decode continues (i := 0) (by omega) rest chunks (s := p)
    (fun zero => by simp [← same, zero] at positive) (Follows.send_ne_nil ok _) (by rw [step, phase, same])
    (by simpa using length) (same ▸ lower) (same ▸ upper)
  rw [Nat.zero_add] at whole
  obtain ⟨_, stored, _⟩ := dispatch_frame decode q' c'
  rw [whole.current] at stored
  have single : decide (chunks = 0) = decide (m.body.length ≤ s.chunkSize.toNat) := by
    refine decide_eq_decide.mpr ⟨?_, fun short => ?_⟩
    · rintro rfl
      simpa using upper
    · by_contra several
      have long := lower.resolve_right several
      have least := Nat.le_mul_of_pos_left s.chunkSize.toNat (Nat.pos_of_ne_zero several)
      omega
  refine ⟨_, _, by rw [send, framed, List.append_assoc]; exact run, ?_, whole.header.timestamp⟩
  have there : (s.next m).header.channelId = s.header.channelId := id
  have channel : ((dispatch decode q' c').1.channels.getChannel (s.next m).header.channelId).1 = c'.clearData := by
    simp only [there, ChannelManager.getChannel, stored]
  exact {
    readHeader := (dispatch_readHeader decode q' c').trans whole.readHeader
    chunkSize := by
      rw [dispatch_announcedSize decode whole.header.messageType, frame.chunkSize, same, whole.buffer]
      rfl
    positive := announcedSize_pos positive _ _
    room := .inl (there ▸ AList.lookup_isSome.mp (Option.isSome_of_eq_some stored))
    buffer := congrArg RtmpChannel.buffer channel
    messageLen := congrArg RtmpChannel.messageLen channel
    complete := (congrArg RtmpChannel.prevMessageComplete channel).trans whole.complete
    shows := by
      rw [channel, ← single]
      exact whole.header }

theorem Follows.oversized (follows : s.Follows k p) (ok : ChannelIdOk s.header.channelId)
    (fits : Describes s.header m) (large : 8 * 1024 * 1024 < m.body.length) (rest : Bytes) :
    ((scanner decode).run p (s.send m ++ rest)).out = [] := by
  have length := announce_messageLength fits
  rw [send, List.append_assoc]
  obtain ⟨q, c, phase, size, holding⟩ := follows.start ok fits
    (RtmpProtocol.chunkBuffer s.chunkSize m.body (announce s.header m) ++ rest)
  have above : c.receivedHeader.messageLength > RtmpParser.eMaxMessageLength := by
    rw [holding.messageLength]
    refine UInt32.lt_iff_toNat_lt.mpr ?_
    rw [length]
    exact large
  have refused : payloadSize q c = none := by simp only [payloadSize, above, if_true, ite_self]
  have stop := payloadPhase_channel decode (holding.current ▸ holding.channel)
    (RtmpProtocol.chunkBuffer s.chunkSize m.body (announce s.header m) ++ rest)
  rw [refused] at stop
  rw [Scanner.run_stop (Follows.send_ne_nil ok _) (show step decode p _ = _ by rw [step, phase]; exact stop)]

/-- The timestamps of a sequence of messages, as far as the limit lets them through. -/
def decoded (s : ChunkSender) (k : Clock) : List Sent → List UInt32
  | [] => []
  | m :: rest =>
    if m.body.length ≤ 8 * 1024 * 1024 then
      (k.read m.start).timestamp ::
        (s.next m).decoded ((k.read m.start).finish (m.body.length ≤ s.chunkSize.toNat)) rest
    else []

theorem Follows.timestamps (follows : s.Follows k p) (ok : ChannelIdOk s.header.channelId)
    (wellFormed : WellFormed s.header msgs) :
    ((scanner decode).run p (s.sendAll msgs)).out.map (fun a => a.header.timestamp) = s.decoded k msgs := by
  induction msgs generalizing s k p with
  | nil => simp only [sendAll, Scanner.run_nil, decoded, List.map_nil]
  | cons m msgs ih =>
    obtain ⟨fits, later⟩ := wellFormed
    rw [sendAll, decoded]
    split
    · rename_i limit
      obtain ⟨p', a, run, follows', timestamp⟩ := follows.message decode ok fits limit ((s.next m).sendAll msgs)
      have ok' : ChannelIdOk (s.next m).header.channelId := announce_channelId s.header m ▸ ok
      rw [run, List.map_cons, timestamp, ih follows' ok' later]
    · rename_i large
      rw [follows.oversized decode ok fits (Nat.not_le.mp large), List.map_nil]

/-- A message with a type-0 header and a timestamp, before one with a type-3 header. -/
def RepeatsNew (m : Sent) (rest : List Sent) : Prop :=
  ∃ timestamp messageType streamId next tail, m.start = .new timestamp messageType streamId ∧ timestamp ≠ 0 ∧
    rest = next :: tail ∧ next.start = .repeated

/-- Each such message is cut into several chunks by both senders or by neither. -/
def Alike : ChunkSender → ChunkSender → List Sent → Prop
  | _, _, [] => True
  | s, s', m :: rest =>
    m.body.length ≤ 8 * 1024 * 1024 →
      (RepeatsNew m rest → (m.body.length ≤ s.chunkSize.toNat ↔ m.body.length ≤ s'.chunkSize.toNat)) ∧
        Alike (s.next m) (s'.next m) rest

theorem agree_finish {k : Clock} {rest : List Sent} {b b' : Bool} (alike : b = b' ∨ ¬ RepeatsNew m rest) :
    ((k.read m.start).finish b).Agree ((k.read m.start).finish b') rest := by
  have fresh (isNew : (k.read m.start).isNew = true) : (k.read m.start).delta = 0 := by
    obtain ⟨timestamp, messageType, streamId, start⟩ := Clock.read_isNew isNew
    rw [start]
    rfl
  refine ⟨rfl, rfl, rfl, fun isNew => fresh ?_, ?_⟩
  · rcases isNew with isNew | isNew
    · exact ((Bool.and_eq_true _ _).mp isNew).1
    · exact ((Bool.and_eq_true _ _).mp isNew).1
  · rcases alike with rfl | other
    · exact .inl rfl
    · cases kind : (k.read m.start).isNew with
      | false => exact .inl (by simp [Clock.finish, kind])
      | true =>
        obtain ⟨timestamp, messageType, streamId, start⟩ := Clock.read_isNew kind
        by_cases zero : timestamp = 0
        · subst zero
          exact .inr (.inl (by rw [start]; rfl))
        · refine .inr (.inr fun next head repeated => other ?_)
          obtain ⟨tail, listed⟩ := List.head?_eq_some_iff.mp head
          exact ⟨timestamp, messageType, streamId, next, tail, start, zero, listed, repeated⟩

/-- After a type-0 header in one chunk a type-3 header adds its timestamp, after one in several
chunks it adds nothing. -/
theorem decoded_after_new {k : Clock} {s s' : ChunkSender} {next : Sent} {tail : List Sent} {b b' : Bool}
    (isNew : k.isNew = true) (delta : k.delta = 0) (timestamp : k.timestamp ≠ 0) (repeated : next.start = .repeated)
    (limit : next.body.length ≤ 8 * 1024 * 1024) (different : b ≠ b') :
    s.decoded (k.finish b) (next :: tail) ≠ s'.decoded (k.finish b') (next :: tail) := by
  intro same
  rw [decoded, decoded, if_pos limit, if_pos limit, repeated] at same
  have heads := (List.cons.inj same).1
  have one : ((k.finish true).read .repeated).timestamp = k.timestamp + k.timestamp := by
    simp [Clock.read, Clock.finish, isNew]
  have several : ((k.finish false).read .repeated).timestamp = k.timestamp := by
    simp [Clock.read, Clock.finish, delta]
  cases b with
  | false =>
    cases b' with
    | false => exact different rfl
    | true =>
      rw [one, several] at heads
      exact timestamp (by simpa using heads)
  | true =>
    cases b' with
    | false =>
      rw [one, several] at heads
      exact timestamp (by simpa using heads)
    | true => exact different rfl

theorem decoded_eq_iff {s s' : ChunkSender} {k k' : Clock} (same : s.header = s'.header) (agree : k.Agree k' msgs)
    (wellFormed : WellFormed s.header msgs) : s.decoded k msgs = s'.decoded k' msgs ↔ Alike s s' msgs := by
  induction msgs generalizing s s' k k' with
  | nil => exact iff_of_true rfl trivial
  | cons m rest ih =>
    obtain ⟨fits, later⟩ := wellFormed
    have header : (s.next m).header = (s'.next m).header := congrArg (announce · m) same
    have read := agree.read
    rw [decoded, decoded, ← read]
    unfold Alike
    by_cases limit : m.body.length ≤ 8 * 1024 * 1024
    · rw [if_pos limit, if_pos limit, List.cons.injEq]
      simp only [true_and, limit, true_imp_iff]
      by_cases cut : m.body.length ≤ s.chunkSize.toNat ↔ m.body.length ≤ s'.chunkSize.toNat
      · rw [and_iff_right fun _ => cut]
        exact ih header (agree_finish (.inl (decide_eq_decide.mpr cut))) later
      · by_cases repeats : RepeatsNew m rest
        · refine iff_of_false ?_ fun alike => cut (alike.1 repeats)
          obtain ⟨timestamp, messageType, streamId, next, tail, start, notZero, rfl, repeated⟩ := repeats
          have long : next.body.length = m.body.length := by
            have repeats := later.1
            unfold Describes at repeats
            rw [repeated] at repeats
            exact repeats.trans (announce_messageLength fits)
          rw [start]
          exact decoded_after_new rfl rfl notZero repeated (by omega) fun alike => cut (decide_eq_decide.mp alike)
        · rw [and_iff_right fun repeats' => absurd repeats' repeats]
          exact ih header (agree_finish (.inr repeats)) later
    · rw [if_neg limit, if_neg limit]
      exact iff_of_true rfl fun within => absurd within limit

/-- The timestamps that a fresh parser decodes when the messages are sent in chunks of a size. -/
def parsedTimestamps (id chunkSize : UInt32) (msgs : List Sent) : List UInt32 :=
  (parse decode { chunkSize } (({} : ByteWriter).write (sendAll ⟨chunkSize, { channelId := id }⟩ msgs))).out.map
    fun a => a.header.timestamp

theorem parsedTimestamps_eq {id chunkSize : UInt32} (ok : ChannelIdOk id) (positive : 1 ≤ chunkSize.toNat)
    (wellFormed : WellFormed { channelId := id } msgs) :
    parsedTimestamps decode id chunkSize msgs = decoded ⟨chunkSize, { channelId := id }⟩ {} msgs := by
  have follows : Follows ⟨chunkSize, { channelId := id }⟩ {} { chunkSize } := {
    readHeader := rfl
    chunkSize := rfl
    positive := positive
    room := .inr (show 0 < 4096 by decide)
    buffer := rfl
    messageLen := rfl
    complete := rfl
    shows := ⟨rfl, rfl, rfl, rfl, rfl, iff_of_true rfl rfl⟩ }
  rw [parsedTimestamps, parse_out, ByteWriter.data_write]
  exact follows.timestamps decode ok wellFormed

/-- The timestamps do not depend on the chunk size exactly when each message with a type-0 header
that a type-3 header repeats is cut by both chunk sizes or by neither. -/
theorem timestamps_independent_iff {id size size' : UInt32} (ok : ChannelIdOk id) (positive : 1 ≤ size.toNat)
    (positive' : 1 ≤ size'.toNat) {msgs : List Sent} (wellFormed : WellFormed { channelId := id } msgs) :
    parsedTimestamps decode id size msgs = parsedTimestamps decode id size' msgs ↔
      Alike ⟨size, { channelId := id }⟩ ⟨size', { channelId := id }⟩ msgs := by
  rw [parsedTimestamps_eq decode ok positive wellFormed, parsedTimestamps_eq decode ok positive' wellFormed]
  exact decoded_eq_iff rfl ⟨rfl, rfl, rfl, fun _ => rfl, .inl rfl⟩ wellFormed

/-- A message of two bytes at time 5 and one that repeats its header. -/
def repeatedHeader : List Sent := [⟨.new 5 8 1, [1, 2]⟩, ⟨.repeated, [3, 4]⟩]

theorem repeatedHeader_wellFormed (id : UInt32) : WellFormed { channelId := id } repeatedHeader :=
  ⟨show 2 < 2 ^ 24 by decide, rfl, trivial⟩

/-- Both sizes leave the messages whole. -/
theorem timestamps_independent_whole :
    parsedTimestamps (fun _ _ => (none : Option Unit)) 3 2 repeatedHeader =
      parsedTimestamps (fun _ _ => (none : Option Unit)) 3 128 repeatedHeader := by
  refine (timestamps_independent_iff _ ⟨by decide, by decide⟩ (by decide) (by decide)
    (repeatedHeader_wellFormed 3)).mpr ?_
  exact fun _ => ⟨fun _ => iff_of_true (by decide) (by decide), fun _ =>
    ⟨fun _ => iff_of_true (by decide) (by decide), trivial⟩⟩

/-- In chunks of one byte the second message gets the timestamp of the first, in one chunk twice that. -/
theorem timestamps_depend_on_chunks :
    ChannelIdOk 3 ∧ WellFormed { channelId := 3 } repeatedHeader ∧
      parsedTimestamps (fun _ _ => (none : Option Unit)) 3 1 repeatedHeader = [5, 5] ∧
      parsedTimestamps (fun _ _ => (none : Option Unit)) 3 128 repeatedHeader = [5, 10] := by
  have ok : ChannelIdOk 3 := ⟨by decide, by decide⟩
  have wellFormed := repeatedHeader_wellFormed 3
  refine ⟨ok, wellFormed, ?_, ?_⟩
  · rw [parsedTimestamps_eq _ ok (by decide) wellFormed]
    decide
  · rw [parsedTimestamps_eq _ ok (by decide) wellFormed]
    decide

end ChunkSender
end Fms
