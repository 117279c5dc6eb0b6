import Fms.Rtmp.HeaderRoundTrip
import Fms.Rtmp.Resume
import Mathlib.Data.Finset.Card

namespace Fms
open ByteWire Scan

variable {m : ChannelManager} {q : RtmpParser} {w : ChunkWriter} {ids : Finset UInt32} {msg : RtmpMessage}
    {body : Bytes}

namespace ChannelManager

theorem getChannel_store (m : ChannelManager) (id : UInt32) (c : RtmpChannel) :
    (m.store id c).getChannel id = (c, m.store id c) := by
  simp only [getChannel, findChannel, store, AList.lookup_insert]

theorem findChannel_store_ne (m : ChannelManager) {id other : UInt32} (different : other ≠ id) (c : RtmpChannel) :
    (m.store id c).findChannel other = m.findChannel other :=
  AList.lookup_insert_ne different

theorem mem_store {id k : UInt32} {c : RtmpChannel} : k ∈ m.store id c ↔ k = id ∨ k ∈ m :=
  AList.mem_insert m

theorem openChannel_get {id : UInt32} (room : id ∈ m ∨ m.keys.length < eMaxChannels) :
    m.openChannel id = some ((m.getChannel id).1, (m.getChannel id).2) := by
  unfold openChannel getChannel
  cases found : m.findChannel id with
  | some c => rfl
  | none =>
    rcases room with member | below
    · have some : (m.lookup id).isSome := AList.lookup_isSome.mpr member
      rw [show m.lookup id = none from found] at some
      cases some
    · exact if_neg (by unfold size; omega)

theorem getChannel_insert {id other : UInt32} (different : other ≠ id) :
    (m.getChannel id).2.findChannel other = m.findChannel other := by
  unfold getChannel
  cases m.findChannel id with
  | some c => rfl
  | none => exact AList.lookup_insert_ne different

end ChannelManager

namespace RtmpParser
open RtmpHeader RtmpChannel

variable {id : UInt32}

theorem peekChannelId_basicHeader (format : HeaderType) (ok : ChannelIdOk id) (rest : Bytes) :
    peekChannelId (basicHeader format id ++ rest) = some id := by
  obtain ⟨c, tail, count, bytes, _, names⟩ := basicHeader_spec format ok
  simp only [bytes, List.cons_append, peekChannelId, tryU8, Option.bind_eq_bind, Option.bind_some, names,
    Option.pure_def]

theorem serialize_basicHeader (w prev : RtmpHeader) :
    ∃ format tail, (w.serialize prev).2 = basicHeader format w.channelId ++ tail := by
  have each (h : RtmpHeader) (format : HeaderType) :
      ∃ tail, (h.serializeAs format).2 = basicHeader format h.channelId ++ tail := by
    cases format <;> simp only [serializeAs, serializeHeaderNew, serializeHeaderSameSource,
      serializeHeaderTimerChange, serializeHeaderContinueSize, List.append_assoc] <;> exact ⟨_, rfl⟩
  unfold RtmpHeader.serialize
  dsimp only
  repeat' split
  all_goals exact ⟨_, each _ _⟩

variable {p : RtmpParser}

theorem headerPhase_read {c c' : RtmpChannel} {r rest : Bytes}
    (expecting : p.readHeader = true) (peek : peekChannelId r = some id)
    (opened : p.channels.openChannel id = some (c, m)) (read : c.tryDeserializeHeader r = some (c', rest)) :
    p.headerPhase r =
      .ok ({ p with channels := m.store id c', channelId := id, readHeader := false }, rest) := by
  simp only [headerPhase, expecting, if_true, peek, opened, read]

theorem payloadSize_eq {c : RtmpChannel} {n : Nat} (positive : p.chunkSize ≠ 0)
    (total : c.receivedHeader.messageLength.toNat = c.messageLen.toNat + n)
    (limit : c.receivedHeader.messageLength.toNat ≤ 8 * 1024 * 1024) :
    ∃ size, p.payloadSize c = some size ∧ size.toNat = min n p.chunkSize.toNat := by
  have small : ¬c.receivedHeader.messageLength > eMaxMessageLength := by
    intro above
    have := UInt32.lt_iff_toNat_lt.mp above
    have max : eMaxMessageLength.toNat = 8 * 1024 * 1024 := rfl
    omega
  have fits : ¬c.dataSize > c.receivedHeader.messageLength := by
    intro above
    have := UInt32.lt_iff_toNat_lt.mp above
    have : c.dataSize.toNat = c.messageLen.toNat := rfl
    omega
  have left : (c.receivedHeader.messageLength - c.dataSize).toNat = n := by
    rw [UInt32.toNat_sub_of_le _ _ (UInt32.not_lt.mp fits)]
    have : c.dataSize.toNat = c.messageLen.toNat := rfl
    omega
  simp only [payloadSize, positive, small, fits, if_false]
  refine ⟨_, rfl, ?_⟩
  split
  · rename_i above
    have := UInt32.lt_iff_toNat_lt.mp above
    omega
  · rename_i under
    have := UInt32.le_iff_toNat_le.mp (UInt32.not_lt.mp under)
    omega

theorem payloadPhase_channel {μ : Type} (decode : RtmpHeader → Bytes → Option μ) {c : RtmpChannel}
    (channel : p.channels.getChannel p.channelId = (c, p.channels)) (r : Bytes) :
    payloadPhase decode p r = match p.payloadSize c with
      | none => .stop { p with framingError := true } r
      | some size => match takeBytes size.toNat r with
        | none => .stop p r
        | some (payload, r) => .next (acceptPayload decode p c payload).1 r (acceptPayload decode p c payload).2 := by
  rewrite [payloadPhase, channel]
  rfl

/-- The channel after a chunk has been added to it. -/
def grown (c : RtmpChannel) (payload : Bytes) (complete : Bool) : RtmpChannel :=
  (c.adjustTimestamp.addData payload).setPrevMessageComplete complete

/-- The parser after a chunk of the current channel has been taken in. -/
def grow (p : RtmpParser) (c : RtmpChannel) (payload : Bytes) (complete : Bool) : RtmpParser :=
  { p with readHeader := true, channels := p.channels.store p.channelId (grown c payload complete) }

/-- Parser states that differ only on the channel a message is arriving on. -/
structure Undisturbed (id : UInt32) (p q : RtmpParser) : Prop where
  chunkSize : q.chunkSize = p.chunkSize
  framingError : q.framingError = p.framingError
  others : ∀ other, other ≠ id → q.channels.findChannel other = p.channels.findChannel other

theorem Undisturbed.trans {p r : RtmpParser} (first : Undisturbed id p q)
    (second : Undisturbed id q r) :
    Undisturbed id p r where
  chunkSize := second.chunkSize.trans first.chunkSize
  framingError := second.framingError.trans first.framingError
  others other different := (second.others other different).trans (first.others other different)

/-- A parser that waits for a chunk of a message of `length` bytes, `done` of which are
buffered; `P` is what is known of the header. -/
structure Holding (P : RtmpHeader → Prop) (id length : UInt32) (done : Bytes) (p : RtmpParser) (c : RtmpChannel) :
    Prop where
  current : p.channelId = id
  channel : p.channels.getChannel id = (c, p.channels)
  buffer : c.buffer = done
  messageLen : c.messageLen.toNat = done.length
  messageLength : c.receivedHeader.messageLength = length
  header : P c.adjustTimestamp.receivedHeader

/-- The parser `q` at the moment it dispatches a message, complete on its channel. -/
structure Whole (P : RtmpHeader → Prop) (id : UInt32) (body : Bytes) (q : RtmpParser) (c : RtmpChannel) : Prop where
  readHeader : q.readHeader = true
  current : q.channelId = id
  buffer : c.buffer = body
  complete : c.prevMessageComplete = true
  header : P c.receivedHeader

/-- The bytes of a header between two chunks, which lead from what `P` says of the header
of the message to what `Q` says. -/
structure Continues (id : UInt32) (continuation : Bytes) (P Q : RtmpHeader → Prop) : Prop where
  peek : ∀ rest, peekChannelId (continuation ++ rest) = some id
  read : ∀ {h} rest, P h → ∃ h', h.tryDeserialize (continuation ++ rest) = some (h', rest) ∧ Q h' ∧
    h'.messageLength = h.messageLength

theorem Continues.ne_nil {continuation : Bytes} {P Q : RtmpHeader → Prop}
    (continues : Continues id continuation P Q) (rest : Bytes) : continuation ++ rest ≠ [] := by
  intro empty
  cases empty ▸ continues.peek rest

section payload
variable {P Q : RtmpHeader → Prop} {id length : UInt32} {done continuation : Bytes} {p : RtmpParser} {c : RtmpChannel}

theorem Holding.grown_messageLen (holding : Holding P id length done p c) (payload : Bytes)
    (limit : done.length + payload.length ≤ 8 * 1024 * 1024) (complete : Bool) :
    (grown c payload complete).messageLen.toNat = done.length + payload.length := by
  have sum : (grown c payload complete).messageLen = c.messageLen + UInt32.ofNat payload.length := by
    simp [grown, addData, setPrevMessageComplete]
  rw [sum, UInt32.toNat_add, holding.messageLen, UInt32.toNat_ofNat']
  omega

theorem Holding.grown_buffer (holding : Holding P id length done p c) (payload : Bytes) (complete : Bool) :
    (grown c payload complete).buffer = done ++ payload := by
  simp [grown, addData, setPrevMessageComplete, holding.buffer]

theorem Holding.grow_undisturbed (holding : Holding P id length done p c) (payload : Bytes) (complete : Bool) :
    Undisturbed id p (grow p c payload complete) where
  chunkSize := rfl
  framingError := rfl
  others other different := by
    simp only [grow, holding.current]
    exact ChannelManager.findChannel_store_ne _ different _

variable {μ : Type} (decode : RtmpHeader → Bytes → Option μ)

/-- A whole chunk of the message is there: it is taken in, and the message is
dispatched exactly when it was the last one. -/
theorem Holding.payloadPhase_chunk (holding : Holding P id length done p c) (payload more : Bytes)
    (positive : p.chunkSize ≠ 0) (limit : length.toNat ≤ 8 * 1024 * 1024)
    (total : length.toNat = done.length + (payload.length + more.length))
    (size : payload.length = min (payload.length + more.length) p.chunkSize.toNat) (rest : Bytes) :
    payloadPhase decode p (payload ++ rest) =
      if more = [] then
        .next (dispatch decode (grow p c payload true) (grown c payload true)).1 rest
          [⟨(grown c payload true).receivedHeader, done ++ payload,
            (dispatch decode (grow p c payload true) (grown c payload true)).2⟩]
      else .next (grow p c payload false) rest [] := by
  have announcedLength := holding.messageLength
  obtain ⟨chunk, sized, value⟩ := payloadSize_eq (p := p) (c := c) (n := payload.length + more.length) positive
    (by rw [announcedLength, holding.messageLen, total]) (announcedLength ▸ limit)
  have cut := takeBytes_append (value ▸ size : payload.length = chunk.toNat) rest
  have grownLen := holding.grown_messageLen payload (by omega)
  have enough : (c.adjustTimestamp.addData payload).hasEnoughData = decide (more = []) := by
    have header : (c.adjustTimestamp.addData payload).receivedHeader.messageLength = length := by
      simp [addData, announcedLength]
    have len : (c.adjustTimestamp.addData payload).messageLen.toNat = done.length + payload.length := grownLen true
    simp only [hasEnoughData, header, decide_eq_decide, ← UInt32.toNat_inj, len, total]
    rw [← List.length_eq_zero_iff]
    omega
  have phase : payloadPhase decode p (payload ++ rest) =
      .next (acceptPayload decode p c payload).1 rest (acceptPayload decode p c payload).2 := by
    rw [payloadPhase_channel decode (holding.current ▸ holding.channel), sized]
    simp only [cut]
  rw [phase, acceptPayload]
  dsimp only
  rw [enough]
  by_cases last : more = []
  · simp only [last, decide_true, if_true, ← holding.grown_buffer payload true]
    rfl
  · simp only [last, decide_false, Bool.false_eq_true, if_false]
    rfl

theorem Holding.continued (holding : Holding P id length done p c) (continues : Continues id continuation P Q)
    (payload : Bytes) (limit : done.length + payload.length ≤ 8 * 1024 * 1024) (rest : Bytes) :
    ∃ p' c', (grow p c payload false).headerPhase (continuation ++ rest) = .ok (p', rest) ∧
      Holding Q id length (done ++ payload) p' c' ∧ Undisturbed id p p' := by
  obtain ⟨h, read, next, same⟩ := continues.read (h := (grown c payload false).receivedHeader) rest holding.header
  have found : (grow p c payload false).channels.openChannel id =
      some (grown c payload false, (grow p c payload false).channels) := by
    have member : id ∈ (grow p c payload false).channels := ChannelManager.mem_store.mpr (Or.inl holding.current.symm)
    rw [ChannelManager.openChannel_get (Or.inl member)]
    simp only [grow, holding.current, ChannelManager.getChannel_store]
  refine ⟨_, (grown c payload false).withHeader h,
    headerPhase_read rfl (continues.peek rest) found (tryDeserializeHeader_of read), ?_, ?_⟩
  · exact {
      current := rfl
      channel := ChannelManager.getChannel_store _ _ _
      buffer := holding.grown_buffer payload false
      messageLen := (holding.grown_messageLen payload limit false).trans List.length_append.symm
      messageLength := by
        refine same.trans (Eq.trans ?_ holding.messageLength)
        simp [grown, addData, setPrevMessageComplete]
      header := by
        -- the message is not complete, so the header stays as it was read
        rw [adjustTimestamp_other (Or.inl rfl)]
        exact next }
  · refine (holding.grow_undisturbed payload false).trans ⟨rfl, rfl, fun other different => ?_⟩
    exact ChannelManager.findChannel_store_ne _ different _

/-- A scan that has come to a message with `chunks` continuation chunks before it goes
on behind the message once it is dispatched. -/
theorem Holding.run_body {P : Nat → RtmpHeader → Prop} {i : Nat}
    (continues : ∀ i, Continues id continuation (P i) (P (i + 1)))
    (limit : length.toNat ≤ 8 * 1024 * 1024) (rest : Bytes) (chunks : Nat) {s : RtmpParser} {r src : Bytes}
    (holding : Holding (P i) id length done p c) (positive : p.chunkSize ≠ 0) (ne : r ≠ []) (entry : step decode s r =
      payloadPhase decode p (RtmpProtocol.chunkLoop p.chunkSize.toNat continuation chunks src ++ rest))
    (total : length.toNat = done.length + src.length) (lower : chunks * p.chunkSize.toNat < src.length ∨ chunks = 0)
    (upper : src.length ≤ (chunks + 1) * p.chunkSize.toNat) :
    ∃ q c', Whole (P (i + chunks)) id (done ++ src) q c' ∧ Undisturbed id p q ∧
      (scanner decode).run s r =
        { (scanner decode).run (dispatch decode q c').1 rest with
          out := ⟨c'.receivedHeader, done ++ src, (dispatch decode q c').2⟩ ::
            ((scanner decode).run (dispatch decode q c').1 rest).out } := by
  -- the bytes of one chunk leave `done`, so the induction is on the chunks still to come
  induction chunks generalizing s r p c done src i with
  | zero =>
    have phase := holding.payloadPhase_chunk decode src [] positive limit
      (by simpa using total) (by simp only [List.length_nil]; omega) rest
    refine ⟨grow p c src true, grown c src true, ?_, holding.grow_undisturbed src true, ?_⟩
    · exact {
        readHeader := rfl
        current := holding.current
        buffer := holding.grown_buffer src true
        complete := rfl
        header := holding.header }
    · rw [Scanner.run_next ne (entry.trans phase)]
      rfl
  | succ chunks ih =>
    have pos : 0 < p.chunkSize.toNat := by
      have : p.chunkSize.toNat ≠ 0 := fun zero => positive (UInt32.toNat_inj.mp zero)
      omega
    have more : (chunks + 1) * p.chunkSize.toNat < src.length := by
      rcases lower with long | none
      · exact long
      · cases none
    have whole : (chunks + 1) * p.chunkSize.toNat = chunks * p.chunkSize.toNat + p.chunkSize.toNat := by
      rw [Nat.add_mul, Nat.one_mul]
    rw [Nat.add_mul _ 1, Nat.one_mul] at upper
    have taken : (src.take p.chunkSize.toNat).length = p.chunkSize.toNat := by
      rw [List.length_take]
      omega
    have left : (src.drop p.chunkSize.toNat).length = src.length - p.chunkSize.toNat := List.length_drop
    have nonempty : src.drop p.chunkSize.toNat ≠ [] := by
      intro empty
      rw [empty, List.length_nil] at left
      omega
    have first : (scanner decode).step s r = .next (grow p c (src.take p.chunkSize.toNat) false)
        (continuation ++ (RtmpProtocol.chunkLoop p.chunkSize.toNat continuation chunks
          (src.drop p.chunkSize.toNat) ++ rest)) [] := by
      refine entry.trans ?_
      rw [RtmpProtocol.chunkLoop, List.append_assoc, List.append_assoc,
        holding.payloadPhase_chunk decode _ (src.drop p.chunkSize.toNat) positive limit (by omega) (by omega),
        if_neg nonempty]
    obtain ⟨p', c', header, holding', frame⟩ := holding.continued (continues i) (src.take p.chunkSize.toNat)
      (by omega) (RtmpProtocol.chunkLoop p.chunkSize.toNat continuation chunks (src.drop p.chunkSize.toNat) ++ rest)
    have next : step decode (grow p c (src.take p.chunkSize.toNat) false) (continuation ++
        (RtmpProtocol.chunkLoop p.chunkSize.toNat continuation chunks (src.drop p.chunkSize.toNat) ++ rest)) =
          payloadPhase decode p' (RtmpProtocol.chunkLoop p'.chunkSize.toNat continuation chunks
            (src.drop p.chunkSize.toNat) ++ rest) := by
      rw [step, header, frame.chunkSize]
    obtain ⟨q, c'', completed, frame', run⟩ := ih holding' (frame.chunkSize ▸ positive) ((continues i).ne_nil _) next
      (by rw [List.length_append]; omega) (by rw [frame.chunkSize]; omega)
      (by rw [frame.chunkSize, Nat.add_mul, Nat.one_mul]; omega)
    rw [List.append_assoc, List.take_append_drop] at completed run
    refine ⟨q, c'', Nat.add_right_comm i 1 chunks ▸ completed, frame.trans frame', ?_⟩
    rw [Scanner.run_next ne first, run, List.nil_append]

end payload

theorem Continues.announced {w : RtmpHeader} (ok : ChannelIdOk w.channelId) :
    Continues w.channelId w.serializeHeaderContinueSize (Announced w) (Announced w) where
  peek rest := by
    rw [serializeHeaderContinueSize, List.append_assoc]
    exact peekChannelId_basicHeader _ ok _
  read rest announced := by
    obtain ⟨h, read, next⟩ := read_continuation ok announced rest
    exact ⟨h, read, next, next.messageLength.trans announced.messageLength.symm⟩

theorem chunkBuffer_eq (chunkSize : UInt32) (positive : 0 < chunkSize.toNat) (src : Bytes) (h : RtmpHeader) :
    ∃ chunks, RtmpProtocol.chunkBuffer chunkSize src h =
        RtmpProtocol.chunkLoop chunkSize.toNat h.serializeHeaderContinueSize chunks src ∧
      (chunks * chunkSize.toNat < src.length ∨ chunks = 0) ∧ src.length ≤ (chunks + 1) * chunkSize.toNat := by
  by_cases empty : src.length = 0
  · have nil : src = [] := List.length_eq_zero_iff.mp empty
    refine ⟨0, ?_, Or.inr rfl, by omega⟩
    simp [RtmpProtocol.chunkBuffer, RtmpProtocol.chunkLoop, nil]
  · have division := Nat.div_add_mod' src.length chunkSize.toNat
    have short := Nat.mod_lt src.length positive
    refine ⟨_, by rw [RtmpProtocol.chunkBuffer, if_pos empty], ?_⟩
    by_cases exactly : src.length % chunkSize.toNat = 0
    · rw [if_pos exactly]
      obtain ⟨n, count⟩ : ∃ n, src.length / chunkSize.toNat = n + 1 := by
        refine Nat.exists_eq_succ_of_ne_zero fun none => ?_
        rw [none, Nat.zero_mul] at division
        omega
      have whole : (n + 1) * chunkSize.toNat = n * chunkSize.toNat + chunkSize.toNat := by
        rw [Nat.add_mul, Nat.one_mul]
      rw [count] at division ⊢
      exact ⟨Or.inl (by simp only [Nat.add_zero, Nat.add_sub_cancel]; omega), by
        simp only [Nat.add_zero, Nat.add_sub_cancel]; omega⟩
    · rw [if_neg exactly, Nat.add_sub_cancel, Nat.add_mul, Nat.one_mul]
      exact ⟨Or.inl (by omega), by omega⟩

/-- What a delivered abort may do to the entry of another channel: drop a partial
message. -/
def Cleared (before after : Option RtmpChannel) : Prop :=
  after = before ∨ ∃ c, before = some c ∧ after = some c.clearData

section dispatch
variable {μ : Type}

theorem deliver_frame (p : RtmpParser) (header : RtmpHeader) (message : Message μ) :
    (p.deliver header message).1.framingError = p.framingError ∧
      ∀ id, Cleared (p.channels.findChannel id) ((p.deliver header message).1.channels.findChannel id) := by
  unfold deliver
  split
  · rename_i target
    split
    · rename_i c found
      refine ⟨rfl, fun id => ?_⟩
      by_cases same : id = target
      · subst same
        exact Or.inr ⟨c, found, AList.lookup_insert _⟩
      · exact Or.inl (ChannelManager.findChannel_store_ne _ same _)
    · exact ⟨rfl, fun id => Or.inl rfl⟩
  · unfold setChunkSize
    dsimp only
    split <;> exact ⟨rfl, fun id => Or.inl rfl⟩
  · exact ⟨rfl, fun id => Or.inl rfl⟩
  · exact ⟨rfl, fun id => Or.inl rfl⟩

variable (decode : RtmpHeader → Bytes → Option μ)

theorem dispatch_frame (q : RtmpParser) (c : RtmpChannel) :
    (dispatch decode q c).1.framingError = q.framingError ∧
      (dispatch decode q c).1.channels.findChannel q.channelId = some c.clearData ∧
      ∀ other, other ≠ q.channelId → Cleared (q.channels.findChannel other)
        ((dispatch decode q c).1.channels.findChannel other) := by
  unfold dispatch
  dsimp only
  refine ⟨?_, AList.lookup_insert _, fun other different => ?_⟩
  · split
    · rfl
    · exact (deliver_frame q _ _).1
  · rw [ChannelManager.findChannel_store_ne _ different]
    split
    · exact Or.inl rfl
    · exact (deliver_frame q _ _).2 other

theorem deserialize_chunkSize {buffer : Bytes} {h : RtmpHeader} {n : UInt32}
    (message : RtmpProtocol.deserialize decode buffer h = some (.chunkSize n)) :
    h.messageType = MessageType.chunkSize.code := by
  have code {t : MessageType} (found : MessageType.ofCode h.messageType = some t) : t.code = h.messageType := by
    simpa using List.find?_some found
  unfold RtmpProtocol.deserialize at message
  split at message <;> rename_i found
  case h_7 => exact (code found).symm
  all_goals simp [RtmpProtocol.deserializePing, RtmpProtocol.deserializeSetPeerBandwidth, Option.map_eq_some_iff,
    Option.bind_eq_some_iff] at message

theorem deliver_chunkSize_other {p : RtmpParser} {header : RtmpHeader} {message : Message μ}
    (other : ∀ n, message ≠ .chunkSize n) : (p.deliver header message).1.chunkSize = p.chunkSize := by
  unfold deliver
  split
  · split <;> rfl
  · rename_i n
    exact absurd rfl (other n)
  · rfl
  · rfl

theorem dispatch_chunkSize_other {c : RtmpChannel}
    (other : c.receivedHeader.messageType ≠ MessageType.chunkSize.code) :
    (dispatch decode q c).1.chunkSize = q.chunkSize := by
  unfold dispatch
  dsimp only
  split
  · rfl
  · rename_i message decoded
    refine deliver_chunkSize_other fun n announces => other ?_
    exact deserialize_chunkSize decode (announces ▸ decoded)

theorem dispatch_chunkSize {c : RtmpChannel} {n : UInt32}
    (type : c.receivedHeader.messageType = MessageType.chunkSize.code)
    (body : c.buffer = u32Be n) (lower : 1 ≤ n.toNat)
    (upper : n.toNat ≤ 0xFFFFFF) : (dispatch decode q c).1.chunkSize = n := by
  have decoded : RtmpProtocol.deserialize decode c.buffer c.receivedHeader = some (.chunkSize n) := by
    have read : tryU32Be (u32Be n) = some (n, []) := by simpa using tryU32Be_u32Be n []
    have known := MessageType.ofCode_code (t := .chunkSize) (by decide)
    simp only [RtmpProtocol.deserialize, type, known, body, read, Option.map_some]
  have inRange : ¬(n < 1 ∨ n > eMaxPeerChunkSize) := by
    rintro (below | above)
    · have := UInt32.lt_iff_toNat_lt.mp below
      simp at this
      omega
    · have := UInt32.lt_iff_toNat_lt.mp above
      simp [eMaxPeerChunkSize] at this
      omega
  have unclamped : ¬n > eMaxChunkSize := by
    intro above
    have := UInt32.lt_iff_toNat_lt.mp above
    simp [eMaxChunkSize] at this
    omega
  simp only [dispatch, decoded, deliver, setChunkSize, inRange, unclamped, if_false]

end dispatch
end RtmpParser

/-- A message the wire can carry: a nameable chunk stream, a body within the parser's
limit, and for a chunk size announcement a size both sides accept. -/
structure RtmpMessage.Sendable (msg : RtmpMessage) (body : Bytes) : Prop where
  channel : RtmpHeader.ChannelIdOk msg.channelId
  payload : msg.payload = some body
  limit : body.length ≤ 8 * 1024 * 1024
  announces : msg.type = .chunkSize → ∃ n : UInt32, 1 ≤ n.toNat ∧ n.toNat ≤ 0xFFFFFF ∧ body = u32Be n

namespace ChunkWriter
open RtmpHeader RtmpChannel RtmpParser

/-- The reader's state that the writer's state stands for between two messages, with the
chunk streams in use among `ids`. -/
structure Simulates (ids : Finset UInt32) (w : ChunkWriter) (p : RtmpParser) : Prop where
  readHeader : p.readHeader = true
  framingError : p.framingError = false
  chunkSize : p.chunkSize = w.outgoingChunkSize
  positive : 0 < w.outgoingChunkSize.toNat
  sync : ∀ id, InSync (w.sentHeader id) (p.channels.getChannel id).1
  known : ∀ id, id ∈ p.channels → id ∈ ids

variable {p : RtmpParser}

theorem Simulates.room (sim : Simulates ids w p) (few : ids.card ≤ ChannelManager.eMaxChannels)
    {id : UInt32} (member : id ∈ ids) : id ∈ p.channels ∨ p.channels.keys.length < ChannelManager.eMaxChannels := by
  by_cases here : id ∈ p.channels
  · exact Or.inl here
  · right
    have subset : insert id p.channels.keys.toFinset ⊆ ids := by
      intro k hk
      rcases Finset.mem_insert.mp hk with rfl | old
      · exact member
      · exact sim.known k (List.mem_toFinset.mp old)
    have count := Finset.card_le_card subset
    have absent : id ∉ p.channels.keys.toFinset := fun old => here (List.mem_toFinset.mp old)
    rw [Finset.card_insert_of_notMem absent, List.toFinset_card_of_nodup p.channels.keys_nodup] at count
    omega

/-- The header `serialize` starts from. -/
def freshHeader (msg : RtmpMessage) (body : Bytes) : RtmpHeader :=
  { messageLength := UInt32.ofNat body.length, messageType := msg.type.code, streamId := msg.streamId,
    channelId := msg.channelId, timestamp := msg.timestamp }

theorem serialize_sendable (sendable : msg.Sendable body) {chunkSize : UInt32} (positive : 0 < chunkSize.toNat)
    (prev : RtmpHeader) :
    RtmpProtocol.serialize chunkSize msg prev =
      some (((freshHeader msg body).serialize prev).1, ((freshHeader msg body).serialize prev).2 ++
        RtmpProtocol.chunkBuffer chunkSize body ((freshHeader msg body).serialize prev).1) := by
  have limit := sendable.limit
  have length : (UInt32.ofNat body.length).toNat = body.length := toNat_word (by omega)
  have describable : ¬UInt32.ofNat body.length > RtmpHeader.eMaxMessageLength := by
    intro above
    have := UInt32.lt_iff_toNat_lt.mp above
    rw [length] at this
    simp [RtmpHeader.eMaxMessageLength] at this
    omega
  have size : RtmpProtocol.chunkSizeOf chunkSize = chunkSize := by
    refine if_pos fun zero => ?_
    simp [zero] at positive
  simp only [RtmpProtocol.serialize, sendable.payload, Option.bind_eq_bind, Option.bind_some, describable, if_false,
    size, length, List.take_length, Option.pure_def]
  rfl

theorem InSync.cleared {prev : RtmpHeader} {before after : Option RtmpChannel} {fresh : RtmpChannel}
    (sync : InSync prev (before.getD fresh)) (cleared : Cleared before after) : InSync prev (after.getD fresh) := by
  rcases cleared with rfl | ⟨c, rfl, rfl⟩
  · exact sync
  · exact ⟨rfl, rfl, sync.held⟩

theorem getChannel_getD (m : ChannelManager) (id : UInt32) :
    (m.getChannel id).1 = (m.findChannel id).getD { id } := by
  unfold ChannelManager.getChannel
  cases m.findChannel id <;> rfl

theorem sentHeader_insert (w : ChunkWriter) (id other : UInt32) (h : RtmpHeader) :
    ({ w with sent := w.sent.insert id h } : ChunkWriter).sentHeader other =
      if other = id then h else w.sentHeader other := by
  unfold sentHeader
  by_cases same : other = id
  · subst same
    simp [AList.lookup_insert]
  · simp [AList.lookup_insert_ne same, same]

theorem serialize_fields (w prev : RtmpHeader) :
    (w.serialize prev).1.channelId = w.channelId ∧ (w.serialize prev).1.messageLength = w.messageLength ∧
      (w.serialize prev).1.messageType = w.messageType ∧ (w.serialize prev).1.streamId = w.streamId ∧
      (w.serialize prev).1.timestamp = w.timestamp := by
  have each (h : RtmpHeader) (format : HeaderType) : (h.serializeAs format).1 = { h with headerType := format } := by
    cases format <;> rfl
  unfold RtmpHeader.serialize
  dsimp only
  repeat' split
  all_goals simp only [each, and_self]

variable {μ : Type}

/-- The writer and the reader take up an announced chunk size together. -/
theorem chunkSize_step (decode : RtmpHeader → Bytes → Option μ) (sendable : msg.Sendable body)
    {c : RtmpChannel} (type : c.receivedHeader.messageType = msg.type.code) (buffer : c.buffer = body)
    (agree : q.chunkSize = w.outgoingChunkSize) (positive : 0 < w.outgoingChunkSize.toNat) :
    ∃ size, (w.serializeMessage msg).1.outgoingChunkSize = size ∧ (dispatch decode q c).1.chunkSize = size ∧
      0 < size.toNat := by
  have written : (w.serializeMessage msg).1.outgoingChunkSize =
      (w.announce msg).outgoingChunkSize := by
    simp only [serializeMessage, serialize_sendable sendable positive]
  by_cases control : msg.type = .chunkSize
  · obtain ⟨n, lower, upper, bytes⟩ := sendable.announces control
    have size : announced msg = some n := by
      have read : tryU32Be (u32Be n) = some (n, []) := by simpa using tryU32Be_u32Be n []
      simp only [announced, control, sendable.payload, bytes, read, Option.map_some]
    have notZero : n ≠ 0 := by
      rintro rfl
      simp at lower
    refine ⟨n, ?_, dispatch_chunkSize decode (type.trans (congrArg _ control))
      (buffer.trans bytes) lower upper, lower⟩
    simp only [written, announce, size, setOutgoingChunkSize, notZero, if_false]
  · have other : c.receivedHeader.messageType ≠ MessageType.chunkSize.code := by
      rw [type]
      revert control
      cases msg.type <;> decide
    refine ⟨w.outgoingChunkSize, ?_, (dispatch_chunkSize_other decode other).trans agree, positive⟩
    have none : announced msg = none := by
      unfold announced
      split
      · rename_i is _
        exact absurd is control
      · rfl
    rw [written, announce, none]

theorem sentHeader_serializeMessage (sendable : msg.Sendable body) (positive : 0 < w.outgoingChunkSize.toNat)
    (id : UInt32) :
    (w.serializeMessage msg).1.sentHeader id = if id = msg.channelId then
      ((freshHeader msg body).serialize (w.sentHeader msg.channelId)).1 else w.sentHeader id := by
  rw [serializeMessage, serialize_sendable sendable positive]
  dsimp only
  rw [sentHeader_insert]
  refine congrArg (ite _ _) ?_
  unfold announce
  split
  · unfold setOutgoingChunkSize
    split <;> rfl
  · rfl

/-- What the round trip has to preserve of a message. -/
def summary (msg : RtmpMessage) : UInt8 × UInt32 × UInt32 × UInt32 × Bytes :=
  (msg.type.code, msg.streamId, msg.channelId, msg.timestamp, msg.payload.getD [])

def assembledSummary {μ : Type} (a : Assembled μ) : UInt8 × UInt32 × UInt32 × UInt32 × Bytes :=
  (a.header.messageType, a.header.streamId, a.header.channelId, a.header.timestamp, a.body)

/-- The parser with the header of a message read and its channel open. -/
def opening (p : RtmpParser) (id : UInt32) (c : RtmpChannel) : RtmpParser :=
  { p with channels := (p.channels.getChannel id).2.store id c, channelId := id, readHeader := false }

section message
variable {p : RtmpParser} {written : RtmpHeader × Bytes}

theorem headed (sendable : msg.Sendable body)
    (header : (freshHeader msg body).serialize (w.sentHeader msg.channelId) = written) (more : Bytes) :
    peekChannelId (written.2 ++ more) = some msg.channelId ∧ written.2 ++ more ≠ [] := by
  obtain ⟨format, tail, basic⟩ := header ▸ serialize_basicHeader (freshHeader msg body) (w.sentHeader msg.channelId)
  obtain ⟨b, rest, _, bytes, _⟩ := basicHeader_spec format sendable.channel
  rw [basic, List.append_assoc]
  refine ⟨peekChannelId_basicHeader format sendable.channel _, ?_⟩
  rw [show (freshHeader msg body).channelId = msg.channelId from rfl, bytes]
  simp

/-- The header is read, and the parser is ready for the body. -/
theorem Simulates.opens (sim : Simulates ids w p) (sendable : msg.Sendable body)
    (header : (freshHeader msg body).serialize (w.sentHeader msg.channelId) = written)
    (few : ids.card ≤ ChannelManager.eMaxChannels) (member : msg.channelId ∈ ids) (more : Bytes) :
    written.2 ++ more ≠ [] ∧ ∃ c, p.headerPhase (written.2 ++ more) = .ok (opening p msg.channelId c, more) ∧
      Holding (Announced written.1) written.1.channelId written.1.messageLength [] (opening p msg.channelId c) c := by
  have limit := sendable.limit
  have length : (freshHeader msg body).messageLength.toNat = body.length := toNat_word (by omega)
  have channelId := (header ▸ serialize_fields (freshHeader msg body) (w.sentHeader msg.channelId)).1
  obtain ⟨c, read, opened⟩ := header ▸ read_first (w := freshHeader msg body) sendable.channel (by omega)
    (sim.sync msg.channelId) more
  obtain ⟨peek, entered⟩ := headed sendable header more
  refine ⟨entered, c, headerPhase_read sim.readHeader peek
    (ChannelManager.openChannel_get (sim.room few member)) read, ?_⟩
  exact {
    current := channelId.symm
    channel := by
      rw [channelId]
      exact ChannelManager.getChannel_store _ _ _
    buffer := opened.buffer.trans (sim.sync msg.channelId).buffer
    messageLen := by
      rw [opened.messageLen, (sim.sync msg.channelId).messageLen]
      rfl
    messageLength := opened.messageLength
    header := opened.announced }

/-- Once the message is dispatched, the parser is where the writer is. -/
theorem Simulates.dispatched {μ : Type} (sim : Simulates ids w p) (sendable : msg.Sendable body)
    (header : (freshHeader msg body).serialize (w.sentHeader msg.channelId) = written)
    (decode : RtmpHeader → Bytes → Option μ) (member : msg.channelId ∈ ids) {c c' : RtmpChannel}
    (whole : Whole (Announced written.1) written.1.channelId body q c')
    (frame : Undisturbed written.1.channelId (opening p msg.channelId c) q) :
    Simulates ids (w.serializeMessage msg).1 (dispatch decode q c').1 := by
  obtain ⟨channelId, _, messageType, _, _⟩ :=
    header ▸ serialize_fields (freshHeader msg body) (w.sentHeader msg.channelId)
  have current : q.channelId = msg.channelId := whole.current.trans channelId
  obtain ⟨noError, stored, others⟩ := dispatch_frame decode q c'
  have unchanged (other : UInt32) (different : other ≠ msg.channelId) :
      Cleared (p.channels.findChannel other) ((dispatch decode q c').1.channels.findChannel other) := by
    have same := frame.others other (by rw [channelId]; exact different)
    rw [opening, ChannelManager.findChannel_store_ne _ different, ChannelManager.getChannel_insert different] at same
    exact same ▸ others other (current ▸ different)
  obtain ⟨size, outgoing, incoming, positive⟩ := chunkSize_step decode sendable (w := w) (q := q)
    (whole.header.messageType.trans messageType) whole.buffer (frame.chunkSize.trans sim.chunkSize) sim.positive
  exact {
    readHeader := (dispatch_readHeader decode q c').trans whole.readHeader
    framingError := noError.trans (frame.framingError.trans sim.framingError)
    chunkSize := incoming.trans outgoing.symm
    positive := outgoing ▸ positive
    sync := by
      intro id
      rw [sentHeader_serializeMessage sendable sim.positive, getChannel_getD]
      by_cases same : id = msg.channelId
      · rw [if_pos same, same, ← current, stored, current, header]
        exact ⟨rfl, rfl, fun _ => ⟨whole.complete, whole.header⟩⟩
      · rw [if_neg same]
        exact InSync.cleared (getChannel_getD p.channels id ▸ sim.sync id) (unchanged id same)
    known := by
      intro id present
      by_cases same : id = msg.channelId
      · exact same ▸ member
      · refine sim.known id (AList.lookup_isSome.mp ?_)
        have found : ((dispatch decode q c').1.channels.findChannel id).isSome := AList.lookup_isSome.mpr present
        show (p.channels.findChannel id).isSome
        rcases unchanged id same with kept | ⟨c, was, _⟩
        · rw [← kept]
          exact found
        · rw [was]
          rfl }

end message

theorem Simulates.message (decode : RtmpHeader → Bytes → Option μ)
    (sim : Simulates ids w p)
    (few : ids.card ≤ ChannelManager.eMaxChannels) (sendable : msg.Sendable body) (member : msg.channelId ∈ ids)
    (rest : Bytes) :
    ∃ p' a, (scanner decode).run p ((w.serializeMessage msg).2 ++ rest) =
        { (scanner decode).run p' rest with out := a :: ((scanner decode).run p' rest).out } ∧
      Simulates ids (w.serializeMessage msg).1 p' ∧ assembledSummary a = summary msg := by
  have positive := sim.positive
  have limit := sendable.limit
  generalize header : (freshHeader msg body).serialize (w.sentHeader msg.channelId) = written
  obtain ⟨channelId, messageLength, messageType, streamId, timestamp⟩ :=
    header ▸ serialize_fields (freshHeader msg body) (w.sentHeader msg.channelId)
  have total : written.1.messageLength.toNat = body.length := by
    rw [messageLength]
    exact toNat_word (by omega)
  obtain ⟨chunks, framed, lower, upper⟩ := chunkBuffer_eq p.chunkSize (sim.chunkSize ▸ positive) body written.1
  have bytes : (w.serializeMessage msg).2 = written.2 ++ RtmpProtocol.chunkLoop p.chunkSize.toNat
      written.1.serializeHeaderContinueSize chunks body := by
    rw [serializeMessage, serialize_sendable sendable positive, header, ← sim.chunkSize, framed]
  obtain ⟨entered, c, phase, holding⟩ :=
    sim.opens sendable header few member (RtmpProtocol.chunkLoop p.chunkSize.toNat
    written.1.serializeHeaderContinueSize chunks body ++ rest)
  have ok : ChannelIdOk written.1.channelId := channelId ▸ sendable.channel
  obtain ⟨q, c', whole, frame, run⟩ :=
    holding.run_body decode (fun _ => Continues.announced ok) (i := 0) (by omega) rest
    chunks (s := p) (fun zero => by simp [← sim.chunkSize, show p.chunkSize = 0 from zero] at positive)
    entered (by simp only [step, phase]; rfl) (by simpa using total) lower upper
  refine ⟨_, _, by rw [bytes, List.append_assoc]; exact run,
    sim.dispatched sendable header decode member whole frame, ?_⟩
  simp only [assembledSummary, summary, whole.header.messageType, whole.header.streamId,
    whole.header.channelId, whole.header.timestamp, messageType, streamId, channelId, timestamp,
    sendable.payload, Option.getD_some, List.nil_append]
  rfl

theorem serializeAll_cons (w : ChunkWriter) (msg : RtmpMessage) (rest : List RtmpMessage) :
    w.serializeAll (msg :: rest) =
      (((w.serializeMessage msg).1.serializeAll rest).1,
        (w.serializeMessage msg).2 ++ ((w.serializeMessage msg).1.serializeAll rest).2) := rfl

theorem Simulates.run_messages (decode : RtmpHeader → Bytes → Option μ)
    (few : ids.card ≤ ChannelManager.eMaxChannels) (msgs : List RtmpMessage)
    (sendable : ∀ msg ∈ msgs, (∃ body, msg.Sendable body) ∧ msg.channelId ∈ ids)
    (sim : Simulates ids w p) :
    ((scanner decode).run p (w.serializeAll msgs).2).out.map assembledSummary = msgs.map summary ∧
      ((scanner decode).run p (w.serializeAll msgs).2).rest = [] ∧
      ((scanner decode).run p (w.serializeAll msgs).2).state.framingError = false := by
  induction msgs generalizing w p with
  | nil =>
    simp only [serializeAll, Scanner.run_nil, List.map_nil, true_and]
    exact sim.framingError
  | cons msg msgs ih =>
    obtain ⟨⟨body, this⟩, member⟩ := sendable msg (List.mem_cons_self ..)
    obtain ⟨p', a, run, sim', same⟩ := sim.message decode few this member
      ((w.serializeMessage msg).1.serializeAll msgs).2
    obtain ⟨out, rest, noError⟩ := ih (fun m hm => sendable m (List.mem_cons_of_mem _ hm)) sim'
    rw [serializeAll_cons, run]
    exact ⟨by rw [List.map_cons, List.map_cons, same, out], rest, noError⟩

/-- Whatever list of messages is written through `serialize`, with the header last sent on
each chunk stream as the previous one, a fresh parser reads the same list back, to
the last byte and without a framing error. The body codec plays no part. -/
theorem chunk_round_trip (decode : RtmpHeader → Bytes → Option μ) (chunkSize : UInt32)
    (lower : 1 ≤ chunkSize.toNat) (upper : chunkSize.toNat ≤ 0xFFFFFF) (msgs : List RtmpMessage)
    (sendable : ∀ msg ∈ msgs, ∃ body, msg.Sendable body)
    (few : (msgs.map RtmpMessage.channelId).toFinset.card ≤ 4096) :
    let bytes := (({ outgoingChunkSize := chunkSize } : ChunkWriter).serializeAll msgs).2
    let parsed := parse decode (({} : RtmpParser).setChunkSize chunkSize) (({} : ByteWriter).write bytes)
    parsed.out.map assembledSummary = msgs.map summary ∧ parsed.buffer.data = [] ∧
      parsed.parser.framingError = false := by
  have inRange : ¬(chunkSize < 1 ∨ chunkSize > eMaxPeerChunkSize) ∧ ¬chunkSize > eMaxChunkSize := by
    simp only [UInt32.lt_iff_toNat_lt, gt_iff_lt, eMaxPeerChunkSize, eMaxChunkSize, UInt32.reduceToNat]
    omega
  have start : Simulates (msgs.map RtmpMessage.channelId).toFinset { outgoingChunkSize := chunkSize }
      (({} : RtmpParser).setChunkSize chunkSize) := by
    rw [setChunkSize, if_neg inRange.1, if_neg inRange.2]
    exact {
      readHeader := rfl
      framingError := rfl
      chunkSize := rfl
      positive := lower
      sync := fun id => ⟨rfl, rfl, fun named => absurd rfl named⟩
      known := fun id present => absurd present (AList.notMem_empty id) }
  have run := start.run_messages decode few msgs fun msg member =>
    ⟨sendable msg member, List.mem_toFinset.mpr (List.mem_map_of_mem member)⟩
  dsimp only
  rw [parse_out, parse_state, parse_data, ByteWriter.data_write]
  exact run

/-- One byte per chunk at first, then a larger size announced on the control stream. -/
theorem chunk_round_trip_announced :
    let msgs : List RtmpMessage :=
      [⟨.audioData, 1, 4, 7, some [10, 20, 30]⟩, ⟨.chunkSize, 0, 2, 0, some (u32Be 4096)⟩,
        ⟨.audioData, 1, 4, 0xffffffff, some [40, 50]⟩]
    let bytes := (({ outgoingChunkSize := 1 } : ChunkWriter).serializeAll msgs).2
    let parsed := parse (fun _ _ => (none : Option Unit)) (({} : RtmpParser).setChunkSize 1)
      (({} : ByteWriter).write bytes)
    parsed.out.map assembledSummary = msgs.map summary ∧ parsed.buffer.data = [] ∧
      parsed.parser.framingError = false := by
  refine chunk_round_trip _ 1 (by decide) (by decide) _ ?_ (by decide)
  intro msg member
  simp only [List.mem_cons, List.not_mem_nil, or_false] at member
  rcases member with rfl | rfl | rfl
  · exact ⟨_, ⟨by decide, by decide⟩, rfl, by decide, fun control => by cases control⟩
  · exact ⟨_, ⟨by decide, by decide⟩, rfl, by decide, fun _ => ⟨4096, by decide, by decide, rfl⟩⟩
  · exact ⟨_, ⟨by decide, by decide⟩, rfl, by decide, fun control => by cases control⟩

end ChunkWriter
end Fms
