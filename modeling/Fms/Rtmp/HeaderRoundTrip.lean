import Fms.Rtmp.Channel

namespace Fms
open ByteWire

variable {c : RtmpChannel} {h w : RtmpHeader}

namespace RtmpHeader

/-- The chunk stream ids a basic header can name. -/
def ChannelIdOk (id : UInt32) : Prop := 2 ≤ id.toNat ∧ id.toNat ≤ 65599

theorem oneByteHeader (format : HeaderType) (k : Fin 64) :
    HeaderType.ofByte (UInt8.ofNat k ||| format.bits) = format ∧
      (UInt8.ofNat k ||| format.bits) &&& 0x3f = UInt8.ofNat k := by
  cases format <;> revert k <;> decide

theorem longHeader (format : HeaderType) :
    HeaderType.ofByte format.bits = format ∧ format.bits &&& 0x3f = 0 ∧
      HeaderType.ofByte (format.bits ||| 1) = format ∧ (format.bits ||| 1) &&& 0x3f = 1 := by
  cases format <;> decide

/-- The first byte of a basic header gives the format back, and the bytes behind it
the channel. -/
theorem basicHeader_spec (format : HeaderType) {id : UInt32} (ok : ChannelIdOk id) :
    ∃ c tail count, basicHeader format id = c :: tail ∧ HeaderType.ofByte c = format ∧
      ∀ rest, tryChannelId c (tail ++ rest) = some ((id, count), rest) := by
  obtain ⟨lower, upper⟩ := ok
  unfold basicHeader
  split
  · rename_i small
    have bound : id.toNat < 64 := UInt32.lt_iff_toNat_lt.mp small
    obtain ⟨kind, low⟩ := oneByteHeader format ⟨id.toNat, bound⟩
    have byte : id.toUInt8 = UInt8.ofNat id.toNat := rfl
    refine ⟨_, [], 1, rfl, byte ▸ kind, fun rest => ?_⟩
    have name : (UInt8.ofNat id.toNat).toUInt32 = id := by
      apply UInt32.toNat_inj.mp
      simp only [UInt8.toNat_toUInt32, UInt8.toNat_ofNat']
      omega
    have notZero : UInt8.ofNat id.toNat ≠ 0 := by
      intro zero
      have := congrArg UInt8.toNat zero
      simp only [UInt8.toNat_ofNat', UInt8.toNat_zero] at this
      omega
    have notOne : UInt8.ofNat id.toNat ≠ 1 := by
      intro one
      have := congrArg UInt8.toNat one
      simp only [UInt8.toNat_ofNat', UInt8.toNat_one] at this
      omega
    simp only [tryChannelId, byte, low, notZero, notOne, if_false, name, List.nil_append]
  · rename_i notSmall
    have bound : 64 ≤ id.toNat := by
      have := UInt32.lt_iff_toNat_lt.not.mp notSmall
      simpa using this
    obtain ⟨kind, low, kind', low'⟩ := longHeader format
    split
    · rename_i medium
      have top : id.toNat ≤ 319 := UInt32.le_iff_toNat_le.mp medium
      refine ⟨_, [id.toUInt8 - 64], 2, rfl, kind, fun rest => ?_⟩
      have name : 64 + (id.toUInt8 - 64).toUInt32 = id := by
        apply UInt32.toNat_inj.mp
        simp only [UInt32.toNat_add, UInt8.toNat_toUInt32, UInt8.toNat_sub, UInt32.toNat_toUInt8,
          UInt32.reduceToNat, UInt8.reduceToNat]
        omega
      simp only [tryChannelId, low, if_true, List.cons_append, List.nil_append, tryU8, Option.bind_eq_bind,
        Option.bind_some, name, Option.pure_def]
    · refine ⟨_, u16Le (id - 64).toUInt16, 3, rfl, kind', fun rest => ?_⟩
      have bytes : u16Le (id - 64).toUInt16 =
          [UInt8.ofNat (id.toNat - 64), UInt8.ofNat ((id.toNat - 64) / 256)] := by
        have value : (id - 64).toUInt16.toNat = id.toNat - 64 := by
          simp only [UInt32.toNat_toUInt16, UInt32.toNat_sub, UInt32.reduceToNat]
          omega
        simp only [u16Le, leBytes, beBytes, value, Nat.pow_zero, Nat.pow_one, Nat.div_one, List.reverse_cons,
          List.reverse_nil, List.nil_append, List.cons_append]
      have name : 64 + (UInt8.ofNat (id.toNat - 64)).toUInt32 +
          (UInt8.ofNat ((id.toNat - 64) / 256)).toUInt32 * 256 = id := by
        apply UInt32.toNat_inj.mp
        simp only [UInt32.toNat_add, UInt32.toNat_mul, UInt8.toNat_toUInt32, UInt8.toNat_ofNat',
          UInt32.reduceToNat]
        omega
      simp only [tryChannelId, low', bytes, tryU8, name, if_true, List.cons_append, List.nil_append,
        Option.bind_eq_bind, Option.bind_some, Option.pure_def, show (1 : UInt8) ≠ 0 by decide, if_false]

/-- The reader's side of one header: the basic header selects the format, whose own
reader goes on behind it. -/
theorem tryDeserialize_basic (h : RtmpHeader) (format : HeaderType) {id : UInt32} (ok : ChannelIdOk id) :
    ∃ count, ∀ tail, tryDeserialize h (basicHeader format id ++ tail) =
      (tryMessageHeader { h with headerType := format, channelId := id } tail).map
        fun ((h, size), r) => ({ h with headerSize := count + size }, r) := by
  obtain ⟨c, ids, count, bytes, kind, names⟩ := basicHeader_spec format ok
  refine ⟨count, fun tail => ?_⟩
  rw [bytes, List.cons_append]
  simp only [tryDeserialize, tryU8, Option.bind_eq_bind, Option.bind_some, names, kind, Option.pure_def,
    Option.map_eq_bind]
  rfl

/-- Whether a time value needs the extended field. -/
def extended (ts : UInt32) : Bool := decide (0x00ffffff ≤ ts.toNat)

theorem not_extended {ts : UInt32} (below : extended ts = false) :
    timeField ts = u24Be ts ∧ extendedField ts = [] ∧ ts.toNat < 2 ^ 24 ∧ ts ≠ 0x00ffffff := by
  have small : ts.toNat < 0x00ffffff := by simpa [extended] using below
  have lt : ts < 0x00ffffff := UInt32.lt_iff_toNat_lt.mpr small
  refine ⟨if_pos lt, if_neg ?_, by omega, ?_⟩
  · intro ge
    exact absurd (UInt32.le_iff_toNat_le.mp ge) (by simpa using small)
  · rintro rfl
    simp at small

theorem is_extended {ts : UInt32} (above : extended ts = true) :
    timeField ts = u24Be 0x00ffffff ∧ extendedField ts = u32Be ts := by
  have large : 0x00ffffff ≤ ts.toNat := by simpa [extended] using above
  have ge : ts ≥ 0x00ffffff := UInt32.le_iff_toNat_le.mpr large
  refine ⟨if_neg ?_, if_pos ge⟩
  intro lt
  exact absurd (UInt32.lt_iff_toNat_lt.mp lt) (by simpa using large)

theorem tryExtendedTs_serialized (h : RtmpHeader) (delta : UInt32) (rest : Bytes) :
    tryExtendedTs { h with tsDeltaRead := if extended delta then 0x00ffffff else delta }
        (extendedField delta ++ rest) =
      some ({ h with tsDeltaRead := delta, hasExtendedTs := extended delta }, rest) := by
  cases large : extended delta with
  | false =>
    obtain ⟨_, noField, _, different⟩ := not_extended large
    simp only [noField, tryExtendedTs, Bool.false_eq_true, if_false, different, List.nil_append]
  | true =>
    obtain ⟨_, more⟩ := is_extended large
    simp only [more, tryExtendedTs, if_true, tryU32Be_u32Be, Option.map_some]

theorem tryU24Be_timeField (ts : UInt32) (rest : Bytes) :
    tryU24Be (timeField ts ++ rest) = some (if extended ts then 0x00ffffff else ts, rest) := by
  cases large : extended ts with
  | false =>
    obtain ⟨field, _, small, _⟩ := not_extended large
    rw [field, tryU24Be_u24Be small]
    rfl
  | true =>
    rw [(is_extended large).1, tryU24Be_u24Be (by decide)]
    rfl

theorem tryDeserialize_headerNew (h w : RtmpHeader) (ok : ChannelIdOk w.channelId)
    (length : w.messageLength.toNat < 2 ^ 24) (rest : Bytes) :
    ∃ headerSize, tryDeserialize h (w.serializeHeaderNew ++ rest) =
      some ({ h with
        headerSize
        headerType := .headerNew
        channelId := w.channelId
        tsDeltaRead := 0
        timestamp := w.timestamp
        messageLength := w.messageLength
        messageType := w.messageType
        streamId := w.streamId
        hasExtendedTs := extended w.timestamp }, rest) := by
  obtain ⟨count, read⟩ := tryDeserialize_basic h .headerNew ok
  refine ⟨count + 11, ?_⟩
  simp only [serializeHeaderNew, List.append_assoc, List.cons_append, List.nil_append, read, tryMessageHeader,
    tryHeaderNew, tryU24Be_timeField, tryU24Be_u24Be length, tryU8, tryU32Le_u32Le, Option.bind_eq_bind,
    Option.bind_some]
  cases large : extended w.timestamp with
  | false =>
    obtain ⟨_, noField, _, different⟩ := not_extended large
    simp [noField, different]
  | true => simp [(is_extended large).2, tryU32Be_u32Be]

theorem tryDeserialize_headerSameSource (h w : RtmpHeader) (ok : ChannelIdOk w.channelId)
    (length : w.messageLength.toNat < 2 ^ 24) (rest : Bytes) :
    ∃ headerSize, tryDeserialize h (w.serializeHeaderSameSource ++ rest) =
      some ({ h with
        headerSize
        headerType := .headerSameSource
        channelId := w.channelId
        tsDeltaRead := w.tsDeltaWrite
        timestamp := h.timestamp + w.tsDeltaWrite
        messageLength := w.messageLength
        messageType := w.messageType
        hasExtendedTs := extended w.tsDeltaWrite }, rest) := by
  obtain ⟨count, read⟩ := tryDeserialize_basic h .headerSameSource ok
  refine ⟨count + 7, ?_⟩
  simp only [serializeHeaderSameSource, List.append_assoc, List.cons_append, List.nil_append, read, tryMessageHeader,
    tryHeaderSameSource, tryU24Be_timeField, tryU24Be_u24Be length, tryU8, Option.bind_eq_bind, Option.bind_some]
  rw [tryExtendedTs_serialized { h with
    headerType := .headerSameSource, channelId := w.channelId, messageLength := w.messageLength
    messageType := w.messageType }]
  rfl

theorem tryDeserialize_headerTimerChange (h w : RtmpHeader) (ok : ChannelIdOk w.channelId) (rest : Bytes) :
    ∃ headerSize, tryDeserialize h (w.serializeHeaderTimerChange ++ rest) =
      some ({ h with
        headerSize
        headerType := .headerTimerChange
        channelId := w.channelId
        tsDeltaRead := w.tsDeltaWrite
        timestamp := h.timestamp + w.tsDeltaWrite
        hasExtendedTs := extended w.tsDeltaWrite }, rest) := by
  obtain ⟨count, read⟩ := tryDeserialize_basic h .headerTimerChange ok
  refine ⟨count + 3, ?_⟩
  simp only [serializeHeaderTimerChange, List.append_assoc, read, tryMessageHeader, tryHeaderTimerChange,
    tryU24Be_timeField, Option.bind_eq_bind, Option.bind_some]
  rw [tryExtendedTs_serialized { h with headerType := .headerTimerChange, channelId := w.channelId }]
  rfl

theorem tryDeserialize_headerContinue (h w : RtmpHeader) (ok : ChannelIdOk w.channelId)
    (agree : h.hasExtendedTs = extended w.repeatedTs) (rest : Bytes) :
    ∃ headerSize, tryDeserialize h (w.serializeHeaderContinueSize ++ rest) =
      some ({ h with headerSize, headerType := .headerContinue, channelId := w.channelId }, rest) := by
  obtain ⟨count, read⟩ := tryDeserialize_basic h .headerContinue ok
  refine ⟨count + 0, ?_⟩
  simp only [serializeHeaderContinueSize, List.append_assoc, read, tryMessageHeader, tryHeaderContinue, agree]
  cases large : extended w.repeatedTs with
  | false => simp [(not_extended large).2.1]
  | true => simp [(is_extended large).2, tryU32Be_u32Be]

/-- The header a reader holds describes the message that a written header announced,
and carries what a continuation of it or a type-3 header after it relies on. -/
structure Announced (w h : RtmpHeader) : Prop where
  timestamp : h.timestamp = w.timestamp
  streamId : h.streamId = w.streamId
  messageLength : h.messageLength = w.messageLength
  messageType : h.messageType = w.messageType
  channelId : h.channelId = w.channelId
  field : h.hasExtendedTs = extended w.repeatedTs
  delta : w.headerType = .headerTimerChange → h.headerType ≠ .headerNew ∧ h.tsDeltaRead = w.tsDeltaWrite

end RtmpHeader

namespace RtmpChannel
open RtmpHeader

/-- Between two messages: nothing is buffered, and unless the next header will be a
full one the reader holds what the writer will leave out. -/
structure InSync (prev : RtmpHeader) (c : RtmpChannel) : Prop where
  buffer : c.buffer = []
  messageLen : c.messageLen = 0
  held : prev.streamId ≠ 0 → c.prevMessageComplete = true ∧ Announced prev c.receivedHeader

/-- What a channel becomes when a header has been read on it. -/
def withHeader (c : RtmpChannel) (h : RtmpHeader) : RtmpChannel :=
  { c with
    receivedHeader := h
    prevHeaderType := c.receivedHeader.headerType
    prevTimeDelta := c.receivedHeader.tsDeltaRead
    prevTimestamp := c.receivedHeader.timestamp }

theorem tryDeserializeHeader_of {r rest : Bytes} (read : c.receivedHeader.tryDeserialize r = some (h, rest)) :
    c.tryDeserializeHeader r = some (c.withHeader h, rest) := by
  simp only [tryDeserializeHeader, read, Option.map_some, withHeader]

@[simp] theorem adjustTimestamp_frame (c : RtmpChannel) :
    c.adjustTimestamp.buffer = c.buffer ∧ c.adjustTimestamp.messageLen = c.messageLen ∧
      c.adjustTimestamp.receivedHeader.messageLength = c.receivedHeader.messageLength := by
  unfold adjustTimestamp
  dsimp only
  split
  · exact ⟨rfl, rfl, rfl⟩
  · split
    · exact ⟨rfl, rfl, rfl⟩
    · split <;> exact ⟨rfl, rfl, rfl⟩

theorem adjustTimestamp_other
    (other : c.prevMessageComplete = false ∨ c.receivedHeader.headerType ≠ .headerContinue) :
    c.adjustTimestamp.receivedHeader = c.receivedHeader := by
  have not : ¬(c.prevMessageComplete = true ∧ c.receivedHeader.headerType = .headerContinue) := by
    rintro ⟨complete, continued⟩
    rcases other with partly | different
    · simp [partly] at complete
    · exact different continued
  simp only [adjustTimestamp, not, and_false, if_false]
  split <;> rfl

theorem adjustTimestamp_opening (complete : c.prevMessageComplete = true)
    (continued : c.receivedHeader.headerType = .headerContinue) (after : c.prevHeaderType ≠ .headerNew) :
    c.adjustTimestamp.receivedHeader =
      { c.receivedHeader with timestamp := c.receivedHeader.timestamp + c.prevTimeDelta } := by
  have known : c.prevHeaderType = .headerTimerChange ∨ c.prevHeaderType = .headerSameSource ∨
      c.prevHeaderType = .headerContinue := by
    cases kind : c.prevHeaderType with
    | headerNew => exact absurd kind after
    | headerSameSource => simp
    | headerTimerChange => simp
    | headerContinue => simp
  simp only [adjustTimestamp, complete, continued, known, and_self, if_true]

/-- A channel that has read a header `w` announced: once the payload arrives and the
timestamp is adjusted, it describes the message. -/
structure Opened (w : RtmpHeader) (before c : RtmpChannel) : Prop where
  buffer : c.buffer = before.buffer
  messageLen : c.messageLen = before.messageLen
  messageLength : c.receivedHeader.messageLength = w.messageLength
  announced : Announced w c.adjustTimestamp.receivedHeader

theorem Opened.of_announced (announced : Announced w h)
    (other : c.prevMessageComplete = false ∨ h.headerType ≠ .headerContinue) : Opened w c (c.withHeader h) where
  buffer := rfl
  messageLen := rfl
  messageLength := announced.messageLength
  announced := by rw [adjustTimestamp_other (c := c.withHeader h) other]; exact announced

/-- The chunks after the first: a continuation header changes nothing that describes
the message. -/
theorem read_continuation (ok : ChannelIdOk w.channelId) (announced : Announced w h) (rest : Bytes) :
    ∃ h', h.tryDeserialize (w.serializeHeaderContinueSize ++ rest) = some (h', rest) ∧ Announced w h' := by
  obtain ⟨headerSize, read⟩ := tryDeserialize_headerContinue h w ok announced.field rest
  refine ⟨_, read, ?_⟩
  exact {
    timestamp := announced.timestamp
    streamId := announced.streamId
    messageLength := announced.messageLength
    messageType := announced.messageType
    channelId := rfl
    field := announced.field
    delta := fun change => ⟨by simp, (announced.delta change).2⟩ }

theorem read_headerNew (ok : ChannelIdOk w.channelId) (length : w.messageLength.toNat < 2 ^ 24)
    (kind : w.headerType = .headerNew) (rest : Bytes) :
    ∃ c', c.tryDeserializeHeader (w.serializeHeaderNew ++ rest) = some (c', rest) ∧ Opened w c c' := by
  obtain ⟨headerSize, read⟩ := tryDeserialize_headerNew c.receivedHeader w ok length rest
  refine ⟨_, tryDeserializeHeader_of read, .of_announced ?_ (.inr (by simp))⟩
  exact {
    timestamp := rfl
    streamId := rfl
    messageLength := rfl
    messageType := rfl
    channelId := rfl
    field := by simp [repeatedTs, kind]
    delta := fun change => by simp [kind] at change }

theorem add_sub_self (a b : UInt32) : a + (b - a) = b := by
  rw [UInt32.add_comm, UInt32.sub_add_cancel]

/-- The first header of a message: whichever of the four formats the writer picks from
the header it sent before, a channel in step with that header completes it. -/
theorem read_first {prev : RtmpHeader} (ok : ChannelIdOk w.channelId) (length : w.messageLength.toNat < 2 ^ 24)
    (sync : InSync prev c) (rest : Bytes) :
    ∃ c', c.tryDeserializeHeader ((w.serialize prev).2 ++ rest) = some (c', rest) ∧
      Opened (w.serialize prev).1 c c' := by
  unfold RtmpHeader.serialize
  split
  · exact read_headerNew (w := { w with headerType := .headerNew }) ok length rfl rest
  · dsimp only
    split
    · rename_i same
      obtain ⟨source, stream⟩ := same
      obtain ⟨complete, held⟩ := sync.held source
      split
      · rename_i repeated
        obtain ⟨type, size⟩ := repeated
        split
        · rename_i again
          obtain ⟨delta, _, change⟩ := again
          obtain ⟨after, deltaRead⟩ := held.delta change
          have field : c.receivedHeader.hasExtendedTs = extended (w.timestamp - prev.timestamp) := by
            rw [held.field, repeatedTs, change, if_neg (by simp), delta]
          obtain ⟨headerSize, read⟩ := tryDeserialize_headerContinue c.receivedHeader
            { w with tsDeltaWrite := w.timestamp - prev.timestamp, headerType := .headerContinue } ok field rest
          refine ⟨_, tryDeserializeHeader_of read, rfl, rfl, held.messageLength.trans size.symm, ?_⟩
          rw [adjustTimestamp_opening (by exact complete) (by rfl) (by exact after)]
          exact {
            timestamp := by
              show c.receivedHeader.timestamp + c.receivedHeader.tsDeltaRead = w.timestamp
              rw [held.timestamp, deltaRead, ← delta, add_sub_self]
            streamId := held.streamId.trans stream.symm
            messageLength := held.messageLength.trans size.symm
            messageType := held.messageType.trans type.symm
            channelId := rfl
            field := field
            delta := fun change => by simp [serializeAs] at change }
        · obtain ⟨headerSize, read⟩ := tryDeserialize_headerTimerChange c.receivedHeader
            { w with tsDeltaWrite := w.timestamp - prev.timestamp, headerType := .headerTimerChange } ok rest
          refine ⟨_, tryDeserializeHeader_of read, .of_announced ?_ (.inr (by simp))⟩
          exact {
            timestamp := by
              show c.receivedHeader.timestamp + (w.timestamp - prev.timestamp) = w.timestamp
              rw [held.timestamp, add_sub_self]
            streamId := held.streamId.trans stream.symm
            messageLength := held.messageLength.trans size.symm
            messageType := held.messageType.trans type.symm
            channelId := rfl
            field := rfl
            delta := fun _ => ⟨by simp, rfl⟩ }
      · obtain ⟨headerSize, read⟩ := tryDeserialize_headerSameSource c.receivedHeader
          { w with tsDeltaWrite := w.timestamp - prev.timestamp, headerType := .headerSameSource } ok length rest
        refine ⟨_, tryDeserializeHeader_of read, .of_announced ?_ (.inr (by simp))⟩
        exact {
          timestamp := by
            show c.receivedHeader.timestamp + (w.timestamp - prev.timestamp) = w.timestamp
            rw [held.timestamp, add_sub_self]
          streamId := held.streamId.trans stream.symm
          messageLength := rfl
          messageType := rfl
          channelId := rfl
          field := rfl
          delta := fun change => by simp [serializeAs] at change }
    · exact read_headerNew (w := { w with
        tsDeltaWrite := w.timestamp - prev.timestamp, headerType := .headerNew }) ok length rfl rest

end RtmpChannel
end Fms
