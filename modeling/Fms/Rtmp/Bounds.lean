import Fms.Base.Transition
import Fms.Rtmp.Resume
import Fms.Rtmp.RoundTrip

namespace Fms
open ByteWire Scan Transition

/-- What a channel has buffered fits the message it announced last, and that message is not too long. -/
structure RtmpChannel.Fits (c : RtmpChannel) : Prop where
  counted : c.messageLen.toNat = c.buffer.length
  inside : c.buffer.length ≤ c.receivedHeader.messageLength.toNat
  limit : c.receivedHeader.messageLength.toNat ≤ 8 * 1024 * 1024

namespace RtmpChannel

theorem fits_fresh (id : UInt32) : Fits { id } := ⟨rfl, Nat.le_refl 0, Nat.zero_le _⟩

theorem Fits.clearData {c : RtmpChannel} (fits : c.Fits) : c.clearData.Fits := ⟨rfl, Nat.zero_le _, fits.limit⟩

theorem tryDeserializeHeader_frame {c c' : RtmpChannel} {r rest : Bytes}
    (read : c.tryDeserializeHeader r = some (c', rest)) : c'.buffer = c.buffer ∧ c'.messageLen = c.messageLen := by
  obtain ⟨⟨h, behind⟩, _, same⟩ := Option.map_eq_some_iff.mp read
  cases same
  exact ⟨rfl, rfl⟩

theorem fits_addData {c : RtmpChannel} {payload : Bytes} (complete : Bool)
    (counted : c.messageLen.toNat = c.buffer.length)
    (room : c.buffer.length + payload.length ≤ c.receivedHeader.messageLength.toNat)
    (limit : c.receivedHeader.messageLength.toNat ≤ 8 * 1024 * 1024) :
    ((c.adjustTimestamp.addData payload).setPrevMessageComplete complete).Fits := by
  obtain ⟨buffer, messageLen, length⟩ := adjustTimestamp_frame c
  refine ⟨?_, ?_, ?_⟩
  · show (c.adjustTimestamp.messageLen + UInt32.ofNat payload.length).toNat =
      (c.adjustTimestamp.buffer ++ payload).length
    rw [UInt32.toNat_add, UInt32.toNat_ofNat', messageLen, buffer, List.length_append, counted]
    omega
  · show (c.adjustTimestamp.buffer ++ payload).length ≤ c.adjustTimestamp.receivedHeader.messageLength.toNat
    rwa [buffer, length, List.length_append]
  · show c.adjustTimestamp.receivedHeader.messageLength.toNat ≤ _
    rwa [length]

end RtmpChannel

namespace ChannelManager
variable {m m' : ChannelManager} {id : UInt32} {c : RtmpChannel}

def AllFit (m : ChannelManager) : Prop := ∀ id c, m.findChannel id = some c → c.Fits

theorem findChannel_store (m : ChannelManager) (id : UInt32)
    (c : RtmpChannel) : (m.store id c).findChannel id = some c :=
  AList.lookup_insert m

theorem size_store (found : m.findChannel id = some c) (c' : RtmpChannel) : (m.store id c').size = m.size := by
  have member : id ∈ m.keys := AList.mem_keys.mp (AList.lookup_isSome.mp (Option.isSome_of_eq_some found))
  unfold size store
  rw [AList.keys_insert, List.length_cons, List.length_erase_of_mem member]
  exact Nat.sub_add_cancel (List.length_pos_of_mem member)

theorem AllFit.store (fits : ∀ other c, other ≠ id → m.findChannel other = some c → c.Fits) (here : c.Fits) :
    (m.store id c).AllFit := by
  intro other c' found
  by_cases same : other = id
  · subst same
    rw [findChannel_store] at found
    cases found
    exact here
  · rw [findChannel_store_ne _ same] at found
    exact fits other c' same found

theorem openChannel_spec (opened : m.openChannel id = some (c, m')) :
    m'.findChannel id = some c ∧ (m' = m ∨ m' = m.store id { id } ∧ c = { id } ∧ m.findChannel id = none ∧
      m.size < eMaxChannels) := by
  unfold openChannel at opened
  split at opened
  · rename_i found
    cases opened
    exact ⟨found, .inl rfl⟩
  · rename_i absent
    split at opened
    · cases opened
    · rename_i room
      cases opened
      exact ⟨findChannel_store _ _ _, .inr ⟨rfl, rfl, absent, Nat.not_le.mp room⟩⟩

theorem AllFit.openChannel (fits : m.AllFit) (opened : m.openChannel id = some (c, m')) : m'.AllFit := by
  rcases (openChannel_spec opened).2 with rfl | ⟨rfl, _⟩
  · exact fits
  · exact .store (fun other c _ => fits other c) (RtmpChannel.fits_fresh id)

theorem size_openChannel (few : m.size ≤ eMaxChannels) (opened : m.openChannel id = some (c, m')) :
    m'.size ≤ eMaxChannels := by
  rcases (openChannel_spec opened).2 with rfl | ⟨rfl, _, absent, room⟩
  · exact few
  · have outside : id ∉ m.keys := fun member => by
      have := AList.lookup_isSome.mpr (AList.mem_keys.mpr member)
      rw [show m.lookup id = none from absent] at this
      cases this
    unfold size store
    rw [AList.keys_insert, List.length_cons, List.erase_of_not_mem outside]
    exact room

end ChannelManager

namespace RtmpParser
open ChannelManager RtmpChannel
variable {μ : Type} {decode : RtmpHeader → Bytes → Option μ} {p p' : RtmpParser} {c : RtmpChannel} {r r' : Bytes}

/-- How the header half of a round can go. -/
inductive HeaderRound (p : RtmpParser) (r : Bytes) : Except (RtmpParser × Bytes) (RtmpParser × Bytes) → Prop
  | unread : p.readHeader = true → HeaderRound p r (.error (p, r))
  | refused {cid} : p.readHeader = true → peekChannelId r = some cid → p.channels.openChannel cid = none →
      HeaderRound p r (.error ({ p with framingError := true }, r))
  | opened {cid c channels} : p.readHeader = true → p.channels.openChannel cid = some (c, channels) →
      HeaderRound p r (.error ({ p with channels, channelId := cid }, r))
  | read {cid c channels c' rest} : p.readHeader = true → p.channels.openChannel cid = some (c, channels) →
      c.tryDeserializeHeader r = some (c', rest) →
      HeaderRound p r
        (.ok ({ p with channels := channels.store cid c', channelId := cid, readHeader := false }, rest))
  | waiting : p.readHeader = false → HeaderRound p r (.ok (p, r))

theorem headerRound (p : RtmpParser) (r : Bytes) : HeaderRound p r (p.headerPhase r) := by
  unfold headerPhase
  split
  · rename_i expecting
    split
    · exact .unread expecting
    · rename_i cid peek
      split
      · rename_i refused
        exact .refused expecting peek refused
      · rename_i opened
        split
        · exact .opened expecting opened
        · rename_i read
          exact .read expecting opened read
  · rename_i inside
    exact .waiting (by simpa using inside)

theorem getChannel_of_found {m : ChannelManager} {id : UInt32} (found : m.findChannel id = some c) :
    m.getChannel id = (c, m) := by
  simp only [getChannel, found]

variable {size : UInt32}

theorem payloadSize_some (some : p.payloadSize c = some size) :
    p.chunkSize ≠ 0 ∧ c.dataSize.toNat ≤ c.receivedHeader.messageLength.toNat ∧
      c.receivedHeader.messageLength.toNat ≤ 8 * 1024 * 1024 ∧
      size.toNat = min (c.receivedHeader.messageLength.toNat - c.dataSize.toNat) p.chunkSize.toNat := by
  unfold payloadSize at some
  split at some
  · cases some
  · rename_i positive
    split at some
    · cases some
    · rename_i small
      split at some
      · cases some
      · rename_i inside
        have limit := UInt32.le_iff_toNat_le.mp (UInt32.not_lt.mp small)
        have within := UInt32.le_iff_toNat_le.mp (UInt32.not_lt.mp inside)
        have left := UInt32.toNat_sub_of_le _ _ (UInt32.not_lt.mp inside)
        refine ⟨positive, within, limit, ?_⟩
        cases some
        split
        · rename_i above
          have := UInt32.lt_iff_toNat_lt.mp above
          omega
        · rename_i under
          have := UInt32.le_iff_toNat_le.mp (UInt32.not_lt.mp under)
          omega

theorem deliver_size (p : RtmpParser) (header : RtmpHeader) (message : Message μ) :
    (p.deliver header message).1.channels.size = p.channels.size := by
  unfold deliver
  split
  · split
    · rename_i found
      exact size_store found _
    · rfl
  · unfold setChunkSize
    dsimp only
    split <;> rfl
  · rfl
  · rfl

theorem deliver_chunkSize_ne (positive : p.chunkSize ≠ 0) (header : RtmpHeader) (message : Message μ) :
    (p.deliver header message).1.chunkSize ≠ 0 := by
  unfold deliver
  split
  · split <;> exact positive
  · rename_i size
    unfold setChunkSize
    dsimp only
    split
    · exact positive
    · rename_i allowed
      dsimp only
      split
      · decide
      · rintro rfl
        exact allowed (.inl (by decide))
  · exact positive
  · exact positive

theorem dispatch_size (found : p.channels.findChannel p.channelId = some c) (channel : RtmpChannel) :
    (dispatch decode p channel).1.channels.size = p.channels.size := by
  unfold dispatch
  dsimp only
  split
  · exact size_store found _
  · rename_i message _
    rw [← deliver_size p channel.receivedHeader message]
    rcases (deliver_frame p channel.receivedHeader message).2 p.channelId with same | ⟨c', _, cleared⟩
    · exact size_store (same.trans found) _
    · exact size_store cleared _

theorem dispatch_chunkSize_ne (positive : p.chunkSize ≠ 0) (channel : RtmpChannel) :
    (dispatch decode p channel).1.chunkSize ≠ 0 := by
  unfold dispatch
  dsimp only
  split
  · exact positive
  · exact deliver_chunkSize_ne positive _ _

theorem dispatch_fits (fits : p.channels.AllFit) (channel : RtmpChannel) (here : channel.Fits) :
    (dispatch decode p channel).1.channels.AllFit := by
  obtain ⟨_, cleared, others⟩ := dispatch_frame decode p channel
  intro id c found
  by_cases same : id = p.channelId
  · subst same
    cases cleared.symm.trans found
    exact here.clearData
  · rcases others id same with kept | ⟨c', before, after⟩
    · exact fits id c (kept.symm.trans found)
    · cases after.symm.trans found
      exact (fits id c' before).clearData

/-- What holds while the framing is intact. A parser that waits for a payload lacks bytes of its message. -/
structure Intact (p : RtmpParser) : Prop where
  framing : p.framingError = false
  few : p.channels.size ≤ eMaxChannels
  positive : p.chunkSize ≠ 0
  fits : p.channels.AllFit
  lacks : p.readHeader = false →
    ∃ c, p.channels.findChannel p.channelId = some c ∧ c.buffer.length < c.receivedHeader.messageLength.toNat

/-- Nothing that is sent after these bytes is looked at. -/
structure Stuck (decode : RtmpHeader → Bytes → Option μ) (p : RtmpParser) (r : Bytes) : Prop where
  framing : p.framingError = true
  few : p.channels.size ≤ eMaxChannels
  stops : ∀ t, r ++ t ≠ [] → step decode p (r ++ t) = .stop p (r ++ t)

theorem Stuck.append (stuck : Stuck decode p r) (t : Bytes) : Stuck decode p (r ++ t) where
  framing := stuck.framing
  few := stuck.few
  stops more ne := by
    rw [List.append_assoc] at ne ⊢
    exact stuck.stops _ ne

theorem Stuck.run (stuck : Stuck decode p r) (t : Bytes) : (scanner decode).run p (r ++ t) = ⟨p, [], r ++ t⟩ := by
  by_cases ne : r ++ t = []
  · rw [ne, Scanner.run_nil]
  · exact Scanner.run_stop ne (stuck.stops t ne)

/-- The current channel of a parser that is about to take a payload; its header may be a new one. -/
structure Current (p : RtmpParser) (c : RtmpChannel) : Prop where
  framing : p.framingError = false
  few : p.channels.size ≤ eMaxChannels
  positive : p.chunkSize ≠ 0
  inside : p.readHeader = false
  found : p.channels.findChannel p.channelId = some c
  counted : c.messageLen.toNat = c.buffer.length
  others : ∀ id c, id ≠ p.channelId → p.channels.findChannel id = some c → c.Fits

theorem Intact.current (intact : p.Intact) (inside : p.readHeader = false) :
    ∃ c, p.Current c ∧ c.buffer.length < c.receivedHeader.messageLength.toNat := by
  obtain ⟨c, found, lacks⟩ := intact.lacks inside
  exact ⟨c, ⟨intact.framing, intact.few, intact.positive, inside, found, (intact.fits _ c found).counted,
    fun id c _ => intact.fits id c⟩, lacks⟩

theorem Intact.read (intact : p.Intact) {cid : UInt32} {c' : RtmpChannel} {channels : ChannelManager}
    (opened : p.channels.openChannel cid = some (c, channels)) (read : c.tryDeserializeHeader r = some (c', r')) :
    Current { p with channels := channels.store cid c', channelId := cid, readHeader := false } c' := by
  have found := (openChannel_spec opened).1
  have fits := intact.fits.openChannel opened
  obtain ⟨buffer, messageLen⟩ := tryDeserializeHeader_frame read
  refine ⟨intact.framing, ?_, intact.positive, rfl, findChannel_store _ _ _, ?_, fun id other different here => ?_⟩
  · exact (size_store found c').trans_le (size_openChannel intact.few opened)
  · rw [messageLen, buffer]
    exact (fits _ c found).counted
  · exact fits id other ((findChannel_store_ne _ different _).symm.trans here)

theorem Current.room (current : p.Current c) (some : p.payloadSize c = some size) :
    c.buffer.length + size.toNat ≤ c.receivedHeader.messageLength.toNat ∧
      c.receivedHeader.messageLength.toNat ≤ 8 * 1024 * 1024 := by
  obtain ⟨_, inside, limit, least⟩ := payloadSize_some some
  have counted : c.dataSize.toNat = c.buffer.length := current.counted
  exact ⟨by omega, limit⟩

theorem Current.fits (current : p.Current c)
    (some : p.payloadSize c = some size) : p.channels.AllFit := by
  intro id c' found
  by_cases same : id = p.channelId
  · subst same
    cases current.found.symm.trans found
    obtain ⟨room, limit⟩ := current.room some
    exact ⟨current.counted, by omega, limit⟩
  · exact current.others id c' same found

theorem Current.acceptPayload (current : p.Current c) (some : p.payloadSize c = some size)
    {payload : Bytes} (length : payload.length = size.toNat) : (acceptPayload decode p c payload).1.Intact := by
  obtain ⟨room, limit⟩ := current.room some
  have fits (complete : Bool) : ((c.adjustTimestamp.addData payload).setPrevMessageComplete complete).Fits :=
    fits_addData complete current.counted (by omega) limit
  have stored (channel : RtmpChannel) : (p.channels.store p.channelId channel).size ≤ eMaxChannels :=
    (size_store current.found channel).trans_le current.few
  have expecting := acceptPayload_readHeader decode p c payload
  unfold RtmpParser.acceptPayload at expecting ⊢
  dsimp only at expecting ⊢
  split
  · rename_i enough
    rw [if_pos enough] at expecting
    refine ⟨?_, ?_, ?_, ?_, fun inside => ?_⟩
    · rw [(dispatch_frame decode _ _).1]
      exact current.framing
    · rw [dispatch_size (findChannel_store _ _ _)]
      exact stored _
    · exact dispatch_chunkSize_ne (by exact current.positive) _
    · exact dispatch_fits (.store current.others (fits true)) _ (fits true)
    · cases expecting.symm.trans inside
  · refine ⟨current.framing, stored _, current.positive, .store current.others (fits false), fun inside => ?_⟩
    cases inside

/-- How a round can go on the current channel: it breaks the framing for good, it waits for more
of the payload, or it takes the payload. -/
theorem Current.payloadPhase (decode : RtmpHeader → Bytes → Option μ) (current : p.Current c) (r : Bytes) :
    (∃ q, payloadPhase decode p r = .stop q r ∧ Stuck decode q r) ∨
      (payloadPhase decode p r = .stop p r ∧ p.Intact) ∨
      ∃ size q rest out, p.payloadSize c = some size ∧ payloadPhase decode p r = .next q rest out ∧ q.Intact ∧
        r.length = size.toNat + rest.length := by
  have channel := getChannel_of_found current.found
  have phase := payloadPhase_channel decode channel r
  cases weighed : p.payloadSize c with
  | none =>
    rw [weighed] at phase
    refine .inl ⟨_, phase, rfl, current.few, fun t _ => ?_⟩
    have again := payloadPhase_channel decode (p := { p with framingError := true }) channel (r ++ t)
    rw [show payloadSize { p with framingError := true } c = none from weighed] at again
    exact (step_eq_payloadPhase decode (p := { p with framingError := true }) current.inside _).trans again
  | some size =>
    obtain ⟨room, limit⟩ := current.room weighed
    cases cut : takeBytes size.toNat r with
    | none =>
      simp only [weighed, cut] at phase
      refine .inr (.inl ⟨phase, ?_⟩)
      have short := takeBytes_none.mp cut
      exact ⟨current.framing, current.few, current.positive, current.fits weighed, fun _ =>
        ⟨c, current.found, by omega⟩⟩
    | some taken =>
      obtain ⟨payload, rest⟩ := taken
      obtain ⟨rfl, length⟩ := takeBytes_some cut
      simp only [weighed, cut] at phase
      refine .inr (.inr ⟨size, _, rest, _, rfl, phase, ?_, ?_⟩)
      · exact current.acceptPayload weighed length
      · rw [List.length_append, length]

/-- A round of an intact parser breaks the framing for good, or it leaves the parser intact and,
if the loop goes on, has consumed something. -/
theorem Intact.round (decode : RtmpHeader → Bytes → Option μ) (intact : p.Intact) (r : Bytes) :
    (∃ q r', step decode p r = .stop q r' ∧ (Stuck decode q r' ∨ q.Intact)) ∨
      ∃ q r' out, step decode p r = .next q r' out ∧ q.Intact ∧ r'.length < r.length := by
  have header := headerRound p r
  unfold step
  generalize outcome : p.headerPhase r = result at header
  cases header with
  | unread => exact .inl ⟨p, r, rfl, .inr intact⟩
  | refused expecting peek refused =>
    refine .inl ⟨_, r, rfl, .inl ⟨rfl, intact.few, fun t _ => ?_⟩⟩
    simp only [step, headerPhase, expecting, if_true, peekChannelId_extend peek t, refused]
  | opened expecting opened =>
    refine .inl ⟨_, r, rfl, .inr ⟨intact.framing, size_openChannel intact.few opened, intact.positive,
      intact.fits.openChannel opened, fun inside => ?_⟩⟩
    cases expecting.symm.trans inside
  | @read cid c channels c' behind expecting opened read =>
    have shorter : behind.length < r.length := by
      rcases (headerPhase_ok outcome).2.2 with ⟨_, shorter⟩ | ⟨inside, _⟩
      · exact shorter
      · cases expecting.symm.trans inside
    rcases (intact.read opened read).payloadPhase decode _ with ⟨q, stopped, stuck⟩ | ⟨stopped, kept⟩ |
      ⟨size, q, rest, out, _, next, kept, taken⟩
    · exact .inl ⟨q, _, stopped, .inl stuck⟩
    · exact .inl ⟨_, _, stopped, .inr kept⟩
    · exact .inr ⟨q, rest, out, next, kept, by omega⟩
  | waiting inside =>
    obtain ⟨c, current, lacks⟩ := intact.current inside
    rcases current.payloadPhase decode r with ⟨q, stopped, stuck⟩ | ⟨stopped, kept⟩ |
      ⟨size, q, rest, out, some, next, kept, taken⟩
    · exact .inl ⟨q, _, stopped, .inl stuck⟩
    · exact .inl ⟨_, _, stopped, .inr kept⟩
    · obtain ⟨positive, _, _, least⟩ := payloadSize_some some
      have counted : c.dataSize.toNat = c.buffer.length := current.counted
      have chunk : 0 < p.chunkSize.toNat := Nat.pos_of_ne_zero fun zero => positive (UInt32.toNat_inj.mp zero)
      exact .inr ⟨q, rest, out, next, kept, by omega⟩

/-- The round gets as far as what is left of the message on this channel, and would take so many bytes of it. -/
def Takes (p : RtmpParser) (r : Bytes) (c : RtmpChannel) (size : UInt32) : Prop :=
  ∃ q rest, p.headerPhase r = .ok (q, rest) ∧ (q.channels.getChannel q.channelId).1 = c ∧ q.payloadSize c = some size

theorem Intact.takes (intact : p.Intact) (takes : p.Takes r c size) :
    ∃ q, Current q c ∧ q.payloadSize c = some size := by
  obtain ⟨q, rest, outcome, here, weighed⟩ := takes
  have header := headerRound p r
  rw [outcome] at header
  cases header with
  | read expecting opened read =>
    have current := intact.read opened read
    rw [getChannel_of_found current.found] at here
    subst here
    exact ⟨_, current, weighed⟩
  | waiting inside =>
    obtain ⟨c', current, _⟩ := intact.current inside
    rw [getChannel_of_found current.found] at here
    subst here
    exact ⟨_, current, weighed⟩

/-- A stuck parser does not get that far: with enough bytes behind these it would go on. -/
theorem Stuck.not_takes (stuck : Stuck decode p r) (size : UInt32) : ¬ p.Takes r c size := by
  rintro ⟨q, rest, outcome, rfl, weighed⟩
  have longer := headerPhase_extend outcome (List.replicate (size.toNat + 1) 0)
  have stops := stuck.stops (List.replicate (size.toNat + 1) 0) (by simp)
  simp only [step, longer, payloadPhase] at stops
  rw [show payloadSize { q with channels := (q.channels.getChannel q.channelId).2 } _ =
    some size from weighed] at stops
  dsimp only at stops
  split at stops
  · rename_i short
    have := takeBytes_none.mp short
    rw [List.length_append, List.length_replicate] at this
    omega
  · cases stops

end RtmpParser

/-- A parser and the bytes it has not consumed. -/
structure Intake where
  parser : RtmpParser := {}
  unread : Bytes := []

/-- The transport delivers a piece, or the loop of `parse` makes a round. -/
inductive Intake.Move
  | piece (bytes : Bytes)
  | round

namespace Intake
open RtmpParser ChannelManager
variable {μ : Type} {decode : RtmpHeader → Bytes → Option μ} {s : Intake}

/-- A round is made only while there is something to read. -/
def step (decode : RtmpHeader → Bytes → Option μ) (s : Intake) : Move → Intake
  | .piece bytes => { s with unread := s.unread ++ bytes }
  | .round =>
    if s.unread = [] then s
    else match RtmpParser.step decode s.parser s.unread with
      | .stop parser unread => ⟨parser, unread⟩
      | .next parser unread _ => ⟨parser, unread⟩

/-- The states between the rounds of the calls of `parse`. -/
abbrev Reached (decode : RtmpHeader → Bytes → Option μ) (s : Intake) : Prop :=
  Reach (step decode) (fun _ _ => True) {} s

theorem Reached.intact_or_stuck (reached : Reached decode s) : s.parser.Intact ∨ Stuck decode s.parser s.unread := by
  refine reached.invariant (I := fun s => s.parser.Intact ∨ Stuck decode s.parser s.unread) (.inl ?_) ?_
  · exact ⟨rfl, Nat.zero_le _, by decide, fun id c found => (by cases found), fun inside => (by cases inside)⟩
  · intro s i _ kept
    cases i with
    | piece bytes => exact kept.imp_right fun stuck => stuck.append bytes
    | round =>
      rw [step]
      split
      · exact kept
      · rename_i ne
        rcases kept with intact | stuck
        · rcases intact.round decode s.unread with ⟨q, r', stopped, after⟩ | ⟨q, r', out, next, after, _⟩
          · rw [stopped]
            exact after.symm
          · rw [next]
            exact .inl after
        · have stops := stuck.stops [] (by simpa using ne)
          rw [List.append_nil] at stops
          rw [stops]
          exact .inr stuck

theorem feed_stuck {p : RtmpParser} {w : ByteWriter} (stuck : Stuck decode p w.data) (pieces : List Bytes) :
    (feed decode p w pieces).out = [] := by
  induction pieces generalizing w with
  | nil => rfl
  | cons piece pieces ih =>
    have run := stuck.run piece
    rw [RtmpParser.feed, parse_out, parse_state, ByteWriter.data_write, run]
    refine ih (w := (parse decode p (w.write piece)).buffer) ?_
    rw [parse_data, ByteWriter.data_write, run]
    exact stuck.append piece

/-- Whatever a peer sends: while the framing is intact every channel holds at most the message it
announced last, of at most 8 MiB; what is left of a message never wraps; at most 4096 channels are
open; a round that goes on has consumed something; and once the framing is broken nothing is
assembled any more. -/
theorem parser_bounded (reached : Reached decode s) :
    (s.parser.framingError = false → ∀ id c, s.parser.channels.findChannel id = some c →
      c.dataSize.toNat = c.buffer.length ∧ c.buffer.length ≤ c.receivedHeader.messageLength.toNat ∧
        c.receivedHeader.messageLength.toNat ≤ 8 * 1024 * 1024) ∧
    (∀ c size, s.parser.Takes s.unread c size →
      c.dataSize.toNat = c.buffer.length ∧ c.buffer.length ≤ c.receivedHeader.messageLength.toNat ∧
        c.receivedHeader.messageLength.toNat ≤ 8 * 1024 * 1024 ∧
        (c.receivedHeader.messageLength - c.dataSize).toNat = c.receivedHeader.messageLength.toNat - c.buffer.length ∧
        c.buffer.length + size.toNat ≤ c.receivedHeader.messageLength.toNat) ∧
    s.parser.channels.size ≤ 4096 ∧
    (∀ p r out, s.unread ≠ [] → RtmpParser.step decode s.parser s.unread = .next p r out →
      r.length < s.unread.length) ∧
    (s.parser.framingError = true → ∀ w : ByteWriter, w.data = s.unread →
      ∀ pieces, (RtmpParser.feed decode s.parser w pieces).out = []) := by
  rcases reached.intact_or_stuck with intact | stuck
  · refine ⟨fun _ id c found => ?_, fun c size takes => ?_, intact.few, fun p r out _ next => ?_, fun broken => ?_⟩
    · have fits := intact.fits id c found
      exact ⟨fits.counted, fits.inside, fits.limit⟩
    · obtain ⟨q, current, weighed⟩ := intact.takes takes
      obtain ⟨room, limit⟩ := current.room weighed
      have counted : c.dataSize.toNat = c.buffer.length := current.counted
      have inside := (payloadSize_some weighed).2.1
      refine ⟨counted, by omega, limit, ?_, room⟩
      rw [UInt32.toNat_sub_of_le _ _ (UInt32.le_iff_toNat_le.mpr inside), counted]
    · rcases intact.round decode s.unread with ⟨q, r', stopped, _⟩ | ⟨q, r', out', goes, _, shorter⟩
      · cases stopped.symm.trans next
      · cases goes.symm.trans next
        exact shorter
    · cases intact.framing.symm.trans broken
  · refine ⟨fun whole => ?_, fun c size takes => absurd takes (stuck.not_takes size), stuck.few,
      fun p r out ne next => ?_, fun _ w same pieces => ?_⟩
    · cases stuck.framing.symm.trans whole
    · have stops := stuck.stops [] (by simpa using ne)
      rw [List.append_nil] at stops
      cases stops.symm.trans next
    · exact feed_stuck (same ▸ stuck) pieces

/-- A message of 200 bytes is announced on channel 3 and its first chunk sent; then another
header on that channel announces one byte. -/
def shrinking : Bytes :=
  [3, 0, 0, 0, 0, 0, 200, 8, 0, 0, 0, 0] ++ List.replicate 128 0 ++ [3, 0, 0, 0, 0, 0, 1, 8, 0, 0, 0, 0]

def noDecode : RtmpHeader → Bytes → Option Unit := fun _ _ => none

def afterShrinking : Intake := [Move.piece shrinking, .round, .round].foldl (step noDecode) {}

/-- The shrinking header breaks the framing, and a whole message behind it is not assembled. -/
theorem parser_bounded_shrinking :
    (RtmpParser.feed noDecode afterShrinking.parser {} [[3, 0, 0, 0, 0, 0, 1, 8, 0, 0, 0, 0, 7]]).out = [] := by
  have reached : Reached noDecode afterShrinking := Reach.start.foldl fun _ _ _ => trivial
  exact (parser_bounded reached).2.2.2.2 (by decide +kernel) {} (by decide +kernel) _

/-- The header that shrinks a message is committed before it is rejected: the channel then holds
more than it announces. -/
theorem shrunk_message_outgrown :
    ∃ (pieces : List Bytes) (id : UInt32) (c : RtmpChannel),
      (RtmpParser.feed noDecode {} {} pieces).state.channels.findChannel id = some c ∧
        c.receivedHeader.messageLength.toNat < c.buffer.length := by
  have rounds : ((scanner noDecode).rounds 3 {} shrinking).bind (fun result =>
      (result.state.channels.findChannel 3).map fun c => (c.receivedHeader.messageLength.toNat, c.buffer.length)) =
        some (1, 128) := by decide +kernel
  obtain ⟨result, ends, found⟩ := Option.bind_eq_some_iff.mp rounds
  obtain ⟨c, here, sizes⟩ := Option.map_eq_some_iff.mp found
  obtain ⟨announced, held⟩ := Prod.mk.inj sizes
  refine ⟨[shrinking], 3, c, ?_, by omega⟩
  have run : RtmpParser.feed noDecode {} {} [shrinking] = (scanner noDecode).run {} shrinking := by
    simpa [ByteWriter.data] using feed_eq_run noDecode {} {} shrinking []
  rw [run, Scanner.run_of_rounds ends]
  exact here

end Intake
end Fms
