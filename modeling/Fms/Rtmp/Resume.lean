import Fms.Rtmp.Parser

namespace Fms
open ByteWire Scan

variable {r r' : Bytes} {p p' : RtmpParser}

namespace ChannelManager

theorem getChannel_again (m : ChannelManager) (id : UInt32) :
    (m.getChannel id).2.getChannel id = m.getChannel id := by
  unfold getChannel
  cases found : m.findChannel id with
  | some channel => simp only [found]
  | none => simp only [findChannel, AList.lookup_insert]

theorem openChannel_again {m m' : ChannelManager} {id : UInt32} {channel : RtmpChannel}
    (opened : m.openChannel id = some (channel, m')) : m'.openChannel id = some (channel, m') := by
  unfold openChannel at opened
  split at opened
  · rename_i found
    cases Option.some.inj opened
    simp only [openChannel, found]
  · split at opened
    · cases opened
    · cases Option.some.inj opened
      simp only [openChannel, findChannel, AList.lookup_insert]

end ChannelManager

namespace RtmpParser

theorem peekChannelId_extend {cid : UInt32} (peek : peekChannelId r = some cid) (t : Bytes) :
    peekChannelId (r ++ t) = some cid := by
  obtain ⟨⟨c, behind⟩, first, peek⟩ := Option.bind_eq_some_iff.mp peek
  obtain ⟨⟨ids, rest⟩, second, same⟩ := Option.bind_eq_some_iff.mp peek
  have reads := tryU8_local.extend first t
  have names := (RtmpHeader.tryChannelId_local c).extend second t
  simp only [peekChannelId, reads, names, Option.bind_eq_bind, Option.bind_some]
  exact same

theorem tryDeserializeHeader_local (c : RtmpChannel) : Local c.tryDeserializeHeader :=
  (RtmpHeader.tryDeserialize_local c.receivedHeader).map fun h =>
    ({ c with
        receivedHeader := h
        prevHeaderType := c.receivedHeader.headerType
        prevTimeDelta := c.receivedHeader.tsDeltaRead
        prevTimestamp := c.receivedHeader.timestamp } : RtmpChannel)

theorem headerPhase_extend (done : p.headerPhase r = .ok (p', r')) (t : Bytes) :
    p.headerPhase (r ++ t) = .ok (p', r' ++ t) := by
  unfold headerPhase at done ⊢
  split at done
  · rename_i expecting
    rw [if_pos expecting]
    split at done
    · cases done
    · rename_i cid peek
      rw [peekChannelId_extend peek t]
      split at done
      · cases done
      · rename_i channel channels opened
        split at done
        · cases done
        · rename_i channel' rest read
          cases Except.ok.inj done
          simp only [opened, (tryDeserializeHeader_local channel).extend read t]
  · rename_i inside
    cases Except.ok.inj done
    rw [if_neg inside]

/-- Where the header half stops nothing has been consumed, and the state it leaves
behind meets a longer input as the state before it would have. -/
theorem headerPhase_stopped (stopped : p.headerPhase r = .error (p', r')) (t : Bytes) :
    r' = r ∧ p'.headerPhase (r ++ t) = p.headerPhase (r ++ t) := by
  unfold headerPhase at stopped
  split at stopped
  · rename_i expecting
    split at stopped
    · cases Except.error.inj stopped
      exact ⟨rfl, rfl⟩
    · rename_i cid peek
      have later := peekChannelId_extend peek t
      split at stopped
      · rename_i refused
        cases Except.error.inj stopped
        exact ⟨rfl, by simp only [headerPhase, expecting, if_true, later, refused]⟩
      · rename_i channel channels opened
        split at stopped
        · cases Except.error.inj stopped
          have again := ChannelManager.openChannel_again opened
          exact ⟨rfl, by simp only [headerPhase, expecting, if_true, later, opened, again]⟩
        · cases stopped
  · cases stopped

section resume
variable {μ : Type} (decode : RtmpHeader → Bytes → Option μ)

theorem payloadPhase_extend {out : List (Assembled μ)} (next : payloadPhase decode p r = .next p' r' out)
    (t : Bytes) :
    payloadPhase decode p (r ++ t) = .next p' (r' ++ t) out := by
  unfold payloadPhase at next ⊢
  dsimp only at next ⊢
  split at next
  · cases next
  · split at next
    · cases next
    · rename_i payload rest cut
      cases next
      rw [(takeBytes_local _).extend cut t]

/-- Where the payload half stops nothing has been consumed, the parser still waits for
the payload, and a second look at any input ends as the first would have. -/
theorem payloadPhase_stopped (stopped : payloadPhase decode p r = .stop p' r') (t : Bytes) :
    r' = r ∧ p'.readHeader = p.readHeader ∧
      payloadPhase decode p' (r ++ t) = payloadPhase decode p (r ++ t) := by
  unfold payloadPhase at stopped
  dsimp only at stopped
  have again := ChannelManager.getChannel_again p.channels p.channelId
  split at stopped
  · rename_i broken
    cases stopped
    refine ⟨rfl, rfl, ?_⟩
    have same : payloadSize { p with channels := (p.channels.getChannel p.channelId).2, framingError := true }
        (p.channels.getChannel p.channelId).1 = none := broken
    simp only [payloadPhase, again, broken, same]
  · split at stopped
    · cases stopped
      exact ⟨rfl, rfl, by simp only [payloadPhase, again]⟩
    · cases stopped

theorem step_eq_payloadPhase (inside : p.readHeader = false)
    (r : Bytes) : step decode p r = payloadPhase decode p r := by
  simp only [step, headerPhase, inside, Bool.false_eq_true, if_false]

theorem scanner_resumable : (scanner decode).Resumable where
  next_append := by
    intro p r p' r' out _ next t
    change step decode p r = _ at next
    show step decode p (r ++ t) = _
    unfold step at next ⊢
    split at next
    · cases next
    · rename_i p1 r1 header
      rw [headerPhase_extend header t]
      exact payloadPhase_extend decode next t
  stop_append := by
    intro p r p' r' ne stopped t
    change step decode p r = _ at stopped
    have longer : r ++ t ≠ [] := by simp [ne]
    unfold step at stopped
    split at stopped
    · rename_i p1 r1 header
      cases stopped
      obtain ⟨rfl, same⟩ := headerPhase_stopped header t
      refine Scanner.run_congr longer ?_
      show step decode p (r' ++ t) = step decode p' (r' ++ t)
      simp only [step, same]
    · rename_i p1 r1 header
      obtain ⟨rfl, waiting, same⟩ := payloadPhase_stopped decode stopped t
      have inside := (headerPhase_ok header).1
      have whole : (scanner decode).step p (r ++ t) = payloadPhase decode p1 (r' ++ t) := by
        show step decode p (r ++ t) = _
        simp only [step, headerPhase_extend header t]
      by_cases drained : r' ++ t = []
      · obtain ⟨rfl, rfl⟩ := List.append_eq_nil_iff.mp drained
        simp only [List.append_nil] at whole ⊢
        rw [Scanner.run_stop ne (whole.trans stopped), Scanner.run_nil]
      · have here : (scanner decode).step p' (r' ++ t) = payloadPhase decode p1 (r' ++ t) := by
          rw [← same]
          exact step_eq_payloadPhase decode (waiting.trans inside) _
        cases outcome : payloadPhase decode p1 (r' ++ t) with
        | stop s rest =>
          rw [Scanner.run_stop longer (whole.trans outcome), Scanner.run_stop drained (here.trans outcome)]
        | next s rest out =>
          rw [Scanner.run_next longer (whole.trans outcome), Scanner.run_next drained (here.trans outcome)]

theorem scanner_stop_suffix (stopped : (scanner decode).step p r = .stop p' r') : r' <:+ r := by
  change step decode p r = _ at stopped
  unfold step at stopped
  split at stopped
  · rename_i p1 r1 header
    cases stopped
    exact (headerPhase_stopped header []).1 ▸ List.suffix_refl _
  · rename_i p1 r1 header
    exact (payloadPhase_stopped decode stopped []).1 ▸ (headerPhase_ok header).2.1

theorem scanner_next_suffix {out : List (Assembled μ)}
    (next : (scanner decode).step p r = .next p' r' out) : r' <:+ r := by
  change step decode p r = _ at next
  unfold step at next
  split at next
  · cases next
  · rename_i p1 r1 header
    exact (payloadPhase_next decode next).2.trans (headerPhase_ok header).2.1

theorem parse_state (p : RtmpParser) (w : ByteWriter) :
    (parse decode p w).parser = ((scanner decode).run p w.data).state := rfl

theorem parse_out (p : RtmpParser) (w : ByteWriter) :
    (parse decode p w).out = ((scanner decode).run p w.data).out := rfl

theorem parse_data (p : RtmpParser) (w : ByteWriter) :
    (parse decode p w).buffer.data = ((scanner decode).run p w.data).rest := by
  have tail := Scanner.run_suffix (scanner_stop_suffix decode) (scanner_next_suffix decode) p w.data
  have kept := List.suffix_iff_eq_drop.mp tail
  rw [ByteWriter.length_data] at kept
  rw [parse, ByteWriter.data_consume]
  exact kept.symm

/-- Feed the pieces a transport delivers, one call of `parse` after each. -/
def feed (p : RtmpParser) (w : ByteWriter) : List Bytes → Result RtmpParser UInt8 (Assembled μ)
  | [] => ⟨p, [], w.data⟩
  | piece :: pieces =>
    let first := parse decode p (w.write piece)
    let later := feed first.parser first.buffer pieces
    { later with out := first.out ++ later.out }

theorem feed_eq_run (p : RtmpParser) (w : ByteWriter) (piece : Bytes) (pieces : List Bytes) :
    feed decode p w (piece :: pieces) = (scanner decode).run p (w.data ++ (piece :: pieces).flatten) := by
  induction pieces generalizing p w piece with
  | nil =>
    simp only [feed, parse_state, parse_out, parse_data, ByteWriter.data_write, List.append_nil,
      List.flatten_cons, List.flatten_nil]
  | cons next pieces ih =>
    have whole := (scanner_resumable decode).run_append p (w.data ++ piece) (next :: pieces).flatten
    rw [List.flatten_cons, ← List.append_assoc, whole, feed, ih, parse_data]
    simp only [parse_state, parse_out, ByteWriter.data_write]

/-- However a transport cuts a byte stream, the parser assembles the same messages and is
left in the same state with the same bytes unread: two calls of `parse` are one call
on the joined input, and so are the calls for any list of pieces. -/
theorem parse_cut_independent :
    (∀ (p : RtmpParser) (w : ByteWriter) (b : Bytes),
      let first := parse decode p w
      let second := parse decode first.parser (first.buffer.write b)
      let whole := parse decode p (w.write b)
      whole.parser = second.parser ∧ whole.out = first.out ++ second.out ∧
        whole.buffer.data = second.buffer.data) ∧
    ∀ (p : RtmpParser) (pieces : List Bytes), feed decode p {} pieces = feed decode p {} [pieces.flatten] := by
  constructor
  · intro p w b
    have whole := (scanner_resumable decode).run_append p w.data b
    simp only [parse_state, parse_out, parse_data, ByteWriter.data_write, whole, and_self]
  · have start (p : RtmpParser) (pieces : List Bytes) :
        feed decode p {} pieces = (scanner decode).run p pieces.flatten := by
      cases pieces with
      | nil => simp [feed, ByteWriter.data]
      | cons piece pieces => simpa [ByteWriter.data] using feed_eq_run decode p {} piece pieces
    intro p pieces
    rw [start, start, List.flatten_cons, List.flatten_nil, List.append_nil]

end resume
end RtmpParser
end Fms
