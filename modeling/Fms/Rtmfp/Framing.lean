import Fms.Rtmfp.PacketParser

namespace Fms.Rtmfp
open ByteWire Scan

variable {body left rest : Bytes} {c : RawChunk} {type : ChunkType} {len : Nat} {later : List RawChunk}

/-- A chunk as it is written: the type byte, a 16-bit length and that many bytes. -/
structure RawChunk where
  type : UInt8
  body : Bytes
  notPad : type ≠ ePad0 ∧ type ≠ ePadff
  short : body.length < 2 ^ 16

def RawChunk.bytes (c : RawChunk) : Bytes := c.type :: (beBytes 2 c.body.length ++ c.body)

/-- Nothing, or bytes that start with one of the two padding marks. -/
structure Padding where
  bytes : Bytes
  marked : bytes = [] ∨ bytes.head? = some ePad0 ∨ bytes.head? = some ePadff

def packet (pad : Padding) : List RawChunk → Bytes
  | [] => pad.bytes
  | c :: later => c.bytes ++ packet pad later

/-- A chunk decoded from its own body and nothing else. -/
def decodeOwn (type : ChunkType) (body : Bytes) : Option Chunk :=
  (deserialize type body body.length).map Prod.fst

section expected
variable {σ : Type} (handle : σ → Chunk → σ × Bool) (pad : Padding)

/-- The scan of a packet as it is meant: every chunk from its own body, skipped if its type
is unknown, with the cursor at the end of the body afterwards; the end is early only at a
malformed body or a refusal. -/
def expected : σ → List RawChunk → PacketTrace σ
  | s, [] => ⟨[], s, true⟩
  | s, c :: later =>
    match ChunkType.ofByte c.type with
    | none => (expected s later).after (.skipped (packet pad later).length)
    | some type =>
      match decodeOwn type c.body with
      | none => ⟨[], s, false⟩
      | some chunk =>
        let event := Event.handled chunk (packet pad later).length
        match handle s chunk with
        | (s, true) => (expected s later).after event
        | (s, false) => ⟨[event], s, false⟩

/-- What the decoders that do not look at the declared length ask of the bytes: a closing
chunk has no body; an exception report is exactly two numbers, or not even the rest of the
packet holds two; the ranges of an acknowledgement end with its body, or cannot be read
from the rest of the packet either. -/
def Framed (type : ChunkType) (body rest : Bytes) : Prop :=
  match type with
  | .sessionClose => body = []
  | .sessionCloseAcknowledgement => body = []
  | .flowExceptionReport =>
    (∃ fields, flowExceptionFields body = some (fields, [])) ∨ flowExceptionFields (body ++ rest) = none
  | .dataAcknowledgementRanges =>
    (readRangeAck body body.length).isSome ∨ readRangeAck (body ++ rest) body.length = none
  | _ => True

/-- The length a chunk leaves in the loop's variable lets the scan go on to the chunk after
it. -/
def Passes (c : RawChunk) (later : List RawChunk) : Prop :=
  later ≠ [] → c.body.length ≤ (packet pad later).length

/-- Every chunk the scan gets to is framed, and no chunk it goes on from is longer than all
that follows it. -/
def Faithful : σ → List RawChunk → Prop
  | _, [] => True
  | s, c :: later =>
    match ChunkType.ofByte c.type with
    | none => Passes pad c later ∧ Faithful s later
    | some type =>
      Framed type c.body (packet pad later) ∧
        match decodeOwn type c.body with
        | none => True
        | some chunk =>
          match handle s chunk with
          | (s, true) => Passes pad c later ∧ Faithful s later
          | (_, false) => True

end expected

theorem readRanges_done {after : Nat} {r : Bytes} (fuel cursor : Nat) (done : r.length ≤ after) :
    readRanges after fuel cursor r = some ([], r) := by
  cases fuel with
  | zero => rfl
  | succ fuel => rw [readRanges, if_neg (Nat.not_lt_of_le done)]

theorem trailingLen_inside (within : left.length ≤ body.length) (rest : Bytes) :
    trailingLen (body ++ rest) body.length (left ++ rest) = if left.length >
      0xFFFF then none else some left.length := by
  have consumed : (body ++ rest).length - (left ++ rest).length = body.length - left.length := by
    simp only [List.length_append]
    omega
  have tail : body.length - (body.length - left.length) = left.length := by omega
  have room : ¬ left.length > (left ++ rest).length := by
    simp only [List.length_append]
    omega
  simp only [trailingLen, consumed, tail, room, false_or]
  rw [if_neg (by omega)]

theorem readTrailing_inside {α : Type} {fields : Bytes → Option (α × Bytes)} (make : α → Bytes → Chunk) {a : α}
    (within : left.length ≤ body.length) (rest : Bytes) (read : fields (body ++ rest) = some (a, left ++ rest)) :
    readTrailing fields make (body ++ rest) body.length =
      if left.length > 0xFFFF then none else some (make a left, rest) := by
  simp only [readTrailing, read, Option.bind_eq_bind, Option.bind_some, trailingLen_inside within]
  split
  · rfl
  · simp only [Option.bind_some, takeBytes_append (rfl : left.length = left.length), Option.pure_def]

theorem readTrailing_append {α : Type} {fields : Bytes → Option (α × Bytes)} (make : α → Bytes → Chunk)
    (isLocal : Local fields) (body rest : Bytes) :
    readTrailing fields make (body ++ rest) body.length =
      (readTrailing fields make body body.length).map fun (c, _) => (c, rest) := by
  cases own : fields body with
  | some result =>
    obtain ⟨a, left⟩ := result
    have within := (isLocal.suffix own).length_le
    have alone := readTrailing_inside make within [] (isLocal.extend own [])
    simp only [List.append_nil] at alone
    rw [readTrailing_inside make within rest (isLocal.extend own rest), alone]
    split <;> rfl
  | none =>
    have alone : readTrailing fields make body body.length = none := by
      simp only [readTrailing, own, Option.bind_eq_bind, Option.bind_none]
    rw [alone, Option.map_none]
    cases whole : fields (body ++ rest) with
    | none => simp only [readTrailing, whole, Option.bind_eq_bind, Option.bind_none]
    | some result =>
      obtain ⟨a, r⟩ := result
      obtain ⟨left, read, _⟩ | ⟨_, past⟩ := isLocal.append_cases whole
      · cases own.symm.trans read
      · have overrun : (body ++ rest).length - r.length > body.length := by
          simp only [List.length_append]
          omega
        simp only [readTrailing, whole, Option.bind_eq_bind, Option.bind_some, Option.bind_none, trailingLen, overrun,
          if_true]

theorem readRanges_append (fuel cursor : Nat) {r : Bytes} {ranges : List (Nat × Nat)} (enough : r.length ≤ fuel)
    (read : readRanges 0 fuel cursor r = some (ranges, left)) :
    left = [] ∧ ∀ rest fuel', r.length ≤ fuel' →
      readRanges rest.length fuel' cursor (r ++ rest) = some (ranges, rest) := by
  induction fuel generalizing cursor r ranges with
  | zero =>
    obtain rfl := List.length_eq_zero_iff.mp (Nat.le_zero.mp enough)
    cases Option.some.inj read
    exact ⟨rfl, fun rest fuel' _ => readRanges_done fuel' cursor (Nat.le_refl _)⟩
  | succ fuel ih =>
    unfold readRanges at read
    split at read
    · rename_i more
      obtain ⟨⟨x, behind⟩, first, read⟩ := Option.bind_eq_some_iff.mp read
      obtain ⟨⟨y, last⟩, second, read⟩ := Option.bind_eq_some_iff.mp read
      obtain ⟨⟨ranges', left'⟩, tail, same⟩ := Option.bind_eq_some_iff.mp read
      cases same
      have shorter := readVlu_length first
      have shorter' := readVlu_length second
      obtain ⟨rfl, again⟩ := ih _ (by omega) tail
      refine ⟨rfl, fun rest fuel' enough' => ?_⟩
      obtain ⟨k, rfl⟩ : ∃ k, fuel' = k + 1 := ⟨fuel' - 1, by omega⟩
      have longer : (r ++ rest).length > rest.length := by
        simp only [List.length_append]
        omega
      simp only [readRanges, longer, if_true, readVlu_local.extend first, readVlu_local.extend second,
        Option.bind_eq_bind, Option.bind_some, again rest k (by omega), Option.pure_def]
    · rename_i noMore
      cases Option.some.inj read
      obtain rfl := List.length_eq_zero_iff.mp (Nat.le_zero.mp (Nat.le_of_not_lt noMore))
      exact ⟨rfl, fun rest fuel' _ => readRanges_done fuel' cursor (Nat.le_refl _)⟩

theorem readRangeAck_append {c : Chunk} (own : readRangeAck body body.length = some (c, left)) (rest : Bytes) :
    readRangeAck (body ++ rest) body.length = some (c, rest) := by
  obtain ⟨⟨fields, behind⟩, first, own⟩ := Option.bind_eq_some_iff.mp own
  obtain ⟨⟨ranges, last⟩, second, same⟩ := Option.bind_eq_some_iff.mp own
  cases same
  rw [Nat.sub_self] at second
  obtain ⟨_, again⟩ := readRanges_append _ _ (Nat.le_refl _) second
  have after : (body ++ rest).length - body.length = rest.length := by simp
  simp only [readRangeAck, rangeAckFields_local.extend first, Option.bind_eq_bind, Option.bind_some, after,
    again rest (behind ++ rest).length (by simp), Option.pure_def]

/-- A framed chunk is decoded in its packet as from its own body, to the end of the body. -/
theorem deserialize_framed (framed : Framed type body rest) :
    deserialize type (body ++ rest) body.length = (decodeOwn type body).map fun c => (c, rest) := by
  have trailing {α : Type} {fields : Bytes → Option (α × Bytes)} (make : α → Bytes → Chunk) (isLocal : Local fields) :
      readTrailing fields make (body ++ rest) body.length =
        ((readTrailing fields make body body.length).map Prod.fst).map fun c => (c, rest) := by
    rw [readTrailing_append make isLocal, Option.map_map]
    rfl
  cases type with
  | initiatorHello =>
    unfold decodeOwn deserialize
    exact trailing _ readBlock_local
  | initiatorInitialKeying =>
    unfold decodeOwn deserialize
    exact trailing _ iikeyingFields_local
  | userData =>
    unfold decodeOwn deserialize
    exact trailing _ userDataFields_local
  | nextUserData =>
    unfold decodeOwn deserialize
    exact trailing _ nextUserDataFields_local
  | dataAcknowledgementRanges =>
    unfold decodeOwn deserialize
    cases own : readRangeAck body body.length with
    | some result =>
      obtain ⟨c, left⟩ := result
      exact readRangeAck_append own rest
    | none =>
      rcases framed with parses | fails
      · rw [own] at parses
        cases parses
      · exact fails
  | flowExceptionReport =>
    unfold decodeOwn deserialize
    rcases framed with ⟨fields, own⟩ | fails
    · rw [own, flowExceptionFields_local.extend own rest]
      rfl
    · cases own : flowExceptionFields body with
      | some result => cases fails.symm.trans (flowExceptionFields_local.extend own rest)
      | none =>
        rw [fails]
        rfl
  | ping =>
    have cut := takeBytes_append (rfl : body.length = body.length)
    have alone := cut []
    rw [List.append_nil] at alone
    simp only [decodeOwn, deserialize, cut, alone, Option.map_some]
  | sessionClose =>
    obtain rfl := framed
    rfl
  | sessionCloseAcknowledgement =>
    obtain rfl := framed
    rfl

/-- Out of frame, a chunk is handed on although its body is malformed, or the cursor is not
at the end of the body afterwards. -/
theorem deserialize_unframed (unframed : ¬ Framed type body rest) :
    ∃ c r, deserialize type (body ++ rest) body.length = some (c, r) ∧
      (decodeOwn type body = none ∨ r.length ≠ rest.length) := by
  cases type with
  | initiatorHello => exact absurd trivial unframed
  | initiatorInitialKeying => exact absurd trivial unframed
  | userData => exact absurd trivial unframed
  | nextUserData => exact absurd trivial unframed
  | ping => exact absurd trivial unframed
  | sessionClose =>
    change body ≠ [] at unframed
    exact ⟨_, _, rfl, .inr (by simpa using unframed)⟩
  | sessionCloseAcknowledgement =>
    change body ≠ [] at unframed
    exact ⟨_, _, rfl, .inr (by simpa using unframed)⟩
  | dataAcknowledgementRanges =>
    obtain ⟨malformed, read⟩ := not_or.mp unframed
    obtain ⟨⟨c, r⟩, whole⟩ := Option.ne_none_iff_exists'.mp read
    refine ⟨c, r, whole, .inl ?_⟩
    rw [Option.not_isSome_iff_eq_none] at malformed
    unfold decodeOwn deserialize
    rw [malformed, Option.map_none]
  | flowExceptionReport =>
    obtain ⟨inexact, read⟩ := not_or.mp unframed
    obtain ⟨⟨fields, r⟩, whole⟩ := Option.ne_none_iff_exists'.mp read
    refine ⟨_, r, by unfold deserialize; rw [whole]; rfl, ?_⟩
    rcases flowExceptionFields_local.append_cases whole with ⟨left, own, rfl⟩ | ⟨own, _⟩
    · refine .inr fun same => inexact ⟨fields, ?_⟩
      rw [List.length_append] at same
      obtain rfl : left = [] := List.length_eq_zero_iff.mp (by omega)
      exact own
    · refine .inl ?_
      unfold decodeOwn deserialize
      rw [own, Option.map_none, Option.map_none]

section scan
variable {σ : Type} (handle : σ → Chunk → σ × Bool) (pad : Padding)

theorem RawChunk.header (c : RawChunk) :
    ∃ hi lo, c.bytes = c.type :: hi :: lo :: c.body ∧ beNat [hi, lo] = c.body.length := by
  have value := beNat_beBytes 2 c.body.length
  have bound : c.body.length % 256 ^ 2 = c.body.length := Nat.mod_eq_of_lt c.short
  exact ⟨_, _, rfl, value.trans bound⟩

/-- A round at a chunk the guard lets through is the decoding of that chunk. -/
theorem chunkStep_chunk (c : RawChunk) (rest : Bytes) {s : PacketScan σ} (going : s.result = true)
    (guard : s.len ≤ (c.bytes ++ rest).length) :
    chunkStep handle s (c.bytes ++ rest) =
      deserializeChunk handle { s with len := c.body.length } c.type (c.body ++ rest) := by
  obtain ⟨hi, lo, bytes, value⟩ := c.header
  rw [bytes] at guard ⊢
  simp only [List.cons_append] at guard ⊢
  simp only [chunkStep, going, guard, and_self, if_true, value, c.notPad, or_self, if_false, List.length_append,
    Nat.le_add_right]

theorem run_stopped {s s' : PacketScan σ} {raw : Bytes} (stop : chunkStep handle s raw = .stop s' rest)
    (handler : s'.handler = s.handler) (result : s'.result = s.result) :
    PacketTrace.of ((chunkScanner handle).run s raw) = ⟨[], s.handler, s.result⟩ := by
  cases raw with
  | nil =>
    rw [Scanner.run_nil]
    rfl
  | cons b raw =>
    rw [Scanner.run_stop (List.cons_ne_nil _ _) stop, PacketTrace.of, handler, result]

theorem run_closed {s : PacketScan σ} {raw : Bytes} (closed : s.result = false ∨ raw.length < s.len) :
    PacketTrace.of ((chunkScanner handle).run s raw) = ⟨[], s.handler, s.result⟩ := by
  have stop : chunkStep handle s raw = .stop s raw := by
    unfold chunkStep
    split
    · refine if_neg fun ⟨going, guard⟩ => ?_
      rcases closed with failed | tooLong
      · cases going.symm.trans failed
      · exact Nat.not_lt_of_le guard tooLong
    · rfl
  exact run_stopped handle stop rfl rfl

theorem run_padding (s : PacketScan σ) :
    PacketTrace.of ((chunkScanner handle).run s pad.bytes) = ⟨[], s.handler, s.result⟩ := by
  obtain ⟨bytes, marked⟩ := pad
  match bytes with
  | type :: hi :: lo :: body =>
    have isPad : type = ePad0 ∨ type = ePadff := by simpa using marked
    by_cases guard : s.result ∧ s.len ≤ (type :: hi :: lo :: body).length
    · exact run_stopped handle ((if_pos guard).trans (if_pos isPad)) rfl rfl
    · exact run_stopped handle (if_neg guard) rfl rfl
  | [] => exact run_stopped handle rfl rfl rfl
  | [_] => exact run_stopped handle rfl rfl rfl
  | [_, _] => exact run_stopped handle rfl rfl rfl

/-- The meaning of a packet with chunks in it always shows: as an event, or as a failure. -/
theorem expected_shows (s : σ) {chunks : List RawChunk} (some : chunks ≠ []) :
    (expected handle pad s chunks).events ≠ [] ∨ (expected handle pad s chunks).result = false := by
  cases chunks with
  | nil => exact absurd rfl some
  | cons c later =>
    unfold expected
    split
    · exact .inl (List.cons_ne_nil _ _)
    · split
      · exact .inr rfl
      · dsimp only
        split
        · exact .inl (List.cons_ne_nil _ _)
        · exact .inr rfl

theorem PacketTrace.after_inj {t t' : PacketTrace σ} {e : Event} : t.after e = t'.after e ↔ t = t' := by
  obtain ⟨events, handler, result⟩ := t
  obtain ⟨events', handler', result'⟩ := t'
  simp [after]

variable {s : σ}

/-- What is seen of a scan at a chunk: the event of the chunk, if any, then the rest. -/
theorem run_chunk (c : RawChunk) {rest' : Bytes} {s' : PacketScan σ} {out : List Event}
    (guard : len ≤ (c.bytes ++ rest).length)
    (round : deserializeChunk handle ⟨s, c.body.length, true⟩ c.type (c.body ++ rest) = .next s' rest' out) :
    PacketTrace.of ((chunkScanner handle).run ⟨s, len, true⟩ (c.bytes ++ rest)) =
      ⟨out ++ (PacketTrace.of ((chunkScanner handle).run s' rest')).events,
        (PacketTrace.of ((chunkScanner handle).run s' rest')).handler,
        (PacketTrace.of ((chunkScanner handle).run s' rest')).result⟩ := by
  have step : (chunkScanner handle).step ⟨s, len, true⟩ (c.bytes ++ rest) = .next s' rest' out :=
    (chunkStep_chunk handle c rest rfl guard).trans round
  rw [Scanner.run_next (by simp [RawChunk.bytes]) step]
  rfl

/-- Going on from a chunk shows what it should exactly if the chunk lets the scan pass and
the chunks behind it show what they should. -/
theorem goes_on_iff (ih : ∀ len, (later ≠ [] → len ≤ (packet pad later).length) →
      (PacketTrace.of ((chunkScanner handle).run ⟨s, len, true⟩ (packet pad later)) = expected handle pad s later ↔
        Faithful handle pad s later)) :
    PacketTrace.of ((chunkScanner handle).run ⟨s, c.body.length, true⟩ (packet pad later)) =
      expected handle pad s later ↔
      Passes pad c later ∧ Faithful handle pad s later := by
  by_cases passes : Passes pad c later
  · rw [ih _ passes, and_iff_right passes]
  · refine iff_of_false (fun same => ?_) fun both => passes both.1
    obtain ⟨more, tooLong⟩ := Classical.not_imp.mp passes
    rw [run_closed handle (.inr (Nat.lt_of_not_le tooLong))] at same
    rcases expected_shows handle pad s more with event | failed
    · exact event (congrArg PacketTrace.events same).symm
    · cases (congrArg PacketTrace.result same).trans failed

theorem expected_event {chunk : Chunk} (known : ChunkType.ofByte c.type = some type)
    (own : decodeOwn type c.body = some chunk) :
    (expected handle pad s (c :: later)).events.head? = some (.handled chunk (packet pad later).length) := by
  simp only [expected, known, own]
  split <;> rfl

/-- A chunk out of frame is seen at once: by an event that should not be there, or by the
position it ends at. -/
theorem ne_expected_of_unframed (guard : len ≤ (c.bytes ++ packet pad later).length)
    (known : ChunkType.ofByte c.type = some type) (unframed : ¬ Framed type c.body (packet pad later)) :
    PacketTrace.of ((chunkScanner handle).run ⟨s, len, true⟩ (c.bytes ++ packet pad later)) ≠
      expected handle pad s (c :: later) := by
  intro same
  obtain ⟨chunk, rest, decoded, wrong⟩ := deserialize_unframed unframed
  have round : deserializeChunk handle ⟨s, c.body.length, true⟩ c.type (c.body ++ packet pad later) =
      .next ⟨(handle s chunk).1, c.body.length, (handle s chunk).2⟩ rest [.handled chunk rest.length] := by
    simp only [deserializeChunk, known, decoded]
  rw [run_chunk handle c guard round] at same
  have first := congrArg List.head? (congrArg PacketTrace.events same)
  cases own : decodeOwn type c.body with
  | none =>
    simp only [expected, known, own] at first
    cases first
  | some chunk' =>
    rw [expected_event handle pad known own] at first
    have unread := (Event.handled.inj (Option.some.inj first)).2
    rcases wrong with malformed | misplaced
    · cases own.symm.trans malformed
    · exact misplaced unread

/-- A chunk in frame shows the event it should, and from there on the scan has to show what
the chunks behind it should. -/
theorem framed_step (guard : len ≤ (c.bytes ++ packet pad later).length)
    (known : ChunkType.ofByte c.type = some type) (framed : Framed type c.body (packet pad later))
    (ih : ∀ s len, (later ≠ [] → len ≤ (packet pad later).length) →
      (PacketTrace.of ((chunkScanner handle).run ⟨s, len, true⟩ (packet pad later)) = expected handle pad s later ↔
        Faithful handle pad s later)) :
    PacketTrace.of ((chunkScanner handle).run ⟨s, len, true⟩ (c.bytes ++ packet pad later)) =
        expected handle pad s (c :: later) ↔ Faithful handle pad s (c :: later) := by
  have decoded := deserialize_framed framed
  cases own : decodeOwn type c.body with
  | none =>
    rw [own, Option.map_none] at decoded
    have round : deserializeChunk handle ⟨s, c.body.length, true⟩ c.type (c.body ++ packet pad later) =
        .next ⟨s, c.body.length, false⟩ (c.body ++ packet pad later) [] := by
      simp only [deserializeChunk, known, decoded]
    rw [run_chunk handle c guard round, run_closed handle (.inl rfl)]
    simp only [expected, Faithful, known, own, framed, and_self, List.nil_append]
  | some chunk =>
    rw [own, Option.map_some] at decoded
    obtain ⟨⟨s', accepted⟩, handled⟩ : ∃ result, handle s chunk = result := ⟨_, rfl⟩
    have round : deserializeChunk handle ⟨s, c.body.length, true⟩ c.type (c.body ++ packet pad later) =
        .next ⟨s', c.body.length, accepted⟩ (packet pad later) [.handled chunk (packet pad later).length] := by
      simp only [deserializeChunk, known, decoded, handled]
    rw [run_chunk handle c guard round]
    simp only [expected, Faithful, known, own, framed, true_and, handled]
    cases accepted with
    | true => exact PacketTrace.after_inj.trans (goes_on_iff handle pad (ih s'))
    | false =>
      rw [run_closed handle (.inl rfl)]
      exact iff_of_true rfl trivial

-- the induction is on the chunks; the length variable is whatever the chunk before left
theorem run_eq_expected_iff (chunks : List RawChunk) (s : σ) (len : Nat)
    (guard : chunks ≠ [] → len ≤ (packet pad chunks).length) :
    PacketTrace.of ((chunkScanner handle).run ⟨s, len, true⟩ (packet pad chunks)) = expected handle pad s chunks ↔
      Faithful handle pad s chunks := by
  induction chunks generalizing s len with
  | nil => exact iff_of_true (run_padding handle pad _) trivial
  | cons c later ih =>
    have guard := guard (List.cons_ne_nil _ _)
    rw [packet] at guard ⊢
    cases known : ChunkType.ofByte c.type with
    | none =>
      have round : deserializeChunk handle ⟨s, c.body.length, true⟩ c.type (c.body ++ packet pad later) =
          .next ⟨s, c.body.length, true⟩ (packet pad later) [.skipped (packet pad later).length] := by
        simp only [deserializeChunk, known, List.drop_left]
      rw [run_chunk handle c guard round]
      simp only [expected, Faithful, known]
      exact PacketTrace.after_inj.trans (goes_on_iff handle pad (ih s))
    | some type =>
      by_cases framed : Framed type c.body (packet pad later)
      · exact framed_step handle pad guard known framed ih
      · refine iff_of_false (ne_expected_of_unframed handle pad guard known framed) fun faithful => ?_
        simp only [Faithful, known] at faithful
        exact framed faithful.1

/-- A packet is handed on chunk by chunk, each from its own bytes, exactly if every chunk
the scan gets to is framed and not longer than what follows it. -/
theorem parseChunks_eq_expected_iff (s : σ) (chunks : List RawChunk) :
    parseChunks handle s (packet pad chunks) = expected handle pad s chunks ↔ Faithful handle pad s chunks :=
  run_eq_expected_iff handle pad chunks s 0 fun _ => Nat.zero_le _

end scan

/-- A ping of four bytes hides the ping of none behind it, which ends the packet. -/
theorem parseChunks_drops_short_chunk :
    let accept : Unit → Chunk → Unit × Bool := fun s _ => (s, true)
    let pad : Padding := ⟨[], .inl rfl⟩
    let chunks : List RawChunk := [⟨0x01, [1, 2, 3, 4], by decide, by decide⟩, ⟨0x01, [], by decide, by decide⟩]
    (parseChunks accept () (packet pad chunks)).events = [.handled (.ping [1, 2, 3, 4]) 3] ∧
      (expected accept pad () chunks).events = [.handled (.ping [1, 2, 3, 4]) 3, .handled (.ping []) 0] := by
  intro accept pad chunks
  refine ⟨?_, by decide⟩
  have round : deserializeChunk accept ⟨(), 4, true⟩ 0x01 ([1, 2, 3, 4] ++ [1, 0, 0]) =
      .next ⟨(), 4, true⟩ [1, 0, 0] [.handled (.ping [1, 2, 3, 4]) 3] := by rfl
  have seen := run_chunk accept ⟨0x01, [1, 2, 3, 4], by decide, by decide⟩ (Nat.zero_le _) round
  have ends := @run_closed Unit accept ⟨(), 4, true⟩ [1, 0, 0] (.inr (by decide))
  rw [ends] at seen
  exact congrArg PacketTrace.events seen

end Fms.Rtmfp
