import Fms.Base.Transition
import Fms.Rtmpt.Manager

namespace Fms
open ByteWire

namespace RtmptSessionData

/-- A run of the loop that takes contiguous bodies out of the stash. -/
inductive Drains : RtmptSessionData → List Bytes → RtmptSessionData → Prop
  | done {sd : RtmptSessionData} : sd.outOfOrderData.lookup sd.sequence = none → Drains sd [] sd
  | next {sd last : RtmptSessionData} {body : Bytes} {bodies : List Bytes} :
      sd.outOfOrderData.lookup sd.sequence = some body →
      Drains { sd with oooBytes := sd.oooBytes - body.length
                       outOfOrderData := sd.outOfOrderData.erase sd.sequence
                       sequence := sd.sequence + 1 } bodies last →
      Drains sd (body :: bodies) last

theorem drains_drain {turns : Nat} {sd : RtmptSessionData} (enough : sd.outOfOrderData.size ≤ turns)
    (drained : Bytes) :
    ∃ bodies, Drains sd bodies (drain turns sd drained).1 ∧
      (drain turns sd drained).2 = drained ++ bodies.flatten := by
  induction turns generalizing sd drained with
  | zero =>
    have empty : sd.outOfOrderData.entries = [] := List.length_eq_zero_iff.mp (Nat.le_zero.mp enough)
    refine ⟨[], .done ?_, (List.append_nil _).symm⟩
    rw [AList.lookup, empty, List.dlookup_nil]
  | succ turns ih =>
    unfold drain
    cases found : sd.outOfOrderData.lookup sd.sequence with
    | none => exact ⟨[], .done found, (List.append_nil _).symm⟩
    | some body =>
      have present : sd.sequence ∈ sd.outOfOrderData := by
        rw [← AList.lookup_isSome, found]
        rfl
      have fewer : Dict.size (sd.outOfOrderData.erase sd.sequence) ≤ turns := by
        have dropped := Dict.size_erase_mem present
        omega
      obtain ⟨bodies, run, all⟩ := @ih { sd with
        oooBytes := sd.oooBytes - body.length
        outOfOrderData := sd.outOfOrderData.erase sd.sequence
        sequence := sd.sequence + 1 } fewer (drained ++ body)
      exact ⟨body :: bodies, .next found run, by rw [List.flatten_cons, ← List.append_assoc]; exact all⟩

/-- The counter stands at `p` and the stash holds what `F` has from there on. -/
structure Holds (sd : RtmptSessionData) (p : Nat) (F : Nat → Option Bytes) : Prop where
  sequence : sd.sequence = UInt32.ofNat p
  bound : p ≤ 2 ^ 32
  contents : ∀ k, sd.outOfOrderData.lookup k = if p ≤ k.toNat then F k.toNat else none

variable {sd last : RtmptSessionData} {p : Nat} {F : Nat → Option Bytes} {bodies : List Bytes}

theorem Holds.at_sequence (holds : Holds sd p F)
    (below : p < 2 ^ 32) : sd.outOfOrderData.lookup sd.sequence = F p := by
  have same : sd.sequence.toNat = p := by
    rw [holds.sequence, UInt32.toNat_ofNat_of_lt' below]
  rw [holds.contents, same, if_pos le_rfl]

theorem Drains.holds (run : Drains sd bodies last) (holds : Holds sd p F) :
    ∃ q, p ≤ q ∧ Holds last q F ∧ (q < 2 ^ 32 → F q = none) ∧ (∀ n, p ≤ n → n < q → (F n).isSome) ∧
      bodies.flatten = (List.range' p (q - p)).flatMap fun n => (F n).getD [] := by
  induction run generalizing p with
  | done stop =>
    refine ⟨p, le_rfl, holds, fun below => ?_, fun n from_ to_ => by omega, by simp⟩
    rw [← holds.at_sequence below, stop]
  | @next sd last body bodies found _ ih =>
    have below : p < 2 ^ 32 := by
      by_contra full
      have none := holds.contents sd.sequence
      have low := sd.sequence.toNat_lt
      rw [found, if_neg (by omega)] at none
      cases none
    have here : F p = some body := (holds.at_sequence below).symm.trans found
    have next : Holds { sd with oooBytes := sd.oooBytes - body.length
                                outOfOrderData := sd.outOfOrderData.erase sd.sequence
                                sequence := sd.sequence + 1 } (p + 1) F := by
      refine ⟨?_, below, fun k => ?_⟩
      · show sd.sequence + 1 = UInt32.ofNat (p + 1)
        rw [holds.sequence, UInt32.ofNat_add]
        rfl
      · show (sd.outOfOrderData.erase sd.sequence).lookup k = _
        rw [Dict.lookup_erase_if, holds.contents]
        have position : k = sd.sequence ↔ k.toNat = p := by
          rw [← UInt32.toNat_inj, holds.sequence, UInt32.toNat_ofNat_of_lt' below]
        split
        · rename_i same
          rw [if_neg (by have := position.mp same; omega)]
        · rename_i apart
          have different : k.toNat ≠ p := fun same => apart (position.mpr same)
          by_cases beyond : p ≤ k.toNat
          · rw [if_pos beyond, if_pos (by omega)]
          · rw [if_neg beyond, if_neg (by omega)]
    obtain ⟨q, further, after, stop, taken, all⟩ := ih next
    refine ⟨q, by omega, after, stop, fun n notBelow less => ?_, ?_⟩
    · rcases Nat.eq_or_lt_of_le notBelow with same | above
      · rw [← same, here]
        rfl
      · exact taken n above less
    have split : q - p = q - (p + 1) + 1 := by omega
    rw [List.flatten_cons, all, split, List.range'_succ, List.flatMap_cons, here]
    rfl

theorem Holds.advance {G : Nat → Option Bytes} (holds : Holds sd p F) (below : p < 2 ^ 32) (missing : F p = none)
    (same : ∀ n, n ≠ p → G n = F n) (drained : Bytes) :
    ∃ q, p < q ∧ Holds (sd.advanceSequence sd.sequence drained).2.1 q G ∧ (q < 2 ^ 32 → G q = none) ∧
      (∀ n, p < n → n < q → (G n).isSome) ∧
      (sd.advanceSequence sd.sequence drained).2.2 =
        drained ++ (List.range' (p + 1) (q - (p + 1))).flatMap fun n => (G n).getD [] := by
  have next : Holds { sd with sequence := sd.sequence + 1 } (p + 1) G := by
    refine ⟨?_, below, fun k => ?_⟩
    · show sd.sequence + 1 = UInt32.ofNat (p + 1)
      rw [holds.sequence, UInt32.ofNat_add]
      rfl
    · show sd.outOfOrderData.lookup k = _
      rw [holds.contents]
      by_cases here : k.toNat = p
      · rw [here, if_pos le_rfl, if_neg (by omega), missing]
      · rw [same k.toNat here]
        by_cases beyond : p ≤ k.toNat
        · rw [if_pos beyond, if_pos (by omega)]
        · rw [if_neg beyond, if_neg (by omega)]
  have full : ({ sd with sequence := sd.sequence + 1 } : RtmptSessionData).outOfOrderData.size ≤
      sd.outOfOrderData.size := le_rfl
  obtain ⟨bodies, run, all⟩ := drains_drain full drained
  obtain ⟨q, further, after, stop, taken, drains⟩ := run.holds next
  have advanced : sd.advanceSequence sd.sequence drained =
      (true, drain sd.outOfOrderData.size { sd with sequence := sd.sequence + 1 } drained) := if_neg (not_not.mpr rfl)
  rw [advanced]
  exact ⟨q, further, after, stop, taken, all.trans (by rw [drains])⟩

theorem Holds.stashed {G : Nat → Option Bytes} {seq : UInt32} {body : Bytes} (holds : Holds sd p F)
    (ahead : p ≤ seq.toNat) (here : G seq.toNat = some body) (same : ∀ n, n ≠ seq.toNat → G n = F n)
    (room : sd.Stashes seq body) : Holds (sd.stash seq body) p G := by
  rw [stash, if_pos room]
  refine ⟨holds.sequence, holds.bound, fun k => ?_⟩
  show (sd.outOfOrderData.insert seq body).lookup k = _
  rw [Dict.lookup_insert_if]
  split
  · rename_i is
    rw [is, if_pos ahead, here]
  · rename_i apart
    have different : k.toNat ≠ seq.toNat := fun is => apart (UInt32.toNat_inj.mp is)
    rw [holds.contents, same k.toNat different]

end RtmptSessionData

def firstBody (kept : List (UInt32 × Bytes)) (n : Nat) : Option Bytes :=
  (kept.find? fun taken => taken.1.toNat = n).map Prod.snd

theorem firstBody_append (kept : List (UInt32 × Bytes)) (seq : UInt32) (body : Bytes) (n : Nat) :
    firstBody (kept ++ [(seq, body)]) n = (firstBody kept n).or (if n = seq.toNat then some body else none) := by
  unfold firstBody
  rw [List.find?_append]
  cases kept.find? fun taken => decide (taken.1.toNat = n) with
  | some taken => rfl
  | none =>
    by_cases here : n = seq.toNat
    · simp [here]
    · simp [here, Ne.symm here]

/-- Whether the body of a request is taken: in order, or stashed. -/
def RtmptSessionData.takes (sd : RtmptSessionData) (seq : UInt32) : RtmptRequest → List (UInt32 × Bytes)
  | .send body => if sd.sequence = seq ∨ sd.Stashes seq body then [(seq, body)] else []
  | .idle => []

/-- The sequencing state after a request. -/
def RtmptSessionData.sequenced (sd : RtmptSessionData) (seq : UInt32) : RtmptRequest → RtmptSessionData
  | .send body => if sd.sequence = seq then (sd.advanceSequence seq body).2.1 else sd.stash seq body
  | .idle => (sd.advanceSequence seq []).2.1

/-- The bytes a request releases for the session. -/
def RtmptSessionData.released (sd : RtmptSessionData) (seq : UInt32) : RtmptRequest → Bytes
  | .send body => if sd.sequence = seq then (sd.advanceSequence seq body).2.2 else []
  | .idle => (sd.advanceSequence seq []).2.2

namespace RtmptTunnel

/-- A tunnel with the bodies it took since the counter was last 0, and the bytes that had been
handed over by then. -/
structure Course where
  tunnel : RtmptTunnel
  kept : List (UInt32 × Bytes) := []
  earlier : Bytes := []

inductive Event
  | request (remote : Nat) (seq : UInt32) (request : RtmptRequest) (answer : RtmptAnswer)
  | postClose

def Course.step (c : Course) : Event → Course
  | .request _ seq request answer =>
    let tunnel := c.tunnel.handleRequest seq request answer
    if c.tunnel.data.sequence = seq ∧ tunnel.data.sequence = 0 then
      { tunnel := tunnel, earlier := tunnel.session.received }
    else { c with tunnel := tunnel, kept := c.kept ++ c.tunnel.data.takes seq request }
  | .postClose => { c with tunnel := c.tunnel.postClose }

/-- A request is one that `validate` accepts, and finds no close pending. -/
def Event.Served (c : Course) : Event → Prop
  | .request remote seq _ _ => (c.tunnel.validate remote seq).1 = true ∧ c.tunnel.session.closeRequested = false
  | .postClose => True

/-- What has been handed over is the bodies taken, in the order of their numbers. -/
structure Course.Exact (c : Course) : Prop where
  holds : c.tunnel.data.Holds c.tunnel.data.sequence.toNat (firstBody c.kept)
  missing : firstBody c.kept c.tunnel.data.sequence.toNat = none
  received : c.tunnel.session.received =
    c.earlier ++ (List.range c.tunnel.data.sequence.toNat).flatMap fun n => (firstBody c.kept n).getD []

variable {t : RtmptTunnel} {ticket : RtmptTicket} {answer : RtmptAnswer} {seq : UInt32} {request : RtmptRequest}

theorem data_removeSession : t.removeSession.data = t.data := by
  unfold removeSession
  split <;> rfl

theorem received_removeSession : t.removeSession.session.received = t.session.received := by
  unfold removeSession
  split <;> rfl

theorem data_serve : (t.serve ticket answer).data = t.data := by
  unfold serve
  split
  · exact data_removeSession
  · simp only
    split
    · split
      · exact data_removeSession
      · rfl
    · split
      · exact data_removeSession
      · rfl

theorem received_serve (calm : t.session.closeRequested = false) :
    (t.serve ticket answer).session.received = t.session.received ++ if ticket.hands then ticket.bytes else [] := by
  unfold serve
  rw [calm, if_neg Bool.false_ne_true]
  simp only
  split
  · split
    · exact received_removeSession
    · rfl
  · rw [List.append_nil]
    split
    · exact received_removeSession
    · rfl

theorem validate_accepts {remote : Nat} (accepted : (t.validate remote seq).1 = true) :
    t.listed = true ∧ t.session.closed = false ∧ t.data.sequence.toNat ≤ seq.toNat := by
  unfold validate at accepted
  split at accepted
  · cases accepted
  · rename_i listed
    split at accepted
    · cases accepted
    · rename_i opened
      split at accepted
      · cases accepted
      · rename_i fresh
        have notAbove : ¬t.data.sequence > seq := fun above => fresh (.inl above)
        refine ⟨by simpa using listed, by simpa using opened, ?_⟩
        exact UInt32.le_iff_toNat_le.mp (UInt32.not_lt.mp notAbove)

theorem sequenceRequest_eq (seq : UInt32) (request : RtmptRequest) (listed : t.listed = true) :
    ∃ ticket, t.sequenceRequest seq request = ({ t with data := t.data.sequenced seq request }, some ticket) ∧
      (if ticket.hands then ticket.bytes else []) = t.data.released seq request := by
  have late (drained : Bytes) (off : t.data.sequence ≠ seq) :
      t.data.advanceSequence seq drained = (false, t.data, drained) := if_pos off
  have first (drained : Bytes) (expected : t.data.sequence = seq) :
      (t.data.advanceSequence seq drained).1 = true := by
    rw [RtmptSessionData.advanceSequence, if_neg (not_not.mpr expected)]
  cases request with
  | send body =>
    simp only [sequenceRequest, listed, not_true, if_false, RtmptSessionData.sequenced, RtmptSessionData.released]
    by_cases expected : t.data.sequence = seq
    · refine ⟨⟨true, (t.data.advanceSequence seq body).2.2⟩, ?_, ?_⟩
      · simp only [first body expected, if_true, if_pos expected]
      · simp only [if_true, if_pos expected]
    · refine ⟨⟨false, body⟩, ?_, ?_⟩
      · simp only [late body expected, Bool.false_eq_true, if_false, if_neg expected]
      · simp only [Bool.false_eq_true, if_false, if_neg expected]
  | idle =>
    simp only [sequenceRequest, listed, not_true, if_false, RtmptSessionData.sequenced, RtmptSessionData.released]
    refine ⟨_, rfl, ?_⟩
    by_cases nothing : (t.data.advanceSequence seq []).2.2 = []
    · simp [nothing]
    · simp [nothing]

theorem handleRequest_eq (seq : UInt32) (request : RtmptRequest) (answer : RtmptAnswer) (listed : t.listed = true)
    (calm : t.session.closeRequested = false) :
    (t.handleRequest seq request answer).data = t.data.sequenced seq request ∧
      (t.handleRequest seq request answer).session.received =
        t.session.received ++ t.data.released seq request := by
  obtain ⟨ticket, sequences, hands⟩ := sequenceRequest_eq seq request listed
  unfold handleRequest
  rw [sequences]
  refine ⟨data_serve, ?_⟩
  rw [← hands]
  exact received_serve calm

/-- What is taken under other numbers stays. -/
theorem firstBody_takes {sd : RtmptSessionData} {kept : List (UInt32 × Bytes)} {n : Nat} (other : n ≠ seq.toNat) :
    firstBody (kept ++ sd.takes seq request) n = firstBody kept n := by
  unfold RtmptSessionData.takes
  split
  · split
    · rw [firstBody_append, if_neg other, Option.or_none]
    · rw [List.append_nil]
  · rw [List.append_nil]

end RtmptTunnel

namespace RtmptSessionData
variable {kept : List (UInt32 × Bytes)} {seq : UInt32}

theorem Holds.sequenced_expected (holds : Holds sd p (firstBody kept)) (below : p < 2 ^ 32)
    (missing : firstBody kept p = none) (expected : sd.sequence = seq) (request : RtmptRequest) :
    ∃ q, p < q ∧ Holds (sd.sequenced seq request) q (firstBody (kept ++ sd.takes seq request)) ∧
      (q < 2 ^ 32 → firstBody (kept ++ sd.takes seq request) q = none) ∧
      (∀ n, p < n → n < q → (firstBody (kept ++ sd.takes seq request) n).isSome) ∧
      sd.released seq request =
        (List.range' p (q - p)).flatMap fun n => (firstBody (kept ++ sd.takes seq request) n).getD [] := by
  have position : seq.toNat = p := by rw [← expected, holds.sequence, UInt32.toNat_ofNat_of_lt' below]
  have same : ∀ n, n ≠ p → firstBody (kept ++ sd.takes seq request) n = firstBody kept n := fun n other =>
    RtmptTunnel.firstBody_takes (position ▸ other)
  have here : (firstBody (kept ++ sd.takes seq request) p).getD [] = match request with
      | .send body => body
      | .idle => [] := by
    cases request with
    | send body =>
      show (firstBody (kept ++ if _ then _ else _) p).getD [] = body
      rw [if_pos (.inl expected), firstBody_append, missing, if_pos position.symm]
      rfl
    | idle =>
      show (firstBody (kept ++ []) p).getD [] = []
      rw [List.append_nil, missing]
      rfl
  have split {q : Nat} (further : p < q) : q - p = q - (p + 1) + 1 := by omega
  subst expected
  cases request with
  | send body =>
    obtain ⟨q, further, after, stop, taken, all⟩ := holds.advance below missing same body
    refine ⟨q, further, ?_, stop, taken, ?_⟩
    · rw [sequenced, if_pos rfl]
      exact after
    · rw [released, if_pos rfl, all, split further, List.range'_succ, List.flatMap_cons, here]
  | idle =>
    obtain ⟨q, further, after, stop, taken, all⟩ := holds.advance below missing same []
    refine ⟨q, further, after, stop, taken, ?_⟩
    rw [released, all, split further, List.range'_succ, List.flatMap_cons, here]

theorem Holds.sequenced_ahead (holds : Holds sd p (firstBody kept)) (ahead : p ≤ seq.toNat)
    (off : sd.sequence ≠ seq) (request : RtmptRequest) :
    Holds (sd.sequenced seq request) p (firstBody (kept ++ sd.takes seq request)) ∧ sd.released seq request = [] := by
  have late (drained : Bytes) : sd.advanceSequence seq drained = (false, sd, drained) := if_pos off
  cases request with
  | idle =>
    rw [sequenced, released, late, takes, List.append_nil]
    exact ⟨holds, rfl⟩
  | send body =>
    rw [sequenced, released, if_neg off, if_neg off]
    refine ⟨?_, rfl⟩
    by_cases room : sd.Stashes seq body
    · have absent : firstBody kept seq.toNat = none := by
        have none := holds.contents seq
        rw [if_pos ahead, AList.lookup_eq_none.mpr room.2.2] at none
        exact none.symm
      rw [takes, if_pos (.inr room)]
      refine holds.stashed ahead ?_ (fun n other => ?_) room
      · rw [firstBody_append, absent, if_pos rfl]
        rfl
      · rw [firstBody_append, if_neg other, Option.or_none]
    · have nothing : ¬(sd.sequence = seq ∨ sd.Stashes seq body) := not_or.mpr ⟨off, room⟩
      rw [takes, if_neg nothing, List.append_nil, stash, if_neg room]
      exact holds

end RtmptSessionData

namespace RtmptTunnel

theorem range_split {p q : Nat} (before : p ≤ q) : List.range q = List.range p ++ List.range' p (q - p) := by
  have parts := @List.range'_append_1 0 p (q - p)
  rw [Nat.zero_add, Nat.add_sub_cancel' before] at parts
  rw [List.range_eq_range', List.range_eq_range', parts]

/-- What was taken under lower numbers is not changed by a request. -/
theorem flatMap_takes {sd : RtmptSessionData} {kept : List (UInt32 × Bytes)} {p : Nat} (notBelow : p ≤ seq.toNat) :
    ((List.range p).flatMap fun n => (firstBody (kept ++ sd.takes seq request) n).getD []) =
      (List.range p).flatMap fun n => (firstBody kept n).getD [] := by
  refine List.flatMap_congr fun n member => ?_
  have less := List.mem_range.mp member
  rw [firstBody_takes (by omega)]

variable {c : Course} {remote : Nat}

theorem Course.Exact.request_expected (exact : c.Exact)
    (served : Event.Served c (.request remote seq request answer)) (expected : c.tunnel.data.sequence = seq) :
    (c.step (.request remote seq request answer)).Exact := by
  obtain ⟨data, received⟩ :=
    handleRequest_eq seq request answer (validate_accepts served.1).1 served.2
  have below := c.tunnel.data.sequence.toNat_lt
  obtain ⟨q, further, after, stop, _, released⟩ := exact.holds.sequenced_expected below exact.missing expected request
  rw [← data] at after
  simp only [Course.step]
  by_cases wraps : q = 2 ^ 32
  · -- the last number: the counter starts again, with nothing left in the stash
    subst wraps
    have zero : (c.tunnel.handleRequest seq request answer).data.sequence = 0 := after.sequence
    have empty : ∀ k, (c.tunnel.handleRequest seq request answer).data.outOfOrderData.lookup k = none := by
      intro k
      have high := k.toNat_lt
      rw [after.contents, if_neg (by omega)]
    rw [if_pos ⟨expected, zero⟩]
    refine ⟨⟨?_, ?_, fun k => ?_⟩, rfl, ?_⟩
    · exact UInt32.ofNat_toNat.symm
    · exact (UInt32.toNat_lt _).le
    · rw [empty]
      split <;> rfl
    · simp [zero]
  · have within : q < 2 ^ 32 := by
      have bound := after.bound
      omega
    have position : (c.tunnel.handleRequest seq request answer).data.sequence.toNat = q := by
      rw [after.sequence, UInt32.toNat_ofNat_of_lt' within]
    have goesOn :
        ¬(c.tunnel.data.sequence = seq ∧ (c.tunnel.handleRequest seq request answer).data.sequence = 0) := by
      rintro ⟨_, zero⟩
      rw [zero] at position
      have nothing : q = 0 := position.symm
      omega
    rw [if_neg goesOn]
    refine ⟨?_, ?_, ?_⟩
    · simp only [position]
      exact after
    · simp only [position]
      exact stop within
    · simp only [position]
      rw [received, exact.received, released, range_split further.le, List.flatMap_append, List.append_assoc,
        flatMap_takes (expected ▸ le_rfl)]

theorem Course.Exact.request_ahead (exact : c.Exact)
    (served : Event.Served c (.request remote seq request answer)) (off : c.tunnel.data.sequence ≠ seq) :
    (c.step (.request remote seq request answer)).Exact := by
  obtain ⟨listed, _, notAbove⟩ := validate_accepts served.1
  obtain ⟨data, received⟩ := handleRequest_eq seq request answer listed served.2
  obtain ⟨after, released⟩ := exact.holds.sequenced_ahead notAbove off request
  rw [← data] at after
  have position : (c.tunnel.handleRequest seq request answer).data.sequence = c.tunnel.data.sequence := by
    rw [after.sequence, UInt32.ofNat_toNat]
  have other : c.tunnel.data.sequence.toNat ≠ seq.toNat := fun same => off (UInt32.toNat_inj.mp same)
  simp only [Course.step]
  rw [if_neg fun both => off both.1]
  refine ⟨?_, ?_, ?_⟩
  · simp only [position]
    exact after
  · simp only [position]
    rw [firstBody_takes other]
    exact exact.missing
  · simp only [position]
    rw [received, released, List.append_nil, exact.received, flatMap_takes notAbove]

/-- A request that finds a close pending takes its number, hands nothing over and is the last one. -/
theorem handleRequest_closing {seq : UInt32} {request : RtmptRequest} {answer : RtmptAnswer} {t : RtmptTunnel}
    (listed : t.listed = true) (pending : t.session.closeRequested = true) :
    (t.handleRequest seq request answer).data = t.data.sequenced seq request ∧
      (t.handleRequest seq request answer).session.received = t.session.received ∧
      (t.handleRequest seq request answer).session.closed = true ∧
      (t.handleRequest seq request answer).listed = false := by
  obtain ⟨ticket, sequences, _⟩ := sequenceRequest_eq seq request listed
  unfold handleRequest
  rw [sequences]
  simp only [serve, pending, if_true, removeSession, listed]
  exact ⟨trivial, trivial, trivial, trivial⟩

/-- In every run of validated requests that find no close pending, the bytes handed over since
the counter was last 0 are the first bodies taken under the numbers below it, in order; and a
validated request that finds a close pending takes its number as any other, hands nothing over and
takes the session off the table, so that no other is validated. -/
theorem bodies_in_sequence {address : Nat} {c : Course}
    (reach : Transition.Reach Course.step Event.Served { tunnel := { data := { address := address } } } c) :
    c.tunnel.session.received = c.earlier ++
        (List.range c.tunnel.data.sequence.toNat).flatMap (fun n => (firstBody c.kept n).getD []) ∧
      ∀ remote seq request answer, (c.tunnel.validate remote seq).1 = true →
        c.tunnel.session.closeRequested = true →
        let next := (c.step (.request remote seq request answer)).tunnel
        next.data = c.tunnel.data.sequenced seq request ∧ next.session.received = c.tunnel.session.received ∧
          next.session.closed = true ∧ ∀ remote seq, (next.validate remote seq).1 = false := by
  have exact : c.Exact := by
    refine reach.invariant (I := Course.Exact) ⟨⟨rfl, Nat.zero_le _, fun k => ?_⟩, rfl, rfl⟩
      fun {c event} served exact => ?_
    · split <;> rfl
    · cases event with
      | request remote seq request answer =>
        by_cases expected : c.tunnel.data.sequence = seq
        · exact exact.request_expected served expected
        · exact exact.request_ahead served expected
      | postClose => exact ⟨exact.holds, exact.missing, exact.received⟩
  refine ⟨exact.received, fun remote seq request answer accepted pending => ?_⟩
  obtain ⟨listed, _, _⟩ := validate_accepts accepted
  obtain ⟨data, received, closed, unlisted⟩ := @handleRequest_closing seq request answer _ listed pending
  have same : (c.step (.request remote seq request answer)).tunnel = c.tunnel.handleRequest seq request answer := by
    simp only [Course.step]
    split <;> rfl
  rw [same]
  refine ⟨data, received, closed, fun remote seq => ?_⟩
  rw [validate, unlisted]
  rfl

/-- A body ahead of its turn, one twice, an idle request in the gap and a body in order. -/
def sampleRequests : List Event :=
  [.request 7 1 (.send [2]) {}, .request 7 1 (.send [9]) {}, .request 7 0 .idle {}, .request 7 2 (.send [3, 4]) {}]

def sampleCourse : Course := sampleRequests.foldl Course.step { tunnel := { data := { address := 7 } } }

theorem bodies_in_sequence_sample :
    sampleCourse.tunnel.session.received = [2, 3, 4] ∧
      [2, 3, 4] = (List.range 3).flatMap fun n => (firstBody sampleCourse.kept n).getD [] := by
  have reach : Transition.Reach Course.step Event.Served { tunnel := { data := { address := 7 } } } sampleCourse :=
    Transition.Reach.start.along
      ⟨⟨by decide, rfl⟩, ⟨by decide, rfl⟩, ⟨by decide, rfl⟩, ⟨by decide, rfl⟩, trivial⟩
  have received : sampleCourse.tunnel.session.received = [2, 3, 4] := by decide
  exact ⟨received, received.symm.trans (bodies_in_sequence reach).1⟩

def closingCourse : Course := Course.step { tunnel := { data := { address := 7 } } } .postClose

/-- Its next request is validated and counted, and its body is not handed over. -/
theorem body_lost_to_close :
    (closingCourse.tunnel.validate 7 0).1 = true ∧
      let next := closingCourse.step (.request 7 0 (.send [1]) {})
      next.tunnel.session.received = [] ∧ next.earlier = [] ∧
        ((List.range next.tunnel.data.sequence.toNat).flatMap fun n => (firstBody next.kept n).getD []) = [1] := by
  decide

end RtmptTunnel

end Fms
