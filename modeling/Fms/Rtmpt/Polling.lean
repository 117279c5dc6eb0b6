import Fms.Rtmpt.Sequencing

namespace Fms
open ByteWire

variable {tunnel : RtmptTunnel} {ticket : RtmptTicket} {index : Nat}

namespace RtmptTunnel

/-- Where a request stands after its first step. -/
inductive Progress
  | waiting
  | done (handed : Bool)
  deriving DecidableEq

/-- A tunnel, the requests that took their first step, in that order, and the numbers and
kinds of all requests so far. -/
structure Polling where
  tunnel : RtmptTunnel
  requests : List (RtmptTicket × Progress) := []
  entered : List (UInt32 × RtmptRequest) := []

inductive Move
  | enter (seq : UInt32) (request : RtmptRequest)
  | serve (index : Nat) (answer : RtmptAnswer)
  | postClose

def Polling.step (s : Polling) : Move → Polling
  | .enter seq request =>
    let (tunnel, ticket) := s.tunnel.sequenceRequest seq request
    { tunnel := tunnel
      requests := s.requests ++ (ticket.map (·, Progress.waiting)).toList
      entered := s.entered ++ [(seq, request)] }
  | .serve index answer => match s.requests[index]? with
    | some (ticket, .waiting) =>
      { s with
        tunnel := s.tunnel.serve ticket answer
        requests := s.requests.set index (ticket, .done (!s.tunnel.session.closeRequested && ticket.hands)) }
    | _ => s
  | .postClose => { s with tunnel := s.tunnel.postClose }

/-- The numbers are distinct, and a request hands its bytes over only when no request that
took its first step later has handed any over. -/
def Move.InTurn (s : Polling) : Move → Prop
  | .enter seq _ => ∀ earlier ∈ s.entered, earlier.1 ≠ seq
  | .serve index _ => ∀ ticket, s.requests[index]? = some (ticket, .waiting) →
      s.tunnel.session.closeRequested = true ∨ ticket.hands = false ∨ ticket.bytes = [] ∨
        ∀ later ∈ s.requests.drop (index + 1), later.2 = .done true → later.1.bytes = []
  | .postClose => True

/-- A request with the bodies that make up its bytes. -/
structure Batch where
  ticket : RtmptTicket
  progress : Progress
  bodies : List (UInt32 × Bytes)

def Rising (bodies : List (UInt32 × Bytes)) : Prop := bodies.Pairwise fun a b => a.1 < b.1

/-- The bodies of a request are those of requests so far, with numbers below the counter. -/
structure Batch.Fits (entered : List (UInt32 × RtmptRequest)) (p : Nat) (batch : Batch) : Prop where
  bytes : (if batch.ticket.hands then batch.ticket.bytes else []) = batch.bodies.flatMap Prod.snd
  rising : Rising batch.bodies
  known : ∀ body ∈ batch.bodies, (body.1, .send body.2) ∈ entered
  passed : ∀ body ∈ batch.bodies, body.1.toNat < p

/-- The state of the sequencing and of the requests between their two steps. -/
structure Polling.Accounted (s : Polling) (p : Nat) (kept : List (UInt32 × Bytes)) (batches : List Batch) : Prop where
  holds : s.tunnel.data.Holds p (firstBody kept)
  missing : p < 2 ^ 32 → firstBody kept p = none
  known : ∀ body ∈ kept, (body.1, .send body.2) ∈ s.entered
  passed : ∀ seq : UInt32, seq.toNat < p → ∃ earlier ∈ s.entered, earlier.1 = seq
  requests : s.requests = batches.map fun batch => (batch.ticket, batch.progress)
  fits : ∀ batch ∈ batches, batch.Fits s.entered p
  apart : (batches.map Batch.bodies).Pairwise fun a b => ∀ x ∈ a, ∀ y ∈ b, x.1 < y.1

/-- The session has received whole bodies, of requests that handed them over. -/
structure Polling.Received (s : Polling) (batches : List Batch) (bodies : List (UInt32 × Bytes)) : Prop where
  received : s.tunnel.session.received = bodies.flatMap Prod.snd
  rising : Rising bodies
  known : ∀ body ∈ bodies, (body.1, .send body.2) ∈ s.entered
  handed : ∀ body ∈ bodies, ∃ (index : Nat) (batch : Batch), batches[index]? = some batch ∧
    batch.progress = .done true ∧ batch.ticket.bytes ≠ [] ∧ body ∈ batch.bodies

variable {s : Polling} {p : Nat} {kept bodies : List (UInt32 × Bytes)} {batches : List Batch} {seq : UInt32}
  {request : RtmptRequest} {answer : RtmptAnswer}

/-- The bodies taken under a range of numbers. -/
def bodiesFrom (kept : List (UInt32 × Bytes)) (p count : Nat) : List (UInt32 × Bytes) :=
  (List.range' p count).filterMap fun n => kept.find? fun taken => taken.1.toNat = n

theorem mem_bodiesFrom {p count : Nat} {body : UInt32 × Bytes} (member : body ∈ bodiesFrom kept p count) :
    body ∈ kept ∧ p ≤ body.1.toNat ∧ body.1.toNat < p + count := by
  obtain ⟨n, inside, found⟩ := List.mem_filterMap.mp member
  have number : body.1.toNat = n := by simpa using List.find?_some found
  have range := List.mem_range'_1.mp inside
  exact ⟨List.mem_of_find?_eq_some found, by omega, by omega⟩

theorem flatMap_bodiesFrom (p count : Nat) :
    (bodiesFrom kept p count).flatMap Prod.snd =
      (List.range' p count).flatMap fun n => (firstBody kept n).getD [] := by
  unfold bodiesFrom firstBody
  induction List.range' p count with
  | nil => rfl
  | cons n rest ih =>
    rw [List.filterMap_cons, List.flatMap_cons, ← ih]
    cases kept.find? fun taken => decide (taken.1.toNat = n) with
    | none => rfl
    | some body => rfl

theorem rising_bodiesFrom (p count : Nat) : Rising (bodiesFrom kept p count) := by
  refine List.Pairwise.filterMap _ (fun n m less body found other also => ?_) (List.pairwise_lt_range' ..)
  have first : body.1.toNat = n := by simpa using List.find?_some found
  have second : other.1.toNat = m := by simpa using List.find?_some also
  exact UInt32.lt_iff_toNat_lt.mpr (by omega)

theorem Batch.Fits.grow {entered : List (UInt32 × RtmptRequest)} {q : Nat} {batch : Batch}
    (fits : batch.Fits entered p)
    (further : p ≤ q) (more : List (UInt32 × RtmptRequest)) : batch.Fits (entered ++ more) q :=
  ⟨fits.bytes, fits.rising, fun body member => List.mem_append_left _ (fits.known body member),
    fun body member => (fits.passed body member).trans_le further⟩

theorem Polling.Received.enter (received : s.Received batches bodies) (same : tunnel.session = s.tunnel.session)
    (requests : List (RtmptTicket × Progress)) (later : List Batch) (more : List (UInt32 × RtmptRequest)) :
    Polling.Received ⟨tunnel, requests, s.entered ++ more⟩ (batches ++ later) bodies := by
  refine ⟨?_, received.rising, fun body member => List.mem_append_left _ (received.known body member),
    fun body member => ?_⟩
  · show tunnel.session.received = _
    rw [same]
    exact received.received
  · obtain ⟨index, batch, at_, facts⟩ := received.handed body member
    exact ⟨index, batch, List.getElem?_append_left (List.getElem?_eq_some_iff.mp at_).1 ▸ at_, facts⟩

theorem takes_known {sd : RtmptSessionData} {body : UInt32 × Bytes} (member : body ∈ sd.takes seq request) :
    (body.1, .send body.2) = (seq, request) := by
  unfold RtmptSessionData.takes at member
  split at member
  · split at member
    · rw [List.mem_singleton.mp member]
    · exact absurd member List.not_mem_nil
  · exact absurd member List.not_mem_nil

/-- A new request has numbers at the counter or above. -/
theorem Polling.Accounted.notBelow (accounted : s.Accounted p kept batches)
    (fresh : ∀ earlier ∈ s.entered, earlier.1 ≠ seq) : p ≤ seq.toNat := by
  by_contra below
  obtain ⟨earlier, member, same⟩ := accounted.passed seq (not_le.mp below)
  exact fresh earlier member same

/-- A request that enters: its batch has the numbers from the old counter to the new one. -/
theorem Polling.Accounted.enter (accounted : s.Accounted p kept batches)
    (fresh : ∀ earlier ∈ s.entered, earlier.1 ≠ seq)
    (hands : (if ticket.hands then ticket.bytes else []) = s.tunnel.data.released seq request) :
    ∃ q batch, Polling.Accounted
      { tunnel := { s.tunnel with data := s.tunnel.data.sequenced seq request }
        requests := s.requests ++ [(ticket, .waiting)]
        entered := s.entered ++ [(seq, request)] }
      q (kept ++ s.tunnel.data.takes seq request) (batches ++ [batch]) := by
  have notBelow := accounted.notBelow fresh
  have below : p < 2 ^ 32 := notBelow.trans_lt seq.toNat_lt
  have known : ∀ body ∈ kept ++ s.tunnel.data.takes seq request,
      (body.1, .send body.2) ∈ s.entered ++ [(seq, request)] := by
    intro body member
    rcases List.mem_append.mp member with before | now
    · exact List.mem_append_left _ (accounted.known body before)
    · exact List.mem_append_right _ (List.mem_singleton.mpr (takes_known now))
  have sequence : s.tunnel.data.sequence.toNat = p := by
    rw [accounted.holds.sequence, UInt32.toNat_ofNat_of_lt' below]
  have earlier {q : Nat} (further : p ≤ q) {batch : Batch} (new : batch.Fits (s.entered ++ [(seq, request)]) q) :
      ∀ other ∈ batches ++ [batch], other.Fits (s.entered ++ [(seq, request)]) q := by
    intro other member
    rcases List.mem_append.mp member with before | now
    · exact (accounted.fits other before).grow further _
    · rw [List.mem_singleton.mp now]
      exact new
  have behind {batch : Batch} (above : ∀ body ∈ batch.bodies, p ≤ body.1.toNat) :
      ((batches ++ [batch]).map Batch.bodies).Pairwise fun a b => ∀ x ∈ a, ∀ y ∈ b, x.1 < y.1 := by
    rw [List.map_append]
    refine List.pairwise_append.mpr ⟨accounted.apart, List.pairwise_singleton .., ?_⟩
    intro bodies before last isLast x inOther y inLast
    obtain ⟨other, member, rfl⟩ := List.mem_map.mp before
    rw [List.map_singleton, List.mem_singleton] at isLast
    subst isLast
    have low := (accounted.fits other member).passed x inOther
    have high := above y inLast
    exact UInt32.lt_iff_toNat_lt.mpr (by omega)
  by_cases expected : s.tunnel.data.sequence = seq
  · obtain ⟨q, further, after, stop, taken, released⟩ :=
      accounted.holds.sequenced_expected below (accounted.missing below) expected request
    refine ⟨q, ⟨ticket, .waiting, bodiesFrom (kept ++ s.tunnel.data.takes seq request) p (q - p)⟩, after, stop, known,
      fun other less => ?_, by simp [accounted.requests], earlier further.le
        ⟨?_, rising_bodiesFrom .., ?_, ?_⟩, behind ?_⟩
    · -- a number below the new counter was entered before, is this one, or was stashed
      rcases Nat.lt_trichotomy other.toNat p with low | same | high
      · obtain ⟨before, member, is⟩ := accounted.passed other low
        exact ⟨before, List.mem_append_left _ member, is⟩
      · refine ⟨(seq, request), List.mem_append_right _ (List.mem_singleton_self _), ?_⟩
        exact UInt32.toNat_inj.mp (by rw [← expected, sequence, same])
      · obtain ⟨body, found⟩ := Option.isSome_iff_exists.mp (taken other.toNat high less)
        obtain ⟨entry, is, _⟩ := Option.map_eq_some_iff.mp found
        have number : entry.1.toNat = other.toNat := by simpa using List.find?_some is
        refine ⟨_, known entry (List.mem_of_find?_eq_some is), UInt32.toNat_inj.mp number⟩
    · rw [hands, released, flatMap_bodiesFrom]
    · exact fun body member => known body (mem_bodiesFrom member).1
    · intro body member
      have range := (mem_bodiesFrom member).2
      omega
    · exact fun body member => (mem_bodiesFrom member).2.1
  · obtain ⟨after, released⟩ := accounted.holds.sequenced_ahead notBelow expected request
    have off : p ≠ seq.toNat := fun same => expected (UInt32.toNat_inj.mp (by rw [sequence, same]))
    refine ⟨p, ⟨ticket, .waiting, []⟩, after, fun _ => ?_, known, fun other less => ?_, by simp [accounted.requests],
      earlier le_rfl ⟨?_, .nil, nofun, nofun⟩, behind nofun⟩
    · rw [firstBody_takes off]
      exact accounted.missing below
    · obtain ⟨before, member, is⟩ := accounted.passed other less
      exact ⟨before, List.mem_append_left _ member, is⟩
    · rw [hands, released]
      rfl

theorem Polling.Accounted.batch_at (accounted : s.Accounted p kept batches) {progress : Progress}
    (at_ : s.requests[index]? = some (ticket, progress)) :
    ∃ bodies, batches[index]? = some ⟨ticket, progress, bodies⟩ := by
  rw [accounted.requests, List.getElem?_map] at at_
  obtain ⟨batch, here, same⟩ := Option.map_eq_some_iff.mp at_
  cases same
  exact ⟨batch.bodies, here⟩

theorem Polling.Accounted.serve (accounted : s.Accounted p kept batches) {bodies : List (UInt32 × Bytes)}
    (here : batches[index]? = some ⟨ticket, .waiting, bodies⟩) (data : tunnel.data = s.tunnel.data)
    (progress : Progress) :
    Polling.Accounted ⟨tunnel, s.requests.set index (ticket, progress), s.entered⟩ p kept
      (batches.set index ⟨ticket, progress, bodies⟩) := by
  have same : (batches.set index ⟨ticket, progress, bodies⟩).map Batch.bodies = batches.map Batch.bodies := by
    rw [List.map_set]
    refine List.ext_getElem? fun other => ?_
    rw [List.getElem?_set]
    split
    · rename_i is
      subst is
      have within := (List.getElem?_eq_some_iff.mp here).1
      rw [if_pos (by simpa using within), List.getElem?_map, here]
      rfl
    · rfl
  refine ⟨?_, accounted.missing, accounted.known, accounted.passed, ?_, fun batch member => ?_, ?_⟩
  · show tunnel.data.Holds p _
    rw [data]
    exact accounted.holds
  · rw [List.map_set, ← accounted.requests]
  · rcases List.mem_or_eq_of_mem_set member with before | rfl
    · exact accounted.fits batch before
    · have fits := accounted.fits _ (List.mem_of_getElem? here)
      exact ⟨fits.bytes, fits.rising, fits.known, fits.passed⟩
  · rw [same]
    exact accounted.apart

theorem Polling.Received.serve (received : s.Received batches bodies) {own : List (UInt32 × Bytes)}
    (here : batches[index]? = some ⟨ticket, .waiting, own⟩)
    (same : tunnel.session.received = s.tunnel.session.received) (progress : Progress) :
    Polling.Received ⟨tunnel, s.requests.set index (ticket, progress), s.entered⟩
      (batches.set index ⟨ticket, progress, own⟩) bodies := by
  refine ⟨same.trans received.received, received.rising, received.known, fun body member => ?_⟩
  obtain ⟨other, batch, there, handed, rest⟩ := received.handed body member
  have apart : index ≠ other := by
    rintro rfl
    cases here.symm.trans there
    cases handed
  exact ⟨other, batch, by rw [List.getElem?_set_ne apart, there], handed, rest⟩

/-- A step that hands bytes over when no later request has. -/
theorem Polling.Received.hand (received : s.Received batches bodies) (accounted : s.Accounted p kept batches)
    {own : List (UInt32 × Bytes)} (here : batches[index]? = some ⟨ticket, .waiting, own⟩)
    (hands : ticket.hands = true) (some_ : ticket.bytes ≠ [])
    (first : ∀ later ∈ s.requests.drop (index + 1), later.2 = .done true → later.1.bytes = [])
    (grows : tunnel.session.received = s.tunnel.session.received ++ ticket.bytes) :
    Polling.Received ⟨tunnel, s.requests.set index (ticket, .done true), s.entered⟩
      (batches.set index ⟨ticket, .done true, own⟩) (bodies ++ own) := by
  have fits := accounted.fits _ (List.mem_of_getElem? here)
  have bytes : ticket.bytes = own.flatMap Prod.snd := by
    have all := fits.bytes
    rwa [hands, if_pos rfl] at all
  have within := (List.getElem?_eq_some_iff.mp here).1
  refine ⟨?_, List.pairwise_append.mpr ⟨received.rising, fits.rising, fun x old y new => ?_⟩, fun body member => ?_,
    fun body member => ?_⟩
  · show tunnel.session.received = _
    rw [grows, received.received, bytes, List.flatMap_append]
  · -- what was received before is of requests that took their first step before this one
    obtain ⟨other, batch, there, handed, nonempty, inside⟩ := received.handed x old
    have apart : other ≠ index := by
      rintro rfl
      cases here.symm.trans there
      cases handed
    have before : other < index := by
      by_contra after
      have later : (batch.ticket, batch.progress) ∈ s.requests.drop (index + 1) := by
        rw [accounted.requests]
        refine List.mem_of_getElem? (i := other - (index + 1)) ?_
        rw [List.getElem?_drop, show index + 1 + (other - (index + 1)) = other by omega, List.getElem?_map, there]
        rfl
      exact nonempty (first _ later handed)
    have low := (List.getElem?_eq_some_iff.mp there).1
    have order := List.pairwise_iff_getElem.mp accounted.apart other index (by simpa using low)
      (by simpa using within)
      before
    rw [List.getElem_map, List.getElem_map, (List.getElem?_eq_some_iff.mp there).2,
      (List.getElem?_eq_some_iff.mp here).2] at order
    exact order x inside y new
  · rcases List.mem_append.mp member with before | now
    · exact received.known body before
    · exact fits.known body now
  · rcases List.mem_append.mp member with before | now
    · exact (received.serve here rfl (.done true)).handed body before
    · exact ⟨index, ⟨ticket, .done true, own⟩, by rw [List.getElem?_set_self within], rfl, some_, now⟩

/-- Every step in turn keeps the account of what was received. -/
theorem Polling.Accounted.step (accounted : s.Accounted p kept batches) (received : s.Received batches bodies)
    {move : Move} (inTurn : move.InTurn s) :
    ∃ p kept batches bodies, (s.step move).Accounted p kept batches ∧ (s.step move).Received batches bodies := by
  cases move with
  | postClose =>
    exact ⟨p, kept, batches, bodies,
      ⟨accounted.holds, accounted.missing, accounted.known, accounted.passed, accounted.requests, accounted.fits,
        accounted.apart⟩,
      ⟨received.received, received.rising, received.known, received.handed⟩⟩
  | enter seq request =>
    cases listed : s.tunnel.listed with
    | true =>
      obtain ⟨ticket, sequences, hands⟩ := sequenceRequest_eq seq request listed
      obtain ⟨q, batch, after⟩ := accounted.enter inTurn hands
      simp only [Polling.step, sequences]
      exact ⟨q, _, _, bodies, after, received.enter (by rfl) _ [batch] _⟩
    | false =>
      have nothing : s.tunnel.sequenceRequest seq request = (s.tunnel, none) := by
        cases request <;> simp [sequenceRequest, listed]
      have grown := received.enter rfl s.requests [] [(seq, request)]
      simp only [Polling.step, nothing, Option.map_none, Option.toList_none, List.append_nil] at grown ⊢
      refine ⟨p, kept, batches, bodies, ⟨accounted.holds, accounted.missing, fun body member =>
        ?_, fun other less => ?_,
        accounted.requests, fun batch member => (accounted.fits batch member).grow le_rfl _, accounted.apart⟩, grown⟩
      · exact List.mem_append_left _ (accounted.known body member)
      · obtain ⟨earlier, member, is⟩ := accounted.passed other less
        exact ⟨earlier, List.mem_append_left _ member, is⟩
  | serve index answer =>
    simp only [Polling.step]
    split
    · rename_i ticket at_
      obtain ⟨own, here⟩ := accounted.batch_at at_
      have after := accounted.serve here (@data_serve _ ticket answer)
        (.done (!s.tunnel.session.closeRequested && ticket.hands))
      cases calm : s.tunnel.session.closeRequested with
      | true =>
        rw [calm] at after
        have same : (s.tunnel.serve ticket answer).session.received = s.tunnel.session.received := by
          rw [RtmptTunnel.serve, if_pos calm]
          exact received_removeSession
        exact ⟨p, kept, _, bodies, after, received.serve here same _⟩
      | false =>
        have grows := @received_serve _ ticket answer calm
        rw [calm] at after
        cases hands : ticket.hands with
        | false =>
          rw [hands] at after
          rw [hands, if_neg Bool.false_ne_true, List.append_nil] at grows
          exact ⟨p, kept, _, bodies, after, received.serve here grows _⟩
        | true =>
          rw [hands] at after
          rw [hands, if_pos rfl] at grows
          by_cases empty : ticket.bytes = []
          · rw [empty, List.append_nil] at grows
            exact ⟨p, kept, _, bodies, after, received.serve here grows _⟩
          · have first : ∀ later ∈ s.requests.drop (index + 1), later.2 = .done true → later.1.bytes = [] := by
              rcases inTurn ticket at_ with closing | silent | none | first
              · exact absurd (calm.symm.trans closing) Bool.false_ne_true
              · exact absurd (hands.symm.trans silent) Bool.noConfusion
              · exact absurd none empty
              · exact first
            exact ⟨p, kept, _, _, after, received.hand accounted here hands empty first grows⟩
    · exact ⟨p, kept, batches, bodies, accounted, received⟩

/-- As long as no request hands over bytes after one that came later, the session has received
whole bodies of requests, in rising order of their numbers. -/
theorem bodies_rising {address : Nat} {s : Polling}
    (reach : Transition.Reach Polling.step Move.InTurn { tunnel := { data := { address := address } } } s) :
    ∃ bodies, (∀ body ∈ bodies, (body.1, .send body.2) ∈ s.entered) ∧ Rising bodies ∧
      s.tunnel.session.received = bodies.flatMap Prod.snd := by
  have kept := reach.invariant
    (I := fun s => ∃ p kept batches bodies, s.Accounted p kept batches ∧ s.Received batches bodies)
    ⟨0, [], [], [],
      ⟨⟨rfl, Nat.zero_le _, fun k => by split <;> rfl⟩, fun _ => rfl, nofun, nofun, rfl, nofun, .nil⟩,
      ⟨rfl, .nil, nofun, nofun⟩⟩
    fun inTurn ⟨_, _, _, _, accounted, received⟩ => accounted.step received inTurn
  obtain ⟨_, _, _, bodies, _, received⟩ := kept
  exact ⟨bodies, received.known, received.rising, received.received⟩

/-- Two bodies and an idle request on three threads. -/
def threeThreads : Polling :=
  List.foldl Polling.step { tunnel := { data := { address := 7 } } }
    [.enter 1 (.send [2]), .enter 0 (.send [1]), .enter 2 .idle, .serve 0 {}, .serve 2 {}, .serve 1 {}]

theorem bodies_rising_threeThreads : threeThreads.tunnel.session.received = [1, 2] ∧
    ∃ bodies, (∀ body ∈ bodies, (body.1, .send body.2) ∈ threeThreads.entered) ∧ Rising bodies ∧
      threeThreads.tunnel.session.received = bodies.flatMap Prod.snd := by
  refine ⟨by decide, @bodies_rising 7 _ (Transition.Reach.start.along ⟨nofun, ?_, ?_, ?_, ?_, ?_, trivial⟩)⟩
  · show ∀ earlier ∈ [_], _
    simp
  · show ∀ earlier ∈ [_, _], _
    simp
  · rintro ticket ⟨⟩
    exact .inr (.inl rfl)
  · rintro ticket ⟨⟩
    exact .inr (.inl rfl)
  · rintro ticket ⟨⟩
    exact .inr (.inr (.inr (by decide)))

/-- Two bodies in order, the second of which gets to the session first. -/
def overtaking : Polling :=
  List.foldl Polling.step { tunnel := { data := { address := 7 } } }
    [.enter 0 (.send [1]), .enter 1 (.send [2]), .serve 1 {}, .serve 0 {}]

theorem bodies_overtaken : overtaking.entered = [(0, .send [1]), (1, .send [2])] ∧
    ¬∃ bodies, (∀ body ∈ bodies, (body.1, .send body.2) ∈ overtaking.entered) ∧ Rising bodies ∧
      overtaking.tunnel.session.received = bodies.flatMap Prod.snd := by
  refine ⟨rfl, ?_⟩
  rintro ⟨bodies, known, rising, received⟩
  have twisted : overtaking.tunnel.session.received = [2, 1] := by decide
  rw [twisted] at received
  have one : ∀ body ∈ bodies, body = (0, [1]) ∨ body = (1, [2]) := by
    intro body member
    have entered : (body.1, .send body.2) ∈ [((0 : UInt32), RtmptRequest.send [1]), (1, .send [2])] :=
      known body member
    simpa [Prod.ext_iff] using entered
  -- the first body has to be the second one, and no other may follow it
  rcases bodies with _ | ⟨first, _ | ⟨second, rest⟩⟩
  · cases received
  · rcases one first List.mem_cons_self with rfl | rfl <;> cases received
  · rcases one first List.mem_cons_self with rfl | rfl
    · cases received
    · have above := List.rel_of_pairwise_cons rising List.mem_cons_self
      rcases one second (List.mem_cons_of_mem _ List.mem_cons_self) with rfl | rfl <;> exact absurd above (by decide)

end RtmptTunnel

end Fms
