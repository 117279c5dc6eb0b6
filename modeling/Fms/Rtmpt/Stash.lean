import Fms.Rtmpt.Completing

namespace Fms
open ByteWire Transition

namespace RtmptSessionData
variable {sd last : RtmptSessionData} {bodies : List Bytes} {seq : UInt32} {request : RtmptRequest}

/-- All stashed numbers are still to come. -/
def Future (sd : RtmptSessionData) : Prop := ∀ k ∈ sd.outOfOrderData, sd.sequence < k

/-- None has been passed. -/
def Ahead (sd : RtmptSessionData) : Prop := ∀ k ∈ sd.outOfOrderData, sd.sequence ≤ k

/-- The counter does not wrap around while a number is stashed. -/
theorem Future.advance (future : sd.Future) : Ahead { sd with sequence := sd.sequence + 1 } := by
  intro k member
  have above := UInt32.lt_iff_toNat_lt.mp (future k member)
  have below := k.toNat_lt
  have next : (sd.sequence + 1).toNat = sd.sequence.toNat + 1 := by
    rw [UInt32.toNat_add]
    exact Nat.mod_eq_of_lt (by show sd.sequence.toNat + 1 < _; omega)
  show sd.sequence + 1 ≤ k
  rw [UInt32.le_iff_toNat_le, next]
  exact above

theorem Drains.future (run : Drains sd bodies last) (ahead : sd.Ahead) : last.Future := by
  induction run with
  | done missing =>
    intro k member
    refine UInt32.lt_of_le_of_ne (ahead k member) fun same => ?_
    rw [AList.lookup_eq_none, same] at missing
    exact missing member
  | @next sd _ body _ _ _ ih =>
    have rest : Future { sd with outOfOrderData := sd.outOfOrderData.erase sd.sequence } := by
      intro k member
      obtain ⟨apart, inside⟩ := AList.mem_erase.mp member
      exact UInt32.lt_of_le_of_ne (ahead k inside) fun same => apart same.symm
    exact ih rest.advance

/-- Draining takes out of the stash. -/
theorem Drains.shrinks (run : Drains sd bodies last) :
    last.outOfOrderData.size ≤ sd.outOfOrderData.size ∧ last.oooBytes ≤ sd.oooBytes := by
  induction run with
  | done => exact ⟨le_rfl, le_rfl⟩
  | @next sd _ body _ found _ ih =>
    have present : sd.sequence ∈ sd.outOfOrderData := by
      rw [← AList.lookup_isSome, found]
      rfl
    have dropped := Dict.size_erase_mem present
    exact ⟨ih.1.trans (by show Dict.size (sd.outOfOrderData.erase sd.sequence) ≤ _; omega),
      ih.2.trans (Nat.sub_le _ _)⟩

theorem Future.sequenced (future : sd.Future)
    (due : ∀ body, request = .send body → sd.Stashes seq body → sd.sequence ≤ seq) :
    (sd.sequenced seq request).Future := by
  rcases sequenced_cases sd seq request with ⟨bodies, run⟩ | same | ⟨body, sent, early, room, same⟩
  · exact run.future future.advance
  · rwa [same]
  · rw [same]
    intro k member
    rcases (AList.mem_insert _).mp member with rfl | old
    · exact UInt32.lt_of_le_of_ne (due body sent room) early
    · exact future k old

/-- A body that was stashed behind the counter would be there. -/
theorem due_of_future {body : Bytes} (future : (sd.sequenced seq (.send body)).Future)
    (room : sd.Stashes seq body) : sd.sequence ≤ seq := by
  by_contra late
  have off : sd.sequence ≠ seq := fun same => late (same ▸ UInt32.le_refl _)
  rw [sequenced, if_neg off, stash, if_pos room] at future
  have above : sd.sequence < seq := future seq ((AList.mem_insert _).mpr (.inl rfl))
  exact late (UInt32.le_of_lt above)

/-- What is stashed is counted and within the limits. -/
structure Bounded (sd : RtmptSessionData) : Prop where
  few : sd.outOfOrderData.size ≤ eMaxOutOfOrder
  weighed : sd.Weighed
  light : sd.oooBytes ≤ eMaxOutOfOrderBytes

theorem Bounded.sequenced (bounded : sd.Bounded) (seq : UInt32) (request : RtmptRequest) :
    (sd.sequenced seq request).Bounded := by
  have weighed := bounded.weighed.sequenced seq request
  rcases sequenced_cases sd seq request with ⟨bodies, run⟩ | same | ⟨body, _, _, room, same⟩
  · exact ⟨run.shrinks.1.trans bounded.few, weighed, run.shrinks.2.trans bounded.light⟩
  · rwa [same]
  · rw [same] at weighed ⊢
    exact ⟨Dict.size_insert_le.trans room.1, weighed, room.2.1⟩

end RtmptSessionData

namespace RtmptTunnel
open RtmptSessionData

/-- A tunnel, the requests it has validated and not handled yet, and those it has handled and not served. -/
structure Requests where
  tunnel : RtmptTunnel
  validated : List (UInt32 × RtmptRequest) := []
  tickets : List RtmptTicket := []

/-- A request takes each lock in turn, and others come between. -/
inductive Requests.Move
  | validate (remote : Nat) (seq : UInt32) (request : RtmptRequest)
  | handle (index : Nat)
  | serve (index : Nat) (answer : RtmptAnswer)

namespace Requests

def step (s : Requests) : Move → Requests
  | .validate remote seq request =>
    let (accepted, tunnel) := s.tunnel.validate remote seq
    { s with tunnel := tunnel, validated := if accepted then s.validated ++ [(seq, request)] else s.validated }
  | .handle index => match s.validated[index]? with
    | none => s
    | some (seq, request) =>
      let (tunnel, ticket) := s.tunnel.sequenceRequest seq request
      { tunnel := tunnel, validated := s.validated.eraseIdx index, tickets := s.tickets ++ ticket.toList }
  | .serve index answer => match s.tickets[index]? with
    | none => s
    | some ticket => { s with tunnel := s.tunnel.serve ticket answer, tickets := s.tickets.eraseIdx index }

/-- No body is stashed after the counter has passed its number. -/
def Due (s : Requests) : Move → Prop
  | .handle index => ∀ seq body, s.validated[index]? = some (seq, .send body) → s.tunnel.listed = true →
      s.tunnel.data.Stashes seq body → s.tunnel.data.sequence ≤ seq
  | _ => True

variable {s : Requests} {move : Move} {moves : List Move}

theorem data_handle {index : Nat} {seq : UInt32} {request : RtmptRequest}
    (found : s.validated[index]? = some (seq, request)) (listed : s.tunnel.listed = true) :
    (s.step (.handle index)).tunnel.data = s.tunnel.data.sequenced seq request := by
  obtain ⟨ticket, sequences, _⟩ := sequenceRequest_eq seq request listed
  simp only [step, found, sequences]

theorem data_step (s : Requests) (move : Move) :
    (s.step move).tunnel.data = s.tunnel.data ∨ ∃ index seq request, move = .handle index ∧
      s.validated[index]? = some (seq, request) ∧ s.tunnel.listed = true := by
  cases move with
  | validate remote seq request => exact .inl (validate_eq s.tunnel remote seq).1
  | handle index =>
    cases found : s.validated[index]? with
    | none =>
      rw [step, found]
      exact .inl rfl
    | some pending =>
      obtain ⟨seq, request⟩ := pending
      by_cases listed : s.tunnel.listed = true
      · exact .inr ⟨index, seq, request, rfl, found, listed⟩
      · refine .inl ?_
        rw [step, found]
        cases request <;> simp [sequenceRequest, listed]
  | serve index answer =>
    refine .inl ?_
    cases found : s.tickets[index]? with
    | none => simp only [step, found]
    | some ticket =>
      simp only [step, found]
      exact data_serve

theorem bounded_run (bounded : s.tunnel.data.Bounded) (moves : List Move) :
    (moves.foldl step s).tunnel.data.Bounded := by
  induction moves generalizing s with
  | nil => exact bounded
  | cons move moves ih =>
    refine ih ?_
    rcases data_step s move with same | ⟨_, seq, request, rfl, found, listed⟩
    · rwa [same]
    · rw [data_handle found listed]
      exact bounded.sequenced seq request

theorem future_step (future : s.tunnel.data.Future) : (s.step move).tunnel.data.Future ↔ s.Due move := by
  constructor
  · intro after
    cases move with
    | handle index =>
      intro seq body found listed room
      rw [data_handle found listed] at after
      exact due_of_future after room
    | _ => trivial
  · intro due
    rcases data_step s move with same | ⟨_, seq, request, rfl, found, listed⟩
    · rwa [same]
    · rw [data_handle found listed]
      exact future.sequenced fun body sent room => due seq body (sent ▸ found) listed room

theorem future_run (future : s.tunnel.data.Future) :
    (∀ earlier, earlier <+: moves → (earlier.foldl step s).tunnel.data.Future) ↔ Along step Due s moves := by
  induction moves generalizing s with
  | nil => exact iff_of_true (fun earlier head => List.prefix_nil.mp head ▸ future) trivial
  | cons move moves ih =>
    constructor
    · intro all
      have next : (s.step move).tunnel.data.Future := all [move] ⟨moves, rfl⟩
      exact ⟨(future_step future).mp next,
        (ih next).mp fun earlier head => all (move :: earlier) (List.cons_prefix_cons.mpr ⟨rfl, head⟩)⟩
    · rintro ⟨due, rest⟩ earlier head
      cases earlier with
      | nil => exact future
      | cons first earlier =>
        obtain ⟨rfl, behind⟩ := List.cons_prefix_cons.mp head
        exact (ih ((future_step future).mpr due)).mpr rest earlier behind

/-- In every interleaving the stash is counted and within its limits. What is stashed is still to come at
all times exactly if no body is stashed after the counter has passed its number. -/
theorem stash_future (address : Nat) (moves : List Move) :
    let start : Requests := { tunnel := { data := { address } } }
    let data := (moves.foldl step start).tunnel.data
    data.outOfOrderData.size ≤ eMaxOutOfOrder ∧ data.oooBytes ≤ eMaxOutOfOrderBytes ∧
      data.oooBytes = (data.outOfOrderData.entries.map fun entry => entry.2.length).sum ∧
      ((∀ earlier, earlier <+: moves → ∀ k ∈ (earlier.foldl step start).tunnel.data.outOfOrderData,
        (earlier.foldl step start).tunnel.data.sequence < k) ↔ Along step Due start moves) := by
  intro start data
  have bounded : data.Bounded := bounded_run (s := start) ⟨Nat.zero_le _, rfl, Nat.zero_le _⟩ moves
  exact ⟨bounded.few, bounded.light, bounded.weighed, future_run fun k none => absurd none (AList.notMem_empty k)⟩

/-- Two requests with the same number are validated before the first is handled: the second one's body is
stashed behind the counter. -/
theorem stash_keeps_passed :
    let s := ([.validate 7 0 (.send [1]), .validate 7 0 (.send [2]), .handle 0, .handle 0] : List Move).foldl step
      { tunnel := { data := { address := 7 } } }
    s.tunnel.data.sequence = 1 ∧ s.tunnel.data.outOfOrderData.lookup 0 = some [2] := by
  decide

end Requests
end RtmptTunnel
end Fms
