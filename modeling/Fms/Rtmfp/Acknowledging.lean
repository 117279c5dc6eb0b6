import Fms.Rtmfp.Network

namespace Fms.Rtmfp
open ByteWire
namespace Flow

/-- The loop of `ack_fragments_until`: what it leaves, and the number it returns. -/
def ackUntilFrom (seq tsn : Nat) : List Fragment → List Fragment × Nat
  | [] => ([], tsn)
  | i :: rest =>
    if i.seq ≤ seq then
      if i.inFlight then ackUntilFrom seq i.tsn rest
      else (i :: (ackUntilFrom seq tsn rest).1, (ackUntilFrom seq tsn rest).2)
    else (i :: rest, tsn)

/-- The loop of `ack_fragments_for_range`, from the lower bound of the range on. -/
def ackRangeFrom (last tsn : Nat) : List Fragment → List Fragment × Nat
  | [] => ([], tsn)
  | i :: rest => if i.seq ≤ last then ackRangeFrom last i.tsn rest else (i :: rest, tsn)

/-- The transmission number of the last of some fragments. -/
def lastTsn (tsn : Nat) (l : List Fragment) : Nat := (l.getLast?.map Fragment.tsn).getD tsn

@[simp] theorem lastTsn_nil (tsn : Nat) : lastTsn tsn [] = tsn := rfl

@[simp] theorem lastTsn_cons (tsn : Nat) (g : Fragment) (l : List Fragment) :
    lastTsn tsn (g :: l) = lastTsn g.tsn l := by
  rw [lastTsn, lastTsn, List.getLast?_cons]
  cases l.getLast? <;> rfl

/-- Where the loops stop nothing is left to pick: what comes behind lies higher still. -/
theorem filter_above {p : Fragment → Bool} {bound : Nat} (low : ∀ g, p g = true → g.seq ≤ bound) {i : Fragment}
    {rest : List Fragment} (sorted : (i :: rest).Pairwise (Fragment.seq · < Fragment.seq ·))
    (high : ¬ i.seq ≤ bound) :
    (i :: rest).filter p = [] ∧ (i :: rest).filter (fun g => !p g) = i :: rest := by
  have refused : ∀ g ∈ i :: rest, p g = false := by
    intro g member
    have above : i.seq ≤ g.seq := by
      rcases List.mem_cons.mp member with rfl | later
      · exact Nat.le_refl _
      · exact Nat.le_of_lt ((List.pairwise_cons.mp sorted).1 g later)
    by_contra picked
    have := low g (by simpa using picked)
    omega
  exact ⟨List.filter_eq_nil_iff.mpr fun g member => by simp [refused g member],
    List.filter_eq_self.mpr fun g member => by simp [refused g member]⟩

variable {l : List Fragment}

theorem ackUntilFrom_eq {seq tsn : Nat} (sorted : l.Pairwise (Fragment.seq · < Fragment.seq ·)) :
    ackUntilFrom seq tsn l = (l.filter fun g => !(g.seq ≤ seq && g.inFlight),
      lastTsn tsn (l.filter fun g => g.seq ≤ seq && g.inFlight)) := by
  induction l generalizing tsn with
  | nil => rfl
  | cons i rest ih =>
    rw [ackUntilFrom]
    by_cases reached : i.seq ≤ seq
    · rw [if_pos reached, ih (List.pairwise_cons.mp sorted).2, ih (List.pairwise_cons.mp sorted).2]
      cases flying : i.inFlight with
      | true => simp [reached, flying]
      | false => simp [reached, flying]
    · obtain ⟨picked, kept⟩ := filter_above (p := fun g => g.seq ≤ seq && g.inFlight)
        (fun g pick => of_decide_eq_true (Bool.and_elim_left pick)) sorted reached
      rw [if_neg reached, picked, kept, lastTsn_nil]

theorem ackRangeFrom_eq {last tsn : Nat} (sorted : l.Pairwise (Fragment.seq · < Fragment.seq ·)) :
    ackRangeFrom last tsn l = (l.filter fun g =>
      !decide (g.seq ≤ last), lastTsn tsn (l.filter fun g => g.seq ≤ last)) := by
  induction l generalizing tsn with
  | nil => rfl
  | cons i rest ih =>
    rw [ackRangeFrom]
    by_cases reached : i.seq ≤ last
    · rw [if_pos reached, ih (List.pairwise_cons.mp sorted).2]
      simp [reached]
    · obtain ⟨picked, kept⟩ := filter_above (p := fun g => g.seq ≤ last)
        (fun g pick => of_decide_eq_true pick) sorted reached
      rw [if_neg reached, picked, kept, lastTsn_nil]

/-- `lower_bound` skips the fragments below the range and no other. -/
theorem ackRange_eq {first last tsn : Nat}
    (sorted : l.Pairwise (Fragment.seq · < Fragment.seq ·)) :
    (l.takeWhile (fun g => g.seq < first) ++ (ackRangeFrom last tsn (l.dropWhile fun g => g.seq < first)).1,
        (ackRangeFrom last tsn (l.dropWhile fun g => g.seq < first)).2) =
      (l.filter fun g => !(first ≤ g.seq && g.seq ≤ last), lastTsn tsn
        (l.filter fun g => first ≤ g.seq && g.seq ≤ last)) := by
  induction l with
  | nil => rfl
  | cons i rest ih =>
    obtain ⟨above, later⟩ := List.pairwise_cons.mp sorted
    by_cases below : i.seq < first
    · have skipped : ¬ first ≤ i.seq := by omega
      obtain ⟨kept, number⟩ := Prod.mk.inj (ih later)
      simp [below, skipped, kept, number]
    · have inside : ∀ g ∈ i :: rest, (decide (first ≤ g.seq) && decide (g.seq ≤ last)) = decide (g.seq ≤ last) := by
        intro g member
        have : first ≤ g.seq := by
          rcases List.mem_cons.mp member with rfl | behind
          · omega
          · have := above g behind
            omega
        simp [this]
      rw [List.takeWhile_cons_of_neg (by simpa using below), List.dropWhile_cons_of_neg (by simpa using below),
        ackRangeFrom_eq sorted, List.filter_congr inside, List.nil_append]
      congr 1
      exact (List.filter_congr fun g member => by rw [inside g member]).symm

/-- `ack_fragments_until` is its loop. -/
theorem ackFragmentsUntil_loop (f : Flow) (seq : Nat) :
    ackUntilFrom seq 0 f.fragments.elems =
      ((f.ackFragmentsUntil seq).1.fragments.elems, (f.ackFragmentsUntil seq).2) :=
  ackUntilFrom_eq f.fragments.sorted

/-- `ack_fragments_for_range` is its loop, behind the fragments below the range. -/
theorem ackFragmentsForRange_loop (f : Flow) (first last : Nat) :
    (f.fragments.elems.takeWhile (fun g => g.seq < first) ++
        (ackRangeFrom last 0 (f.fragments.elems.dropWhile fun g => g.seq < first)).1,
        (ackRangeFrom last 0 (f.fragments.elems.dropWhile fun g => g.seq < first)).2) =
      ((f.ackFragmentsForRange first last).1.fragments.elems, (f.ackFragmentsForRange first last).2) :=
  ackRange_eq f.fragments.sorted

section
variable {f : Flow} {acked : Fragment → Bool}

theorem mem_eraseAcked {g : Fragment} : g ∈ (f.eraseAcked acked).1.fragments ↔ g ∈ f.fragments ∧ acked g = false := by
  rw [eraseAcked, SortedBy.mem_filter, Bool.not_eq_true']

/-- The number is the largest transmission number of the fragments picked, or 0 when there is none. -/
def Newest (f : Flow) (acked : Fragment → Bool) (tsn : Nat) : Prop :=
  (∀ g ∈ f.fragments, acked g = true → g.tsn ≤ tsn) ∧
    ((∀ g ∈ f.fragments, acked g = false) ∧ tsn = 0 ∨ ∃ g ∈ f.fragments, acked g = true ∧ g.tsn = tsn)

/-- Of the fragments picked, none was sent after the one with the highest sequence number. -/
def HighestIsNewest (f : Flow) (acked : Fragment → Bool) : Prop :=
  ∀ g ∈ f.fragments, acked g = true → ∀ last ∈ f.fragments, acked last = true →
    (∀ h ∈ f.fragments, acked h = true → h.seq ≤ last.seq) → g.tsn ≤ last.tsn

/-- The number returned is that of the highest fragment picked. -/
theorem eraseAcked_tsn (f : Flow) (acked : Fragment → Bool) :
    (∀ g ∈ f.fragments, acked g = false) ∧ (f.eraseAcked acked).2 = 0 ∨
      ∃ last ∈ f.fragments, acked last = true ∧ (∀ h ∈ f.fragments, acked h = true → h.seq ≤ last.seq) ∧
        (f.eraseAcked acked).2 = last.tsn := by
  have sorted := f.fragments.sorted.sublist (List.filter_sublist (p := acked))
  have picked {g : Fragment} : g ∈ f.fragments.elems.filter acked ↔ g ∈ f.fragments ∧ acked g = true :=
    List.mem_filter
  rw [eraseAcked]
  dsimp only
  cases shape : (f.fragments.elems.filter acked).getLast? with
  | none =>
    refine .inl ⟨fun g member => ?_, rfl⟩
    rw [List.getLast?_eq_none_iff] at shape
    by_contra pick
    have := picked.mpr ⟨member, by simpa using pick⟩
    rw [shape] at this
    cases this
  | some last =>
    obtain ⟨front, split⟩ := List.getLast?_eq_some_iff.mp shape
    rw [split] at sorted picked
    obtain ⟨member, pick⟩ := picked.mp (List.mem_append_right front (List.mem_singleton_self last))
    refine .inr ⟨last, member, pick, fun h inside taken => ?_, rfl⟩
    rcases List.mem_append.mp (picked.mpr ⟨inside, taken⟩) with before | same
    · exact Nat.le_of_lt ((List.pairwise_append.mp sorted).2.2 h before last (List.mem_singleton_self last))
    · rw [List.mem_singleton.mp same]

theorem newest_iff : f.Newest acked (f.eraseAcked acked).2 ↔ f.HighestIsNewest acked := by
  rcases eraseAcked_tsn f acked with ⟨none, zero⟩ | ⟨top, member, pick, highest, number⟩
  · constructor
    · intro _ g inside taken
      rw [none g inside] at taken
      cases taken
    · intro _
      refine ⟨fun g inside taken => ?_, .inl ⟨none, zero⟩⟩
      rw [none g inside] at taken
      cases taken
  · constructor
    · intro newest g inside taken last lastIn lastTaken lastHighest
      have level : last.seq = top.seq :=
        Nat.le_antisymm (highest last lastIn lastTaken) (lastHighest top member pick)
      rw [SortedBy.eq_of_key lastIn member level, ← number]
      exact newest.1 g inside taken
    · intro newest
      rw [number]
      exact ⟨fun g inside taken => newest g inside taken top member pick highest, .inr ⟨top, member, pick, rfl⟩⟩

theorem highestIsNewest_eraseAcked {erased : Fragment → Bool} :
    (f.eraseAcked erased).1.HighestIsNewest acked ↔ f.HighestIsNewest fun g => acked g && !erased g := by
  simp only [HighestIsNewest, mem_eraseAcked, Bool.and_eq_true, Bool.not_eq_true']
  constructor
  · intro newest g inside taken last lastIn lastTaken highest
    exact newest g ⟨inside, taken.2⟩ taken.1 last ⟨lastIn, lastTaken.2⟩ lastTaken.1
      fun h left picked => highest h left.1 ⟨picked, left.2⟩
  · intro newest g left picked last lastLeft lastPicked highest
    exact newest g left.1 ⟨picked, left.2⟩ last lastLeft.1 ⟨lastPicked, lastLeft.2⟩
      fun h inside taken => highest h ⟨inside, taken.2⟩ taken.1

end

/-- The fragments `ack_fragments_until` picks. -/
def pickedUntil (seq : Nat) (g : Fragment) : Bool := g.seq ≤ seq && g.inFlight

/-- The fragments `ack_fragments_for_range` picks. -/
def pickedInRange (first last : Nat) (g : Fragment) : Bool := first ≤ g.seq && g.seq ≤ last

/-- What the calls that `handle_range_ack` makes pick, in turn. -/
def picks (ack : RangeAck) : List (Fragment → Bool) :=
  pickedUntil ack.cumulativeAck ::
    (absoluteRanges ack.cumulativeAck ack.ranges).map fun range => pickedInRange range.1 range.2

/-- The calls with the highest number they return. -/
def eraseEach (f : Flow) (maxTsn : Nat) : List (Fragment → Bool) → Flow × Nat
  | [] => (f, maxTsn)
  | acked :: rest => (f.eraseAcked acked).1.eraseEach (max maxTsn (f.eraseAcked acked).2) rest

theorem handleRangeAck_eq (f : Flow) (maxTsnAck : Nat) (ack : RangeAck) :
    f.handleRangeAck maxTsnAck ack =
      ((f.eraseEach maxTsnAck (picks ack)).1.updateNakCount (f.eraseEach maxTsnAck (picks ack)).2,
        (f.eraseEach maxTsnAck (picks ack)).2) := by
  have ranges (f : Flow) (m : Nat) (l : List (Nat × Nat)) :
      l.foldl (fun p range =>
        ((p.1.ackFragmentsForRange range.1 range.2).1, max p.2 (p.1.ackFragmentsForRange range.1 range.2).2))
        (f, m) = f.eraseEach m (l.map fun range => pickedInRange range.1 range.2) := by
    induction l generalizing f m with
    | nil => rfl
    | cons range l ih => exact ih _ _
  exact congrArg (fun p : Flow × Nat => (p.1.updateNakCount p.2, p.2)) (ranges _ _ _)

theorem le_eraseEach (f : Flow) (maxTsn : Nat) (calls : List (Fragment → Bool)) :
    maxTsn ≤ (f.eraseEach maxTsn calls).2 := by
  induction calls generalizing f maxTsn with
  | nil => exact Nat.le_refl _
  | cons acked rest ih => exact (Nat.le_max_left _ _).trans (ih _ _)

/-- At each call the highest of the fragments it still finds was sent last. -/
def NewestInTurn (f : Flow) (calls : List (Fragment → Bool)) : Prop :=
  ∀ earlier acked later, calls = earlier ++ acked :: later →
    f.HighestIsNewest fun g => acked g && earlier.all fun before => !before g

theorem NewestInTurn.tail {f : Flow} {acked : Fragment → Bool} {rest : List (Fragment → Bool)}
    (newest : f.NewestInTurn (acked :: rest)) : (f.eraseAcked acked).1.NewestInTurn rest := by
  intro earlier call later split
  rw [highestIsNewest_eraseAcked]
  have turn := newest (acked :: earlier) call later (by rw [split, List.cons_append])
  have same : (fun g => call g && (acked :: earlier).all fun before => !before g) =
      fun g => (call g && earlier.all fun before => !before g) && !acked g := by
    funext g
    rw [List.all_cons, Bool.and_assoc, Bool.and_comm (!acked g)]
  rwa [same] at turn

theorem NewestInTurn.acknowledged_le {f : Flow} {maxTsn : Nat} {calls : List (Fragment → Bool)}
    (newest : f.NewestInTurn calls) {g : Fragment} (member : g ∈ f.fragments)
    (erased : g ∉ (f.eraseEach maxTsn calls).1.fragments) : g.tsn ≤ (f.eraseEach maxTsn calls).2 := by
  induction calls generalizing f maxTsn with
  | nil => exact absurd member erased
  | cons acked rest ih =>
    cases picked : acked g with
    | true =>
      have first := newest [] acked rest rfl
      simp only [List.all_nil, Bool.and_true] at first
      have returned := (newest_iff.mpr first).1 g member picked
      exact (returned.trans (Nat.le_max_right _ _)).trans (le_eraseEach _ _ rest)
    | false => exact ih newest.tail (mem_eraseAcked.mpr ⟨member, picked⟩) erased

end Flow

/-- A sending flow with the window its receiver last advertised. -/
structure SendingFlow where
  id : Nat
  flow : Flow
  prevRwnd : Nat := 0xffff

def Flow.inFlightCount (f : Flow) : Nat := f.fragments.elems.countP Fragment.inFlight

/-- The loop of `has_data_to_send` over the sending flows: the first one with a fragment to send
sends it, and those whose window is used up are passed over. -/
def sendFirst (tsn : Nat) : List SendingFlow → Option UserData × List SendingFlow
  | [] => (none, [])
  | s :: rest =>
    if s.flow.inFlightCount ≥ s.prevRwnd then ((sendFirst tsn rest).1, s :: (sendFirst tsn rest).2)
    else
      match s.flow.sendFragment tsn with
      | (some chunk, flow) => (some chunk, { s with flow } :: rest)
      | (none, flow) => ((sendFirst tsn rest).1, { s with flow } :: (sendFirst tsn rest).2)

theorem sendFirst_id (tsn : Nat) (l : List SendingFlow) :
    (sendFirst tsn l).2.map SendingFlow.id = l.map SendingFlow.id := by
  induction l with
  | nil => rfl
  | cons s rest ih =>
    rw [sendFirst]
    split
    · simp [ih]
    · split
      · rfl
      · simp [ih]

/-- The part of a session that sends. `acknowledged` lists the transmission numbers of the fragments
that acknowledgements removed. -/
structure SendSession where
  flows : SortedBy SendingFlow.id := {}
  nextFlowId : Nat := 2
  nextTsn : Nat := 1
  maxTsnAck : Nat := 0
  acknowledged : List Nat := []

inductive SendAction
  | createFlow (usage : Usage)
  | queue (id : Nat) (data : Bytes)
  | send
  | rangeAck (id blocksAvailable : Nat) (ack : RangeAck)
  | timeout
  | purge (id : Nat)

/-- The transmission numbers of the fragments that are gone. -/
def acknowledgedBy (before after : Flow) : List Nat :=
  (before.fragments.elems.filter fun g => after.fragments.elems.all fun h => h.seq ≠ g.seq).map Fragment.tsn

namespace SendSession

def change (s : SendSession) (id : Nat) (f : SendingFlow → SendingFlow) (same : ∀ e, (f e).id = e.id) : SendSession :=
  { s with
    flows := s.flows.update (fun e => if e.id = id then f e else e) fun e => by
      split
      · exact same e
      · rfl }

def step (s : SendSession) : SendAction → SendSession
  | .createFlow usage =>
    { s with
      flows := s.flows.assign { id := s.nextFlowId, flow := { role := .sender, usage } }
      nextFlowId := (s.nextFlowId + 1) % 2 ^ 32 }
  | .queue id data => s.change id (fun e => { e with flow := e.flow.addAndFragmentData data }) fun _ => rfl
  | .send =>
    let sent := sendFirst s.nextTsn s.flows.elems
    { s with
      flows := s.flows.relabel sent.2 (sendFirst_id _ _)
      nextTsn := if sent.1.isSome then s.nextTsn + 1 else s.nextTsn }
  | .rangeAck id blocksAvailable ack =>
    match s.flows.elems.find? fun e => e.id = id with
    | none => s
    | some e =>
      let (flow, maxTsnAck) := e.flow.handleRangeAck s.maxTsnAck ack
      { s.change id (fun e => { e with flow, prevRwnd := blocksAvailable % 2 ^ 16 }) fun _ => rfl with
        maxTsnAck
        acknowledged := s.acknowledged ++ acknowledgedBy e.flow flow }
  | .timeout =>
    { s with flows := s.flows.update (fun e => { e with flow := e.flow.onTimeoutAlarm }) fun _ => rfl }
  | .purge id => { s with flows := s.flows.filter fun e => e.id ≠ id }

/-- An acknowledgement finds its flow such that at each of its calls the highest fragment picked was
sent last. -/
def NewestAcks (s : SendSession) : SendAction → Prop
  | .rangeAck id _ ack => ∀ e ∈ s.flows, e.id = id → e.flow.NewestInTurn (Flow.picks ack)
  | _ => True

theorem updateNakCount_seq (f : Flow) (maxTsn : Nat) :
    (f.updateNakCount maxTsn).fragments.elems.map Fragment.seq = f.fragments.elems.map Fragment.seq := by
  rw [Flow.updateNakCount, SortedBy.update, SortedBy.relabel, List.map_map]
  refine List.map_congr_left fun g _ => ?_
  rw [Function.comp_apply]
  split <;> rfl

theorem mem_acknowledgedBy {f : Flow} {maxTsnAck tsn : Nat} {ack : RangeAck}
    (gone : tsn ∈ acknowledgedBy f (f.handleRangeAck maxTsnAck ack).1) :
    ∃ g ∈ f.fragments, g.tsn = tsn ∧ g ∉ (f.eraseEach maxTsnAck (Flow.picks ack)).1.fragments := by
  obtain ⟨g, picked, rfl⟩ := List.mem_map.mp gone
  obtain ⟨member, absent⟩ := List.mem_filter.mp picked
  refine ⟨g, member, rfl, fun left => ?_⟩
  have numbered := List.mem_map_of_mem (f := Fragment.seq) left
  rw [← updateNakCount_seq _ (f.eraseEach maxTsnAck (Flow.picks ack)).2] at numbered
  obtain ⟨h, kept, same⟩ := List.mem_map.mp numbered
  rw [Flow.handleRangeAck_eq] at absent
  have differs := List.all_eq_true.mp absent h kept
  exact of_decide_eq_true differs same

theorem step_acknowledged {s : SendSession} {action : SendAction} (allowed : s.NewestAcks action)
    (covered : ∀ tsn ∈ s.acknowledged, tsn ≤ s.maxTsnAck) :
    ∀ tsn ∈ (s.step action).acknowledged, tsn ≤ (s.step action).maxTsnAck := by
  cases action with
  | rangeAck id blocksAvailable ack =>
    intro tsn member
    rw [step] at member ⊢
    split at member
    · exact covered tsn member
    · rename_i e found
      have inside := List.mem_of_find?_eq_some found
      have named : e.id = id := by simpa using List.find?_some found
      have grows : s.maxTsnAck ≤ (e.flow.handleRangeAck s.maxTsnAck ack).2 := by
        rw [Flow.handleRangeAck_eq]
        exact Flow.le_eraseEach _ _ _
      rcases List.mem_append.mp member with before | now
      · exact (covered tsn before).trans grows
      · obtain ⟨g, present, rfl, erased⟩ := mem_acknowledgedBy now
        have newest := (allowed e inside named).acknowledged_le present erased
        rw [Flow.handleRangeAck_eq]
        exact newest
  | _ => exact covered

end SendSession

/-- Acknowledgements remove exactly the fragments they speak of, and leave the others as they are.
They return the newest transmission number exactly when the highest fragment removed was sent last, and
the session's number covers all that was acknowledged as long as that is so. -/
theorem acks_exact_and_newest_iff (f : Flow) (seq first last : Nat) (s : SendSession) :
    ((∀ g, g ∈ (f.ackFragmentsUntil seq).1.fragments ↔ g ∈ f.fragments ∧ ¬ (g.inFlight = true ∧ g.seq ≤ seq)) ∧
      (f.Newest (Flow.pickedUntil seq) (f.ackFragmentsUntil seq).2 ↔ f.HighestIsNewest (Flow.pickedUntil seq))) ∧
    ((∀ g, g ∈ (f.ackFragmentsForRange first last).1.fragments ↔ g ∈ f.fragments ∧ ¬ (first ≤ g.seq ∧ g.seq ≤ last)) ∧
      (f.Newest (Flow.pickedInRange first last) (f.ackFragmentsForRange first last).2 ↔
        f.HighestIsNewest (Flow.pickedInRange first last))) ∧
    (Transition.Reach SendSession.step SendSession.NewestAcks {} s → ∀ tsn ∈ s.acknowledged, tsn ≤ s.maxTsnAck) := by
  refine ⟨⟨fun g => ?_, Flow.newest_iff⟩, ⟨fun g => ?_, Flow.newest_iff⟩, ?_⟩
  · rw [Flow.ackFragmentsUntil, Flow.mem_eraseAcked, Bool.and_eq_false_iff]
    simp only [decide_eq_false_iff_not]
    cases g.inFlight <;> simp
  · rw [Flow.ackFragmentsForRange, Flow.mem_eraseAcked, Bool.and_eq_false_iff, decide_eq_false_iff_not,
      decide_eq_false_iff_not, not_and_or]
  · intro reach
    refine reach.invariant (fun tsn member => ?_) SendSession.step_acknowledged
    cases member

/-- Three messages go out, time out, and the first two go out again. -/
def resent : SendSession :=
  [.createFlow .data, .queue 2 [1], .queue 2 [2], .queue 2 [3], .send, .send, .send, .timeout, .send, .send].foldl
    SendSession.step {}

/-- The first and the third are acknowledged, each by a call of its own. -/
theorem acks_exact_and_newest_resent :
    (resent.step (.rangeAck 2 127 ⟨1, [(0, 0)]⟩)).acknowledged = [4, 3] ∧
      ∀ tsn ∈ (resent.step (.rangeAck 2 127 ⟨1, [(0, 0)]⟩)).acknowledged, tsn ≤ 4 := by
  have reach : Transition.Reach SendSession.step SendSession.NewestAcks {} resent :=
    Transition.Reach.start.along
      ⟨trivial, trivial, trivial, trivial, trivial, trivial, trivial, trivial, trivial, trivial, trivial⟩
  have newest : ∀ e ∈ resent.flows.elems, ∀ call ∈ [Flow.pickedUntil 1, Flow.pickedInRange 3 3],
      ∀ g ∈ e.flow.fragments.elems, call g = true → ∀ last ∈ e.flow.fragments.elems, call last = true →
        g.tsn ≤ last.tsn := by decide
  refine ⟨by decide, (acks_exact_and_newest_iff { role := .sender } 0 0 0 _).2.2 (reach.next _ ?_)⟩
  intro e member _ earlier call later split g inside picked last lastInside lastPicked _
  have among : call ∈ Flow.picks ⟨1, [(0, 0)]⟩ := by
    rw [split]
    simp
  exact newest e member call among g inside (Bool.and_eq_true_iff.mp picked).1 last lastInside
    (Bool.and_eq_true_iff.mp lastPicked).1

/-- The second and the third are acknowledged together: the second was sent after the third, and its
number is lost. -/
theorem newest_transmission_missed :
    (resent.step (.rangeAck 2 127 ⟨0, [(0, 1)]⟩)).acknowledged = [5, 3] ∧
      (resent.step (.rangeAck 2 127 ⟨0, [(0, 1)]⟩)).maxTsnAck = 3 ∧
      ∃ e ∈ resent.flows.elems, (e.flow.ackFragmentsForRange 2 3).2 = 3 ∧
        ∃ g ∈ e.flow.fragments.elems, 2 ≤ g.seq ∧ g.seq ≤ 3 ∧ g.tsn = 5 :=
  ⟨rfl, rfl, _, List.mem_singleton_self _, rfl, _, .tail _ (.head _), by decide, by decide, rfl⟩

end Fms.Rtmfp
