import Fms.Rtmfp.Sending

namespace Fms.Rtmfp
open ByteWire Segments SeqManager Transition

variable {l : List Fragment} {last : Fragment} {f : Flow}

namespace Flow

theorem abandonFrom_last {target : Nat} (few : target ≤ l.length) :
    ∃ front, abandonFrom target 0 (l ++ [last]) = front ++ [last] := by
  refine ⟨(l.take target).map (fun f => { f with abandoned := true }) ++ l.drop target, ?_⟩
  rw [abandonFrom_eq, Nat.sub_zero, List.take_append_of_le_length few, List.drop_append_of_le_length few,
    List.append_assoc]

theorem dropAbandoned_last (size : Nat) (plain : last.abandoned = false) :
    ∃ front, dropAbandoned size (l ++ [last]) = front ++ [last] ∧ front.Sublist l := by
  induction l generalizing size with
  | nil => exact ⟨[], dropAbandoned_plain _ (by simpa using plain), .slnil⟩
  | cons f l ih =>
    rw [List.cons_append, dropAbandoned]
    split
    · split
      · obtain ⟨front, rest, sub⟩ := ih (size - 1)
        exact ⟨front, rest, sub.cons f⟩
      · obtain ⟨front, rest, sub⟩ := ih size
        exact ⟨f :: front, congrArg (List.cons f) rest, sub.cons_cons f⟩
    · exact ⟨f :: l, rfl, .refl _⟩

/-- A fragment at the end that is neither in flight nor abandoned is what is sent next, or
something before it that is not in flight. -/
theorem getFragmentForSending_last (elems : f.fragments.elems = l ++ [last]) (plain : last.abandoned = false)
    (idle : last.inFlight = false) :
    ∃ front frag fsn, f.getFragmentForSending.1 = some (frag, fsn) ∧
      f.getFragmentForSending.2.fragments.elems = front ++ [last] ∧ front.Sublist l ∧
      (frag = last ∨ frag ∈ front ∧ frag.inFlight = false) := by
  obtain ⟨front, left, sub⟩ := dropAbandoned_last f.fragments.size (l := l) plain
  rw [← elems] at left
  have kept := f.getFragmentForSending_elems.trans left
  cases front with
  | nil =>
    refine ⟨[], last, forwardSn last, ?_, kept, sub, .inl rfl⟩
    unfold getFragmentForSending
    simp only [left, List.nil_append, idle, Bool.not_false, if_true]
  | cons oldest front =>
    by_cases waiting : oldest.inFlight = false
    · refine ⟨oldest :: front, oldest, forwardSn oldest, ?_, kept, sub, .inr ⟨List.mem_cons_self .., waiting⟩⟩
      unfold getFragmentForSending
      simp only [left, List.cons_append, waiting, Bool.not_false, if_true]
    · have some : ((front ++ [last]).find? fun g => !g.inFlight && !g.abandoned).isSome = true := by
        rw [List.find?_isSome]
        exact ⟨last, by simp, by simp [plain, idle]⟩
      obtain ⟨frag, found⟩ := Option.isSome_iff_exists.mp some
      refine ⟨oldest :: front, frag, forwardSn oldest, ?_, kept, sub, ?_⟩
      · unfold getFragmentForSending
        simp only [left, List.cons_append, waiting, Bool.not_true, Bool.false_eq_true, if_false, found,
          Option.map_some]
      · have due := List.find?_some found
        rw [Bool.and_eq_true, Bool.not_eq_true'] at due
        rcases List.mem_append.mp (List.mem_of_find?_eq_some found) with before | final
        · exact .inr ⟨List.mem_cons_of_mem _ before, due.1⟩
        · exact .inl (List.mem_singleton.mp final)

/-- Send as often as there are transmission numbers. -/
def sendAll (f : Flow) (tsns : List Nat) : Flow := tsns.foldl (fun f tsn => (f.sendFragment tsn).2) f

theorem countP_lt {α : Type} {p q : α → Bool} (weaker : ∀ a, q a = true → p a = true) {l : List α} {a : α}
    (member : a ∈ l) (was : p a = true) (now : q a = false) : l.countP q < l.countP p := by
  obtain ⟨before, after, rfl⟩ := List.append_of_mem member
  have left := List.countP_mono_left (l := before) fun b _ => weaker b
  have right := List.countP_mono_left (l := after) fun b _ => weaker b
  rw [List.countP_append, List.countP_append, List.countP_cons_of_pos was, List.countP_cons_of_neg (by simp [now])]
  omega

/-- Once what waits before it has been sent, the fragment at the end is returned. -/
theorem sent_in_turn (elems : f.fragments.elems = l ++ [last]) (plain : last.abandoned = false)
    (idle : last.inFlight = false) :
    ∃ tsns fsn, (f.sendAll tsns).getFragmentForSending.1 = some (last, fsn) := by
  generalize waiting : l.countP (fun g => !g.inFlight) = n
  induction n using Nat.strong_induction_on generalizing f l with
  | _ n ih =>
    obtain ⟨front, frag, fsn, chosen, left, sub, which⟩ := getFragmentForSending_last elems plain idle
    rcases which with rfl | ⟨inside, due⟩
    · exact ⟨[], fsn, chosen⟩
    · have sorted := f.getFragmentForSending.2.fragments.sorted
      rw [left] at sorted
      have before := (List.pairwise_append.mp sorted).2.2 frag inside last (List.mem_singleton.mpr rfl)
      let mark (g : Fragment) : Fragment :=
        if g.seq = frag.seq then { g with inFlight := true, nakCount := 0, sentAbandoned := g.abandoned, tsn := 0 }
        else g
      have sent : (f.sendFragment 0).2.fragments.elems = front.map mark ++ [last] := by
        have other : mark last = last := if_neg before.ne'
        have marked : (front ++ [last]).map mark = front.map mark ++ [last] := by
          rw [List.map_append, List.map_singleton, other]
        rw [← marked, ← left]
        unfold sendFragment
        split
        · rename_i none
          rw [none] at chosen
          cases chosen
        · rename_i found
          rw [found] at chosen ⊢
          cases chosen
          rfl
      have fewer : (front.map mark).countP (fun g => !g.inFlight) < n := by
        rw [List.countP_map]
        refine (countP_lt (fun g gone => ?_) inside (by simpa using due) ?_).trans_le (waiting ▸ sub.countP_le)
        · by_contra busy
          rw [Bool.not_eq_true, Bool.not_eq_false'] at busy
          revert gone
          simp only [Function.comp_apply, mark]
          split
          · simp
          · simp [busy]
        · simp [mark]
      obtain ⟨tsns, fsn, found⟩ := ih _ fewer sent rfl
      exact ⟨0 :: tsns, fsn, found⟩

/-- A message of one fragment is queued as one new fragment, and sending gets to it. -/
def QueuesWhole (f : Flow) (data : Bytes) : Prop :=
  (f.addAndFragmentData data).listed = f.listed ++ [(f.nextSn, .whole, data)] ∧
    ∃ tsns frag fsn, ((f.addAndFragmentData data).sendAll tsns).getFragmentForSending.1 = some (frag, fsn) ∧
      frag.seq = f.nextSn ∧ frag.part = (.whole, data)

theorem Sends.queuesWhole_iff (sends : f.Sends) {data : Bytes} (small : data.length ≤ eFragmentMaxSize) :
    f.QueuesWhole data ↔ f.Takes data.length := by
  have parts : cut data = [(.whole, data)] := if_pos small
  constructor
  · rintro ⟨queued, _⟩
    rw [sends.listed_queue, parts, accepted] at queued
    by_contra refuses
    rw [if_neg refuses] at queued
    cases List.append_cancel_left queued
  · intro takes
    refine ⟨?_, ?_⟩
    · rw [sends.listed_queue, parts, accepted, if_pos takes]
      rfl
    · have elems : (f.enqueue (.whole, data)).fragments.elems =
          f.fragments.elems ++ [{ seq := f.nextSn, data, fragCtrl := .whole }] := sends.enqueue_elems takes
      have queued : f.addAndFragmentData data = (f.enqueue (.whole, data)).abandonStaleFragments := by
        rw [addAndFragmentData, parts]
        rfl
      have last : ∃ front, (f.addAndFragmentData data).fragments.elems =
          front ++ [{ seq := f.nextSn, data, fragCtrl := .whole }] := by
        rw [queued]
        unfold abandonStaleFragments
        split
        · exact ⟨_, elems⟩
        · show ∃ front, abandonFrom ((f.enqueue (.whole, data)).fragments.elems.length - eMaxUnackedFragments) 0
            (f.enqueue (.whole, data)).fragments.elems = _
          rw [elems]
          refine abandonFrom_last ?_
          rw [List.length_append, List.length_singleton]
          unfold eMaxUnackedFragments
          omega
      obtain ⟨front, elems⟩ := last
      obtain ⟨tsns, fsn, found⟩ := sent_in_turn elems rfl rfl
      exact ⟨tsns, _, fsn, found, rfl, rfl⟩

end Flow

/-- What happens to a sending flow. -/
inductive SenderMove
  | queue (data : Bytes)
  | look
  | send (tsn : Nat)
  | ackUntil (seq : Nat)
  | ackRange (first last : Nat)
  | nak (maxTsn : Nat)
  | timeout

/-- The length of a message is a 32-bit number. -/
def SenderMove.Representable : SenderMove → Prop
  | .queue data => data.length < 2 ^ 32
  | _ => True

/-- A sending flow with the messages queued so far, each as the first number it was given
and the first one after it. -/
structure Sender where
  flow : Flow
  messages : List (Nat × Nat) := []

namespace Sender

def fresh (usage : Usage) : Sender := { flow := { role := .sender, usage } }

def step (s : Sender) : SenderMove → Sender
  | .queue data =>
    { flow := s.flow.addAndFragmentData data
      messages := s.messages ++ [(s.flow.nextSn, (s.flow.addAndFragmentData data).nextSn)] }
  | .look => { s with flow := s.flow.getFragmentForSending.2 }
  | .send tsn => { s with flow := (s.flow.sendFragment tsn).2 }
  | .ackUntil seq => { s with flow := (s.flow.ackFragmentsUntil seq).1 }
  | .ackRange first last => { s with flow := (s.flow.ackFragmentsForRange first last).1 }
  | .nak maxTsn => { s with flow := s.flow.updateNakCount maxTsn }
  | .timeout => { s with flow := s.flow.onTimeoutAlarm }

abbrev Reachable (usage : Usage) (s : Sender) : Prop := Reach step (fun _ m => m.Representable) (fresh usage) s

end Sender

namespace Flow

theorem sends_fresh (usage : Usage) : (Sender.fresh usage).flow.Sends :=
  ⟨rfl, rfl, below_fresh, fun _ member => by cases member⟩

theorem abandonStaleFragments_follows (f : Flow) :
    Follows f f.abandonStaleFragments ∧ f.abandonStaleFragments.others = f.others := by
  have derived := f.abandonStaleFragments_derived
  unfold abandonStaleFragments at *
  split
  · exact ⟨⟨rfl, rfl, rfl, rfl, .refl _⟩, rfl⟩
  · rename_i stale
    rw [if_neg stale] at derived
    exact ⟨⟨rfl, rfl, rfl, rfl, derived⟩, rfl⟩

theorem getFragmentForSending_others (f : Flow) : f.getFragmentForSending.2.others = f.others := by
  unfold getFragmentForSending
  dsimp only
  split
  · rfl
  · split <;> rfl

theorem sendFragment_others (f : Flow) (tsn : Nat) : (f.sendFragment tsn).2.others = f.others := by
  have taken := f.getFragmentForSending_others
  unfold sendFragment
  split
  · rename_i found
    rwa [found] at taken
  · rename_i found
    rwa [found] at taken

theorem Sends.queue (sends : f.Sends) (data : Bytes) : (f.addAndFragmentData data).Sends := by
  obtain ⟨follows, unshared⟩ := abandonStaleFragments_follows ((cut data).foldl Flow.enqueue f)
  exact (sends.enqueues (cut data)).of_follows follows unshared

end Flow

theorem Sender.sends_step {s : Sender} (sends : s.flow.Sends) (m : SenderMove) : (s.step m).flow.Sends := by
  cases m with
  | queue data => exact sends.queue data
  | look => exact sends.of_follows s.flow.getFragmentForSending_follows s.flow.getFragmentForSending_others
  | send tsn => exact sends.of_follows (s.flow.sendFragment_follows tsn) (s.flow.sendFragment_others tsn)
  | ackUntil seq => exact sends.of_follows (s.flow.eraseAcked_follows _) rfl
  | ackRange first last => exact sends.of_follows (s.flow.eraseAcked_follows _) rfl
  | nak maxTsn => exact sends.of_follows (s.flow.updateNakCount_follows maxTsn) rfl
  | timeout => exact sends.of_follows s.flow.onTimeoutAlarm_follows rfl

theorem Sender.Reachable.sends {usage : Usage} {s : Sender} (reach : Reachable usage s) : s.flow.Sends :=
  reach.invariant (I := fun s => s.flow.Sends) (Flow.sends_fresh usage) fun _ sends => Sender.sends_step sends _

namespace Flow

/-- With room in the buffer a message of one fragment is queued exactly as long as the
manager keeps few enough numbers between the cumulative one and the next. -/
theorem message_queued_iff {usage : Usage} {s : Sender} (reach : Sender.Reachable usage s) {data : Bytes}
    (small : data.length ≤ eFragmentMaxSize) (room : s.flow.isFull data.length = false) :
    s.flow.QueuesWhole data ↔ s.flow.nextSn ≤ eMaxCsn ∧
      s.flow.seqManager.missing.size + (s.flow.nextSn - s.flow.seqManager.csn) ≤ eMaxMissing := by
  have sends := reach.sends
  obtain ⟨size, bytes⟩ := (sends.isFull_iff _).mp room
  rw [sends.queuesWhole_iff small]
  exact ⟨fun takes => takes.2.2, fun numbers => ⟨size, bytes, numbers⟩⟩

theorem message_queued_second :
    ∃ s, Sender.Reachable .data s ∧ s.flow.listed = [(1, .whole, [7])] ∧ s.flow.QueuesWhole [8] := by
  have reach : Sender.Reachable .data ((Sender.fresh .data).step (.queue [7])) :=
    Reach.start.next (SenderMove.queue [7]) (by decide : 1 < 2 ^ 32)
  exact ⟨_, reach, by decide, (message_queued_iff reach (by decide) (by decide)).mpr (by decide)⟩

theorem Sends.enqueues_full (sends : f.Sends) (full : eMaxBufferedFragments ≤ f.fragments.size)
    (parts : List (FragCtrl × Bytes)) : parts.foldl Flow.enqueue f = f.skip parts.length := by
  induction parts generalizing f with
  | nil => rfl
  | cons part parts ih =>
    have refuses : ¬ f.Takes part.2.length := fun takes => Nat.not_lt.mpr full takes.1
    rw [List.foldl_cons, sends.enqueue_refused refuses, ih (sends.skip 1) full]
    simp [Flow.skip, Nat.add_comm, Nat.add_left_comm]

/-- A fresh flow fills up with the first fragments of a message that has more than it can
buffer; the others only use up their numbers. -/
theorem flooded (usage : Usage) {front : List (FragCtrl × Bytes)} (rest : List (FragCtrl × Bytes))
    (filled : front.length = eMaxBufferedFragments)
    (light : (front.map fun part => part.2.length).sum ≤ eMaxBufferedBytes) :
    ((front ++ rest).foldl enqueue (Sender.fresh usage).flow).seqManager.csn ≤ eMaxBufferedFragments := by
  have sends := sends_fresh usage
  have stored := sends.listed_enqueues front
  have all : (Sender.fresh usage).flow.accepted front = numbered 1 front := by
    cases front with
    | nil => rfl
    | cons part parts =>
      refine (sends.accepted_all_iff part parts).mpr ?_
      rw [List.length_cons] at filled
      rw [filled]
      exact ⟨Nat.le_of_eq (Nat.zero_add _), (Nat.zero_add _).trans_le light,
        (by decide : 1 + eMaxBufferedFragments ≤ eMaxCsn + 1), (by decide : 0 + (1 - 0) ≤ eMaxMissing),
          .inr (.inl rfl)⟩
  rw [all] at stored
  have size : (front.foldl enqueue (Sender.fresh usage).flow).fragments.size = eMaxBufferedFragments := by
    rw [← length_listed, stored, List.length_append, length_numbered, filled]
    exact Nat.zero_add _
  have upper := (sends.enqueues front).below.csn_lt
  rw [enqueues_nextSn, filled, show (Sender.fresh usage).flow.nextSn = 1 from rfl, Nat.add_comm] at upper
  rw [List.foldl_append, (sends.enqueues front).enqueues_full size.ge]
  exact Nat.le_of_lt_succ upper

theorem length_part_le {data : Bytes} (short : data.length ≤ eMaxMessageSize) {part : FragCtrl × Bytes}
    (member : part ∈ cut data) : part.2.length ≤ eFragmentMaxSize := by
  obtain ⟨front, last, same, _, equal, rest⟩ := cut_lengths short
  rw [same] at member
  rcases List.mem_append.mp member with before | final
  · exact (equal part before).le
  · rw [List.mem_singleton.mp final, rest]
    simp only [pieces, eFragmentMaxSize]
    omega

/-- A message with twice as many fragments as the buffer holds, all of it acknowledged. -/
def drained : Sender :=
  ((Sender.fresh .data).step (.queue (List.replicate (2 * eMaxBufferedFragments * eFragmentMaxSize) 0))).step
    (.ackRange 0 eMaxCsn)

theorem drained_reachable : Sender.Reachable .data drained :=
  (Reach.start.next (SenderMove.queue _) (List.length_replicate.trans_lt (by decide))).next
    (SenderMove.ackRange 0 eMaxCsn) trivial

theorem drained_facts : drained.flow.nextSn = 1 + 2 * eMaxBufferedFragments ∧
    drained.flow.seqManager.csn ≤ eMaxBufferedFragments ∧ drained.flow.fragments.elems = [] := by
  obtain ⟨data, named⟩ : ∃ data, data = List.replicate (2 * eMaxBufferedFragments * eFragmentMaxSize)
    (0 : UInt8) := ⟨_, rfl⟩
  have length : data.length = 2 * eMaxBufferedFragments * eFragmentMaxSize := named ▸ List.length_replicate
  have short : data.length ≤ eMaxMessageSize := length ▸ (by decide)
  have count : (cut data).length = 2 * eMaxBufferedFragments := by
    rw [length_cut short, length]
    decide
  have light : (((cut data).take eMaxBufferedFragments).map fun part => part.2.length).sum ≤ eMaxBufferedBytes := by
    refine (List.sum_le_card_nsmul _ eFragmentMaxSize fun len member => ?_).trans ?_
    · obtain ⟨part, inside, rfl⟩ := List.mem_map.mp member
      exact length_part_le short (List.mem_of_mem_take inside)
    · rw [List.length_map, List.length_take, count]
      decide
  have csn := flooded .data ((cut data).drop eMaxBufferedFragments)
    (List.length_take.trans (by rw [count]; decide)) light
  rw [List.take_append_drop] at csn
  have next := enqueues_nextSn (Sender.fresh .data).flow (cut data)
  rw [count] at next
  obtain ⟨follows, _⟩ := abandonStaleFragments_follows ((cut data).foldl enqueue (Sender.fresh .data).flow)
  have queued : drained = ((Sender.fresh .data).step (.queue data)).step (.ackRange 0 eMaxCsn) := named ▸ rfl
  have sends := ((sends_fresh .data).queue data).older
  rw [queued]
  refine ⟨follows.nextSn.trans next, (congrArg SeqManager.csn follows.seqManager).trans_le csn, ?_⟩
  refine List.filter_eq_nil_iff.mpr fun g member => ?_
  have lower := sends g member
  rw [addAndFragmentData, follows.nextSn, next] at lower
  have upper : g.seq ≤ eMaxCsn := (Nat.le_of_lt lower).trans (by decide)
  simp [upper]

/-- Nothing is buffered any more, yet the next message is refused: the refused fragments have
used up the numbers the manager can look ahead. -/
theorem message_refused :
    ∃ s data, Sender.Reachable .data s ∧ s.flow.nextSn < 2 ^ 32 ∧ data.length ≤ eFragmentMaxSize ∧
      s.flow.isFull data.length = false ∧ ¬ s.flow.QueuesWhole data := by
  obtain ⟨next, csn, empty⟩ := drained_facts
  have sends := drained_reachable.sends
  refine ⟨drained, [], drained_reachable, by rw [next]; decide, by decide, ?_, ?_⟩
  · rw [sends.isFull_iff, SortedBy.size, FragmentStore.bytes, empty]
    decide
  · rw [sends.queuesWhole_iff (by decide)]
    rintro ⟨_, _, _, room⟩
    rw [next] at room
    unfold eMaxMissing eMaxBufferedFragments at *
    omega

/-- A message is queued whole or not at all exactly when there is room for all of it, or for
neither its first nor its last fragment. -/
theorem queueing_atomic_iff {usage : Usage} {s : Sender} (reach : Sender.Reachable usage s) {data : Bytes}
    (short : data.length ≤ 16 * 1024 * 1024) :
    s.flow.AllOrNothing data ↔
      s.flow.TakesAll (pieces data.length) data.length ∨ s.flow.RefusesAll data.length :=
  reach.sends.allOrNothing_iff (short.trans (by decide))

theorem queueing_atomic_fresh :
    (List.replicate 2321 (0 : UInt8)).length ≤ 16 * 1024 * 1024 ∧
      (Sender.fresh .data).flow.AllOrNothing (List.replicate 2321 0) := by
  have length : (List.replicate 2321 (0 : UInt8)).length = 2321 := List.length_replicate
  refine ⟨length.trans_le (by decide), (queueing_atomic_iff .start (length.trans_le (by decide))).mpr (.inl ?_)⟩
  rw [length]
  unfold TakesAll
  decide

/-- The buffer fills up in the middle of a message. -/
theorem queueing_breaks_off :
    ∃ s data, Sender.Reachable .data s ∧ data.length ≤ 16 * 1024 * 1024 ∧ ¬ s.flow.AllOrNothing data := by
  have length : (List.replicate (8193 * 1160) (0 : UInt8)).length = 8193 * 1160 := List.length_replicate
  have short : (List.replicate (8193 * 1160) (0 : UInt8)).length ≤ 16 * 1024 * 1024 := length.trans_le (by decide)
  refine ⟨Sender.fresh .data, _, .start, short, ?_⟩
  rw [(sends_fresh .data).allOrNothing_iff (short.trans (by decide)), length]
  rintro (⟨size, _⟩ | ⟨first, _⟩)
  · revert size
    decide
  · revert first
    decide

end Flow
end Fms.Rtmfp
