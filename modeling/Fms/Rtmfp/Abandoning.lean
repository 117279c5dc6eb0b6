import Fms.Rtmfp.Queueing
import Mathlib.Data.List.Count

namespace Fms.Rtmfp
open ByteWire SeqManager Transition

/-- Whatever is abandoned is older than whatever is not. -/
def OldestFirst (l : List Fragment) : Prop :=
  ∀ g ∈ l, ∀ h ∈ l, g.abandoned = true → h.abandoned = false → g.seq < h.seq

/-- Of every message, given by its numbers, all of the fragments listed are abandoned or none
is. -/
def AllOrNone (messages : List (Nat × Nat)) (l : List Fragment) : Prop :=
  ∀ m ∈ messages, ∀ g ∈ l, ∀ h ∈ l, m.1 ≤ g.seq → g.seq < m.2 → m.1 ≤ h.seq → h.seq < m.2 → g.abandoned = h.abandoned

/-- Every fragment of a list stands for one of another, with its number and its mark. -/
def Marked (old new : List Fragment) : Prop := ∀ g ∈ new, ∃ f ∈ old, g.seq = f.seq ∧ g.abandoned = f.abandoned

variable {old new : List Fragment} {messages : List (Nat × Nat)}

theorem Marked.of_subset (subset : ∀ g ∈ new, g ∈ old) : Marked old new := fun g member =>
  ⟨g, subset g member, rfl, rfl⟩

theorem Marked.map {l : List Fragment} {φ : Fragment → Fragment} (marked : Marked old l)
    (seq : ∀ g, (φ g).seq = g.seq) (same : ∀ g, (φ g).abandoned = g.abandoned) : Marked old (l.map φ) := by
  intro g member
  obtain ⟨f, inside, rfl⟩ := List.mem_map.mp member
  rw [seq, same]
  exact marked f inside

theorem OldestFirst.marked (ordered : OldestFirst old) (marked : Marked old new) : OldestFirst new := by
  intro g member h member' abandoned kept
  obtain ⟨g', inside, seq, same⟩ := marked g member
  obtain ⟨h', inside', seq', same'⟩ := marked h member'
  rw [seq, seq']
  exact ordered g' inside h' inside' (same ▸ abandoned) (same' ▸ kept)

theorem AllOrNone.marked (whole : AllOrNone messages old) (marked : Marked old new) : AllOrNone messages new := by
  intro m queued g member h member'
  obtain ⟨g', inside, seq, same⟩ := marked g member
  obtain ⟨h', inside', seq', same'⟩ := marked h member'
  rw [seq, seq', same, same']
  exact whole m queued g' inside h' inside'

theorem OldestFirst.append (ordered : OldestFirst old) {next : Nat} (below : ∀ g ∈ old, g.seq < next)
    (fresh : ∀ g ∈ new, g.abandoned = false ∧ next ≤ g.seq) : OldestFirst (old ++ new) := by
  intro g member h member' abandoned kept
  rcases List.mem_append.mp member with before | after
  · rcases List.mem_append.mp member' with before' | after'
    · exact ordered g before h before' abandoned kept
    · exact (below g before).trans_le (fresh h after').2
  · rw [(fresh g after).1] at abandoned
    cases abandoned

theorem AllOrNone.append (whole : AllOrNone messages old) {next finish : Nat} (closed : ∀ m ∈ messages, m.2 ≤ next)
    (below : ∀ g ∈ old, g.seq < next) (fresh : ∀ g ∈ new, g.abandoned = false ∧ next ≤ g.seq) :
    AllOrNone (messages ++ [(next, finish)]) (old ++ new) := by
  intro m queued g member h member' gFirst gLast hFirst hLast
  rcases List.mem_append.mp queued with earlier | latest
  · have bound := closed m earlier
    have inOld (k : Fragment) (inside : k ∈ old ++ new) (upper : k.seq < m.2) : k ∈ old := by
      rcases List.mem_append.mp inside with before | after
      · exact before
      · have := (fresh k after).2
        omega
    exact whole m earlier g (inOld g member gLast) h (inOld h member' hLast) gFirst gLast hFirst hLast
  · rw [List.mem_singleton.mp latest] at gFirst hFirst
    have plain (k : Fragment) (inside : k ∈ old ++ new) (lower : next ≤ k.seq) : k.abandoned = false := by
      rcases List.mem_append.mp inside with before | after
      · have := below k before
        omega
      · exact (fresh k after).1
    rw [plain g member gFirst, plain h member' hFirst]

/-- The oldest `n` fragments abandoned. -/
def abandonOldest (n : Nat) (l : List Fragment) : List Fragment :=
  (l.take n).map (fun f => { f with abandoned := true }) ++ l.drop n

theorem mem_abandonOldest {n : Nat} {l : List Fragment} {g : Fragment} (member : g ∈ abandonOldest n l) :
    (∃ f ∈ l.take n, g = { f with abandoned := true }) ∨ g ∈ l.drop n := by
  rcases List.mem_append.mp member with marked | kept
  · obtain ⟨f, inside, rfl⟩ := List.mem_map.mp marked
    exact .inl ⟨f, inside, rfl⟩
  · exact .inr kept

variable {l : List Fragment} {n : Nat}

variable {f g : Fragment}

theorem take_lt_drop (sorted : l.Pairwise (·.seq < ·.seq)) (first : f ∈ l.take n)
    (later : g ∈ l.drop n) :
    f.seq < g.seq := by
  rw [← List.take_append_drop n l] at sorted
  exact (List.pairwise_append.mp sorted).2.2 f first g later

theorem OldestFirst.abandonOldest (ordered : OldestFirst l) (sorted : l.Pairwise (·.seq < ·.seq)) :
    OldestFirst (abandonOldest n l) := by
  intro g member h member' abandoned kept
  rcases mem_abandonOldest member' with ⟨f, _, rfl⟩ | later'
  · cases kept
  · rcases mem_abandonOldest member with ⟨f, first, rfl⟩ | later
    · exact take_lt_drop (f := f) sorted first later'
    · exact ordered g (List.mem_of_mem_drop later) h (List.mem_of_mem_drop later') abandoned kept

theorem countP_abandonOldest (few : n ≤ l.length) : n ≤ (abandonOldest n l).countP Fragment.abandoned := by
  have marked : ((l.take n).map fun f => { f with abandoned := true }).countP Fragment.abandoned = n := by
    rw [List.countP_map]
    refine (List.countP_eq_length.mpr fun _ _ => rfl).trans ?_
    rw [List.length_take, Nat.min_eq_left few]
  rw [Rtmfp.abandonOldest, List.countP_append, marked]
  exact Nat.le_add_right _ _

/-- With as many marks as the oldest fragments, it is those that carry them. -/
theorem OldestFirst.take_abandoned_iff (ordered : OldestFirst l) (sorted : l.Pairwise (·.seq < ·.seq))
    (few : n ≤ l.length) :
    n ≤ l.countP Fragment.abandoned ↔ ∀ f ∈ l.take n, f.abandoned = true := by
  have length : (l.take n).length = n := List.length_take.trans (Nat.min_eq_left few)
  constructor
  · intro enough f first
    by_contra kept
    rw [Bool.not_eq_true] at kept
    have none : (l.drop n).countP Fragment.abandoned = 0 := by
      refine List.countP_eq_zero.mpr fun g later abandoned => ?_
      have before := take_lt_drop sorted first later
      have after := ordered g (List.mem_of_mem_drop later) f (List.mem_of_mem_take first) abandoned kept
      omega
    have fewer : (l.take n).countP Fragment.abandoned < (l.take n).length :=
      List.countP_lt_length_iff.mpr ⟨f, first, kept⟩
    rw [← List.take_append_drop n l, List.countP_append, none] at enough
    omega
  · intro all
    have full := List.countP_eq_length.mpr all
    rw [← List.take_append_drop n l, List.countP_append, full, length]
    exact Nat.le_add_right _ _

/-- Abandoning the oldest `n` fragments leaves no message half abandoned: as many are abandoned
already, or the last of them and the next fragment are not of one message. -/
def CutsBetween (messages : List (Nat × Nat)) (n : Nat) (l : List Fragment) : Prop :=
  n ≤ l.countP Fragment.abandoned ∨
    ∀ g h, l[n - 1]? = some g → l[n]? = some h → ∀ m ∈ messages, ¬ (m.1 ≤ g.seq ∧ h.seq < m.2)

theorem le_last_of_take (sorted : l.Pairwise (·.seq < ·.seq)) (first : f ∈ l.take n)
    (last : l[n - 1]? = some g) : f.seq ≤ g.seq := by
  obtain ⟨i, bound, value⟩ := List.mem_take_iff_getElem.mp first
  obtain ⟨bound', value'⟩ := List.getElem?_eq_some_iff.mp last
  rw [← value, ← value']
  rcases Nat.lt_or_eq_of_le (by omega : i ≤ n - 1) with less | same
  · exact (List.pairwise_iff_getElem.mp sorted i (n - 1) (by omega) bound' less).le
  · simp only [same, le_refl]

theorem first_le_of_drop (sorted : l.Pairwise (·.seq < ·.seq)) (later : f ∈ l.drop n)
    (next : l[n]? = some g) : g.seq ≤ f.seq := by
  obtain ⟨i, bound, value⟩ := List.mem_drop_iff_getElem.mp later
  obtain ⟨bound', value'⟩ := List.getElem?_eq_some_iff.mp next
  rw [← value, ← value']
  rcases Nat.eq_zero_or_pos i with zero | positive
  · simp only [zero, Nat.add_zero, le_refl]
  · exact (List.pairwise_iff_getElem.mp sorted n (n + i) bound' (by omega) (by omega)).le

theorem AllOrNone.abandonOldest_iff (whole : AllOrNone messages l) (ordered : OldestFirst l)
    (sorted : l.Pairwise (·.seq < ·.seq)) (few : n ≤ l.length) :
    AllOrNone messages (abandonOldest n l) ↔ CutsBetween messages n l := by
  have marks := ordered.take_abandoned_iff sorted few
  constructor
  · intro after
    by_cases enough : n ≤ l.countP Fragment.abandoned
    · exact .inl enough
    · refine .inr fun g h last next m queued ⟨lower, upper⟩ => enough (marks.mpr fun f first => ?_)
      have positive : 0 < n := Nat.pos_of_ne_zero fun zero => enough (zero ▸ Nat.zero_le _)
      have inTake : g ∈ l.take n := by
        obtain ⟨bound, value⟩ := List.getElem?_eq_some_iff.mp last
        exact List.mem_take_iff_getElem.mpr ⟨n - 1, by omega, value⟩
      have inDrop : h ∈ l.drop n := by
        obtain ⟨bound, value⟩ := List.getElem?_eq_some_iff.mp next
        exact List.mem_drop_iff_getElem.mpr ⟨0, by omega, value⟩
      have less := take_lt_drop sorted inTake inDrop
      have same := after m queued { g with abandoned := true }
        (List.mem_append_left _ (List.mem_map_of_mem (f := fun f : Fragment => { f with abandoned := true }) inTake))
          h
        (List.mem_append_right _ inDrop) lower (less.trans upper) (lower.trans less.le) upper
      by_contra kept
      rw [Bool.not_eq_true] at kept
      have before := ordered h (List.mem_of_mem_drop inDrop) f (List.mem_of_mem_take first) same.symm kept
      exact absurd (take_lt_drop sorted first inDrop) (Nat.not_lt.mpr before.le)
  · rintro cuts
    -- a mark the walk sets and a fragment it leaves are never of one message
    have apart (m : Nat × Nat) (queued : m ∈ messages) (f : Fragment) (first : f ∈ l.take n) (h : Fragment)
        (later : h ∈ l.drop n) (fFirst : m.1 ≤ f.seq) (fLast : f.seq < m.2) (hFirst : m.1 ≤ h.seq)
          (hLast : h.seq < m.2) :
        h.abandoned = true := by
      rcases cuts with enough | boundary
      · have abandoned := marks.mp enough f first
        exact (whole m queued f (List.mem_of_mem_take first) h (List.mem_of_mem_drop later) fFirst fLast hFirst
          hLast).symm.trans abandoned
      · obtain ⟨i, bound, _⟩ := List.mem_drop_iff_getElem.mp later
        obtain ⟨j, bound', _⟩ := List.mem_take_iff_getElem.mp first
        obtain ⟨a, last⟩ : ∃ a, l[n - 1]? = some a := ⟨_, List.getElem?_eq_getElem (by omega)⟩
        obtain ⟨b, next⟩ : ∃ b, l[n]? = some b := ⟨_, List.getElem?_eq_getElem (by omega)⟩
        have lower := le_last_of_take sorted first last
        have upper := first_le_of_drop sorted later next
        exact absurd ⟨fFirst.trans lower, upper.trans_lt hLast⟩ (boundary a b last next m queued)
    intro m queued g member h member' gFirst gLast hFirst hLast
    rcases mem_abandonOldest member with ⟨f, first, rfl⟩ | later
    · rcases mem_abandonOldest member' with ⟨f', first', rfl⟩ | later'
      · rfl
      · exact (apart m queued f first h later' gFirst gLast hFirst hLast).symm
    · rcases mem_abandonOldest member' with ⟨f', first', rfl⟩ | later'
      · exact apart m queued f' first' g later hFirst hLast gFirst gLast
      · exact whole m queued g (List.mem_of_mem_drop later) h (List.mem_of_mem_drop later') gFirst gLast hFirst hLast

namespace Flow

theorem Sends.enqueues_elems {f : Flow} (sends : f.Sends) (parts : List (FragCtrl × Bytes)) :
    ∃ new, (parts.foldl Flow.enqueue f).fragments.elems = f.fragments.elems ++ new ∧
      ∀ g ∈ new, g.abandoned = false ∧ f.nextSn ≤ g.seq := by
  induction parts generalizing f with
  | nil => exact ⟨[], (List.append_nil _).symm, fun _ member => by cases member⟩
  | cons part parts ih =>
    obtain ⟨new, elems, fresh⟩ := ih (sends.enqueue part)
    rw [enqueue_nextSn] at fresh
    rw [List.foldl_cons, elems]
    by_cases takes : f.Takes part.2.length
    · rw [sends.enqueue_elems takes, List.append_assoc]
      refine ⟨_, rfl, fun g member => ?_⟩
      rcases List.mem_cons.mp member with rfl | later
      · exact ⟨rfl, Nat.le_refl _⟩
      · exact ⟨(fresh g later).1, (Nat.le_succ _).trans (fresh g later).2⟩
    · rw [sends.enqueue_refused takes]
      exact ⟨new, rfl, fun g member => ⟨(fresh g member).1, (Nat.le_succ _).trans (fresh g member).2⟩⟩

theorem enqueues_usage (f : Flow) (parts : List (FragCtrl × Bytes)) : (parts.foldl enqueue f).usage = f.usage := by
  induction parts generalizing f with
  | nil => rfl
  | cons part parts ih =>
    rw [List.foldl_cons, ih]
    have added := Flow.added { f with nextSn := f.nextSn + 1 } { seq := f.nextSn, data := part.2, fragCtrl := part.1 }
    unfold enqueue
    generalize (Flow.addFragment _ _).1 = g at added ⊢
    cases added <;> rfl

theorem getFragmentForSending_marked (f : Flow) :
    Marked f.fragments.elems f.getFragmentForSending.2.fragments.elems := by
  rw [getFragmentForSending_elems]
  exact .of_subset fun g member => (dropAbandoned_sublist _ _).subset member

theorem sendFragment_marked (f : Flow) (tsn : Nat) :
    Marked f.fragments.elems (f.sendFragment tsn).2.fragments.elems := by
  have taken := f.getFragmentForSending_marked
  unfold sendFragment
  split
  · rename_i found
    rwa [found] at taken
  · rename_i found
    rw [found] at taken
    refine taken.map (fun g => ?_) fun g => ?_
    · split <;> rfl
    · split <;> rfl

theorem updateNakCount_marked (f : Flow) (maxTsn : Nat) :
    Marked f.fragments.elems (f.updateNakCount maxTsn).fragments.elems := by
  refine (Marked.of_subset fun _ member => member).map (fun g => ?_) fun g => ?_
  · split <;> rfl
  · split <;> rfl

/-- How many fragments `abandon_stale_fragments` wants abandoned. -/
def stale (f : Flow) : Nat := f.fragments.size - eMaxUnackedFragments

theorem abandonStaleFragments_elems {f : Flow} (live : f.usage = .audioVideo) :
    f.abandonStaleFragments.fragments.elems = abandonOldest f.stale f.fragments.elems := by
  unfold abandonStaleFragments
  split
  · rename_i few
    have none : f.stale = 0 := Nat.sub_eq_zero_of_le (few.resolve_left fun other => other live)
    simp only [none, abandonOldest, List.take_zero, List.map_nil, List.nil_append, List.drop_zero]
  · have walked := abandonFrom_eq f.stale 0 f.fragments.elems
    rwa [Nat.sub_zero] at walked

end Flow

namespace Sender

/-- What a live flow promises about the fragments it abandons. -/
structure AbandonsWhole (s : Sender) : Prop where
  enough : s.flow.fragments.size - Flow.eMaxUnackedFragments ≤ s.flow.fragments.elems.countP Fragment.abandoned
  ordered : OldestFirst s.flow.fragments.elems
  whole : AllOrNone s.messages s.flow.fragments.elems

/-- The fragments of a message are buffered, and `abandon_stale_fragments` is about to start. -/
def fragmented (s : Sender) (data : Bytes) : Sender where
  flow := (Flow.cut data).foldl Flow.enqueue s.flow
  messages := s.messages ++ [(s.flow.nextSn, s.flow.nextSn + (Flow.cut data).length)]

/-- Whenever a live flow abandons fragments, it can stop between two messages. -/
def StopsBetween (s : Sender) : SenderMove → Prop
  | .queue data =>
    data.length < 2 ^ 32 ∧ (s.flow.usage = .audioVideo →
      CutsBetween (s.fragmented data).messages (s.fragmented data).flow.stale
        (s.fragmented data).flow.fragments.elems)
  | _ => True

/-- The invariant of a flow that stops between messages. -/
structure Orderly (usage : Usage) (s : Sender) : Prop where
  sends : s.flow.Sends
  kind : s.flow.usage = usage
  closed : ∀ m ∈ s.messages, m.2 ≤ s.flow.nextSn
  ordered : OldestFirst s.flow.fragments.elems
  whole : AllOrNone s.messages s.flow.fragments.elems
  plain : usage = .data → ∀ g ∈ s.flow.fragments, g.abandoned = false

theorem orderly_fresh (usage : Usage) : Orderly usage (fresh usage) where
  sends := Flow.sends_fresh usage
  kind := rfl
  closed _ member := by cases member
  ordered _ member := by cases member
  whole _ member := by cases member
  plain _ _ member := by cases member

variable {usage : Usage} {s : Sender}

theorem Orderly.follows (orderly : Orderly usage s) {f : Flow} (follows : Flow.Follows s.flow f)
    (unshared : f.others = s.flow.others) (marked : Marked s.flow.fragments.elems f.fragments.elems) :
    Orderly usage { s with flow := f } where
  sends := orderly.sends.of_follows follows unshared
  kind := follows.usage.trans orderly.kind
  closed m queued := (orderly.closed m queued).trans follows.nextSn.ge
  ordered := orderly.ordered.marked marked
  whole := orderly.whole.marked marked
  plain reliable g member := by
    obtain ⟨e, inside, _, same⟩ := marked g member
    exact same.trans (orderly.plain reliable e inside)

theorem Orderly.fragmented (orderly : Orderly usage s) (data : Bytes) : Orderly usage (s.fragmented data) := by
  obtain ⟨new, elems, fresh⟩ := orderly.sends.enqueues_elems (Flow.cut data)
  have next := Flow.enqueues_nextSn s.flow (Flow.cut data)
  refine ⟨orderly.sends.enqueues _, (Flow.enqueues_usage _ _).trans orderly.kind, fun m queued => ?_, ?_, ?_,
    fun reliable g member => ?_⟩
  · show m.2 ≤ ((Flow.cut data).foldl Flow.enqueue s.flow).nextSn
    rw [next]
    rcases List.mem_append.mp queued with earlier | latest
    · exact (orderly.closed m earlier).trans (Nat.le_add_right _ _)
    · rw [List.mem_singleton.mp latest]
  · show OldestFirst ((Flow.cut data).foldl Flow.enqueue s.flow).fragments.elems
    rw [elems]
    exact orderly.ordered.append orderly.sends.older fresh
  · show AllOrNone _ ((Flow.cut data).foldl Flow.enqueue s.flow).fragments.elems
    rw [elems]
    exact orderly.whole.append orderly.closed orderly.sends.older fresh
  · replace member : g ∈ ((Flow.cut data).foldl Flow.enqueue s.flow).fragments.elems := member
    rw [elems] at member
    rcases List.mem_append.mp member with before | after
    · exact orderly.plain reliable g before
    · exact (fresh g after).1

theorem step_queue (s : Sender) (data : Bytes) :
    s.step (.queue data) =
      ⟨(s.fragmented data).flow.abandonStaleFragments, (s.fragmented data).messages⟩ := by
  have next : (s.flow.addAndFragmentData data).nextSn = s.flow.nextSn + (Flow.cut data).length :=
    (Flow.abandonStaleFragments_nextSn _).trans (Flow.enqueues_nextSn _ _)
  rw [step, next]
  rfl

/-- On a live flow the messages stay whole exactly when it can stop between two of them. -/
theorem Orderly.abandons_iff (orderly : Orderly .audioVideo s) (data : Bytes) :
    (s.step (.queue data)).AbandonsWhole ↔
      CutsBetween (s.fragmented data).messages (s.fragmented data).flow.stale
        (s.fragmented data).flow.fragments.elems := by
  have before := orderly.fragmented data
  have elems := Flow.abandonStaleFragments_elems before.kind
  have sorted := (s.fragmented data).flow.fragments.sorted
  have few : (s.fragmented data).flow.stale ≤ (s.fragmented data).flow.fragments.elems.length := Nat.sub_le _ _
  have whole := before.whole.abandonOldest_iff before.ordered sorted few
  have size : (s.fragmented data).flow.abandonStaleFragments.fragments.size =
      (s.fragmented data).flow.fragments.size := by
    rw [← Flow.length_listed, Flow.listed_abandonStaleFragments, Flow.length_listed]
  rw [step_queue]
  rw [← elems] at whole
  refine ⟨fun after => whole.mp after.whole, fun cuts => ⟨?_, ?_, whole.mpr cuts⟩⟩
  · dsimp only
    rw [size, elems]
    exact countP_abandonOldest few
  · dsimp only
    rw [elems]
    exact before.ordered.abandonOldest sorted

theorem Orderly.queue (orderly : Orderly usage s) {data : Bytes} (stops : StopsBetween s (.queue data)) :
    Orderly usage (s.step (.queue data)) := by
  have before := orderly.fragmented data
  obtain ⟨follows, unshared⟩ := Flow.abandonStaleFragments_follows (s.fragmented data).flow
  cases usage with
  | data =>
    have none : (s.fragmented data).flow.abandonStaleFragments = (s.fragmented data).flow :=
      if_pos (.inl (by rw [before.kind]; decide))
    rw [step_queue, none]
    exact before
  | audioVideo =>
    have whole := (orderly.abandons_iff data).mpr (stops.2 orderly.kind)
    rw [step_queue] at whole ⊢
    exact ⟨before.sends.of_follows follows unshared, follows.usage.trans before.kind,
      fun m queued => (before.closed m queued).trans follows.nextSn.ge, whole.ordered, whole.whole,
      fun other => by cases other⟩

theorem Orderly.step (orderly : Orderly usage s) {m : SenderMove}
    (stops : StopsBetween s m) : Orderly usage (s.step m) := by
  have erased (acked : Fragment → Bool) : Marked s.flow.fragments.elems (s.flow.eraseAcked acked).1.fragments.elems :=
    .of_subset fun _ member => (List.mem_filter.mp member).1
  cases m with
  | queue data => exact orderly.queue stops
  | look =>
    exact orderly.follows s.flow.getFragmentForSending_follows s.flow.getFragmentForSending_others
      s.flow.getFragmentForSending_marked
  | send tsn =>
    exact orderly.follows (s.flow.sendFragment_follows tsn) (s.flow.sendFragment_others tsn)
      (s.flow.sendFragment_marked tsn)
  | ackUntil seq => exact orderly.follows (s.flow.eraseAcked_follows _) rfl (erased _)
  | ackRange first last => exact orderly.follows (s.flow.eraseAcked_follows _) rfl (erased _)
  | nak maxTsn =>
    exact orderly.follows (s.flow.updateNakCount_follows maxTsn) rfl (s.flow.updateNakCount_marked maxTsn)
  | timeout =>
    exact orderly.follows s.flow.onTimeoutAlarm_follows rfl
      ((Marked.of_subset fun _ member => member).map (fun _ => rfl) fun _ => rfl)

/-- A reliable flow never abandons anything. A live flow that has always been able to stop
between messages abandons whole messages, the oldest first, as long as it can. -/
theorem stale_messages_whole {usage : Usage} {s : Sender} (reach : Reach step StopsBetween (fresh usage) s) :
    (usage = .data → ∀ g ∈ s.flow.fragments, g.abandoned = false) ∧
      (usage = .audioVideo → ∀ data : Bytes, data.length < 2 ^ 32 →
        ((s.step (.queue data)).AbandonsWhole ↔ StopsBetween s (.queue data))) := by
  have orderly := reach.invariant (I := Orderly usage) (orderly_fresh usage) fun stops orderly => orderly.step stops
  refine ⟨orderly.plain, ?_⟩
  rintro rfl data short
  rw [orderly.abandons_iff]
  exact ⟨fun cuts => ⟨short, fun _ => cuts⟩, fun stops => stops.2 orderly.kind⟩

/-- A message that fits is buffered behind the others under the next numbers, and nothing of it is abandoned. -/
theorem fragmented_elems (sends : s.flow.Sends) {data : Bytes} (short : data.length ≤ Flow.eMaxMessageSize)
    (room : s.flow.TakesAll (Flow.pieces data.length) data.length) :
    (s.fragmented data).flow.fragments.elems.map Fragment.seq =
        s.flow.fragments.elems.map Fragment.seq ++ List.range' s.flow.nextSn (Flow.pieces data.length) ∧
      (s.fragmented data).flow.fragments.elems.countP Fragment.abandoned =
        s.flow.fragments.elems.countP Fragment.abandoned := by
  have stored := sends.listed_enqueues (Flow.cut data)
  rw [(sends.accepted_cut_iff short).mpr room] at stored
  have numbers := congrArg (List.map Prod.fst) stored
  rw [List.map_append, Flow.numbered_fst, Flow.length_cut short, Flow.listed, Flow.listed, List.map_map,
    List.map_map] at numbers
  obtain ⟨new, elems, plain⟩ := sends.enqueues_elems (Flow.cut data)
  refine ⟨numbers, ?_⟩
  rw [show (s.fragmented data).flow.fragments.elems = _ from elems, List.countP_append, Nat.add_eq_left]
  exact List.countP_eq_zero.mpr fun g member => by simp [(plain g member).1]

/-- The fragment at a place of the buffer, by its number. -/
theorem seq_of_place {l : List Fragment} {numbers : List Nat} (numbered : l.map Fragment.seq = numbers) {i n : Nat}
    (place : numbers[i]? = some n) {g : Fragment} (found : l[i]? = some g) : g.seq = n := by
  rw [← numbered, List.getElem?_map, found] at place
  exact Option.some.inj place

/-- Behind a short message one of 256 fragments is queued, and the short one is abandoned. -/
theorem stale_messages_whole_between :
    ∃ data : Bytes, let s := ((fresh .audioVideo).step (.queue [7])).step (.queue data)
      s.AbandonsWhole ∧ 0 < s.flow.fragments.elems.countP Fragment.abandoned ∧
        ∀ g ∈ ((fresh .data).step (.queue data)).flow.fragments, g.abandoned = false := by
  obtain ⟨data, length⟩ : ∃ data : Bytes, data.length = 256 * 1160 := ⟨List.replicate _ 0, List.length_replicate⟩
  have short : data.length ≤ Flow.eMaxMessageSize := length ▸ (by decide)
  have fits : data.length < 2 ^ 32 := length ▸ (by decide)
  have one : Reach step StopsBetween (fresh .audioVideo) ((fresh .audioVideo).step (.queue [7])) :=
    Reach.start.next (SenderMove.queue [7]) ⟨by decide, fun _ => .inl (Nat.zero_le _)⟩
  have sends : ((fresh .audioVideo).step (.queue [7])).flow.Sends := Sender.sends_step (Flow.sends_fresh _) _
  obtain ⟨numbered, _⟩ := fragmented_elems sends short (by rw [length]; unfold Flow.TakesAll; decide)
  have held : ((fresh .audioVideo).step (.queue [7])).flow.fragments.elems.map Fragment.seq = [1] := by decide
  have start : ((fresh .audioVideo).step (.queue [7])).flow.nextSn = 2 := by decide
  have count : Flow.pieces (256 * 1160) = 256 := by decide
  rw [held, start, length, count] at numbered
  have size : (((fresh .audioVideo).step (.queue [7])).fragmented data).flow.fragments.elems.length = 257 := by
    rw [← List.length_map Fragment.seq, numbered, List.length_append, List.length_range', List.length_singleton]
  have stale : (((fresh .audioVideo).step (.queue [7])).fragmented data).flow.stale = 1 := by
    rw [Flow.stale, SortedBy.size, size]
    rfl
  have whole := ((stale_messages_whole one).2 rfl data fits).mpr ⟨fits, fun _ => ?_⟩
  · have queued : Reach step StopsBetween (fresh .data) ((fresh .data).step (.queue data)) :=
      Reach.start.next (SenderMove.queue data) ⟨fits, fun live => by cases live⟩
    refine ⟨data, whole, ?_, (stale_messages_whole queued).1 rfl⟩
    have enough := whole.enough
    rw [step_queue] at enough ⊢
    rw [← Flow.length_listed, Flow.listed_abandonStaleFragments, Flow.length_listed, SortedBy.size, size] at enough
    exact enough
  · rw [stale]
    refine .inr fun g h first second m member => ?_
    have last : g.seq = 1 := seq_of_place numbered rfl first
    have next : h.seq = 2 := seq_of_place numbered rfl second
    have messages : m = (1, 2) ∨ m = (2, 2 + (Flow.cut data).length) := by
      rcases List.mem_append.mp member with old | new
      · exact .inl (List.mem_singleton.mp old)
      · exact .inr (List.mem_singleton.mp new)
    rcases messages with rfl | rfl <;> dsimp only <;> omega

/-- One message of 257 fragments is left with its first fragment abandoned. -/
theorem half_abandoned :
    ∃ s data, Reachable .audioVideo s ∧ data.length < 2 ^ 32 ∧ ¬ (s.step (.queue data)).AbandonsWhole := by
  obtain ⟨data, length⟩ : ∃ data : Bytes, data.length = 257 * 1160 := ⟨List.replicate _ 0, List.length_replicate⟩
  have short : data.length ≤ Flow.eMaxMessageSize := length ▸ (by decide)
  refine ⟨fresh .audioVideo, data, .start, length ▸ (by decide), ?_⟩
  obtain ⟨numbered, none⟩ := fragmented_elems (Flow.sends_fresh .audioVideo) short
    (by rw [length]; unfold Flow.TakesAll; decide)
  have pieces : Flow.pieces data.length = 257 := by
    rw [length]
    decide
  rw [pieces] at numbered
  have size : ((fresh .audioVideo).fragmented data).flow.fragments.elems.length = 257 := by
    rw [← List.length_map Fragment.seq, numbered, List.length_append, List.length_range']
    rfl
  have stale : ((fresh .audioVideo).fragmented data).flow.stale = 1 := by
    rw [Flow.stale, SortedBy.size, size]
    rfl
  rw [(orderly_fresh .audioVideo).abandons_iff, stale]
  rintro (enough | between)
  · rw [none] at enough
    cases enough
  · obtain ⟨g, first⟩ : ∃ g, ((fresh .audioVideo).fragmented data).flow.fragments.elems[0]? = some g :=
      ⟨_, List.getElem?_eq_getElem (by omega)⟩
    obtain ⟨h, second⟩ : ∃ h, ((fresh .audioVideo).fragmented data).flow.fragments.elems[1]? = some h :=
      ⟨_, List.getElem?_eq_getElem (by omega)⟩
    have one : g.seq = 1 := seq_of_place numbered rfl first
    have two : h.seq = 2 := seq_of_place numbered rfl second
    have count : (Flow.cut data).length = 257 := (Flow.length_cut short).trans pieces
    refine between g h first second (1, 1 + (Flow.cut data).length)
      (List.mem_append_right _ (List.mem_singleton.mpr rfl)) ?_
    dsimp only
    omega

end Sender
end Fms.Rtmfp
