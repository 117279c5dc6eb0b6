import Fms.Rtmfp.Delivery
import Fms.Rtmfp.RangeAcks

namespace Fms.Rtmfp
open ByteWire Segments Transition SeqManager

variable {front rest : List Fragment} {s : Net} {c : UserData} {tx : Flow} {a : Action}

/-- The messages taken are the first queued ones, and the buffer holds exactly what has
been received of the others. -/
def Assembled (queued taken : List Bytes) (rx : Flow) (R : Set Nat) : Prop :=
  ∃ done ≤ queued.length, taken = queued.take done ∧
    (stream (queued.take done)).length ≤ rx.seqManager.csn ∧
    ∀ n, (∃ g ∈ rx.fragments, g.seq = n) ↔ n ∈ R ∧ (stream (queued.take done)).length < n

/-- In a buffer without holes up to `csn` the fragments at the front are numbered one after
the other. -/
theorem numbered_of_contiguous {l : List Fragment} {floor csn : Nat} (sorted : l.Pairwise fun g h => g.seq < h.seq)
    (above : ∀ g ∈ l, floor < g.seq) (full : ∀ n, floor < n → n ≤ csn → ∃ g ∈ l, g.seq = n)
    (split : l = front ++ rest)
    (low : ∀ g ∈ front, g.seq ≤ csn) : front.map Fragment.seq = List.range' (floor + 1) front.length := by
  induction front generalizing l floor with
  | nil => rfl
  | cons g front ih =>
    subst split
    obtain ⟨higher, later⟩ := List.pairwise_cons.mp sorted
    have lower := above g (List.mem_cons_self ..)
    have below := low g (List.mem_cons_self ..)
    obtain ⟨h, member, value⟩ := full (floor + 1) (Nat.lt_succ_self _) (by omega)
    have first : g.seq = floor + 1 := by
      rcases List.mem_cons.mp member with rfl | tail
      · exact value
      · have := higher h tail
        omega
    have tail := ih later (fun h member => first ▸ higher h member) (fun n beyond upper => ?_) rfl
      fun h member => low h (List.mem_cons_of_mem _ member)
    · rw [List.map_cons, List.length_cons, List.range'_succ, first, tail]
    · obtain ⟨h, member, value⟩ := full n (by omega) upper
      refine ⟨h, (List.mem_cons.mp member).resolve_left fun same => ?_, value⟩
      rw [same] at value
      omega

theorem stream_drop_take {queued : List Bytes} {done : Nat} (more : done < queued.length) :
    (stream queued).drop (stream (queued.take done)).length =
      Flow.cut queued[done] ++ stream (queued.drop (done + 1)) := by
  have split : stream queued = stream (queued.take done) ++ stream (queued.drop done) := by
    unfold stream
    rw [← List.flatMap_append, List.take_append_drop]
  rw [split, List.drop_left, List.drop_eq_getElem_cons more]
  rfl

section front
variable {queued taken : List Bytes} {f g : Flow} {R : Set Nat} {done : Nat}

/-- The fragments at the front of the buffer, at or below the cumulative number, are the
next part of the stream. -/
theorem front_numbered (tracks : Tracks f.seqManager R)
    (buffer : ∀ n, (∃ g ∈ f.fragments, g.seq = n) ↔ n ∈ R ∧ (stream (queued.take done)).length < n)
    (split : f.fragments.elems = front ++ rest) (low : ∀ g ∈ front, g.seq ≤ f.seqManager.csn) :
    front.map Fragment.seq = List.range' ((stream (queued.take done)).length + 1) front.length :=
  numbered_of_contiguous f.fragments.sorted (fun g member => ((buffer g.seq).mp ⟨g, member, rfl⟩).2)
    (fun n lower upper => (buffer n).mpr ⟨tracks.below n (by omega) upper, lower⟩) split low

theorem front_in_stream (tracks : Tracks f.seqManager R) (holds : Holds (stream queued) f.fragments)
    (bound : done ≤ queued.length)
    (buffer : ∀ n, (∃ g ∈ f.fragments, g.seq = n) ↔ n ∈ R ∧ (stream (queued.take done)).length < n) {h : Fragment}
    (split : f.fragments.elems = h :: front ++ rest) (low : ∀ g ∈ h :: front, g.seq ≤ f.seqManager.csn) :
    ∃ m ∈ queued, ∃ after after', Flow.cut m ++ after = (h :: front).map Fragment.part ++ after' := by
  have numbered := front_numbered tracks buffer split low
  have carried : ∀ g ∈ h :: front, Carries (stream queued) g.seq g.part := by
    intro g member
    refine holds g (show g ∈ f.fragments.elems from ?_)
    rw [split]
    exact List.mem_append_left _ member
  have here := drop_eq_of_numbered (Nat.le_add_left 1 _) numbered carried
  rw [Nat.add_sub_cancel] at here
  have more : done < queued.length := by
    refine Nat.lt_of_le_of_ne bound fun all => ?_
    rw [all, List.take_length, List.drop_length] at here
    cases here
  rw [stream_drop_take more] at here
  exact ⟨_, List.getElem_mem more, _, _, here⟩

variable (short : ∀ m ∈ queued, m.length ≤ Flow.eMaxMessageSize) (tracks : Tracks f.seqManager R)
  (holds : Holds (stream queued) f.fragments)

include short tracks holds in
/-- The buffer never starts with a fragment whose message has been begun before. -/
theorem front_opens (bound : done ≤ queued.length)
    (buffer : ∀ n, (∃ g ∈ f.fragments, g.seq = n) ↔ n ∈ R ∧ (stream (queued.take done)).length < n) {h : Fragment}
    (split : f.fragments.elems = h :: rest) (low : h.seq ≤ f.seqManager.csn) : h.fragCtrl.opens = true := by
  have alone : f.fragments.elems = h :: [] ++ rest := split
  obtain ⟨m, member, after, after', here⟩ := front_in_stream tracks holds bound buffer alone
    fun g member => List.mem_singleton.mp member ▸ low
  have splits := Flow.cut_splits (short m member)
  obtain ⟨c, parts, cut⟩ := List.exists_cons_of_ne_nil splits.ne_nil
  rw [cut] at here splits
  obtain ⟨rfl, _⟩ := List.cons.inj here
  have opening : Splits m ([] ++ h.part :: parts) := splits
  exact opening.opens_iff.mpr rfl

include short tracks holds in
theorem Assembled.message (assembled : Assembled queued taken f R) {m : Bytes} (found : f.messageData = (some m, g)) :
    Assembled queued (taken ++ [m]) g.removeLastMessage R := by
  obtain ⟨done, bound, rfl, passed, buffer⟩ := assembled
  obtain ⟨⟨stale, run, split, old, splits, low⟩, same⟩ := Flow.messageData_some found
  obtain rfl : stale = [] := by
    cases stale with
    | nil => rfl
    | cons h stale =>
      obtain ⟨closes, below⟩ := old h (List.mem_cons_self ..)
      cases (front_opens short tracks holds bound buffer split below).symm.trans closes
  rw [List.nil_append] at split
  have numbered := front_numbered tracks buffer split low
  have carried : ∀ h ∈ run, Carries (stream queued) h.seq h.part := by
    intro h member
    refine holds h (show h ∈ f.fragments.elems from ?_)
    rw [split]
    exact List.mem_append_left _ member
  obtain ⟨earlier, later, rfl, position, parts⟩ := run_is_message short numbered carried splits
  have next : earlier.length = done := by
    have here : stream earlier = stream ((earlier ++ m :: later).take earlier.length) := by rw [List.take_left]
    rcases Nat.lt_trichotomy earlier.length done with less | same | more
    · have := stream_take_lt short less bound
      rw [← here] at this
      omega
    · exact same
    · have := stream_take_lt short more (by simp)
      rw [← here] at this
      omega
  subst next
  rw [List.take_left] at position buffer numbered passed ⊢
  have upTo : (earlier ++ m :: later).take (earlier.length + 1) = earlier ++ [m] := by
    rw [List.take_length_add_append]
    rfl
  have floor : (stream (earlier ++ [m])).length = (stream earlier).length + run.length := by
    rw [stream_append_singleton, List.length_append, ← parts, List.length_map]
  have seqs (n : Nat) : (∃ h ∈ run, h.seq = n) ↔ (stream earlier).length < n ∧
      n ≤ (stream earlier).length + run.length := by
    rw [← List.mem_map, numbered, List.mem_range'_1]
    omega
  have some : 0 < run.length := List.length_pos_iff.mpr fun none => splits.ne_nil (by rw [none]; rfl)
  refine ⟨earlier.length + 1, by simp, by rw [upTo], ?_, fun n => ?_⟩
  · obtain ⟨last, member, value⟩ := (seqs ((stream earlier).length + run.length)).mpr ⟨by omega, Nat.le_refl _⟩
    rw [upTo, floor, same.seqManager, ← value]
    exact low last member
  · have whole : (∃ h ∈ f.fragments, h.seq = n) ↔ (∃ h ∈ run, h.seq = n) ∨
        ∃ h ∈ g.removeLastMessage.fragments, h.seq = n := by
      show (∃ h ∈ f.fragments.elems, h.seq = n) ↔ _ ∨ ∃ h ∈ g.removeLastMessage.fragments.elems, h.seq = n
      rw [split]
      simp only [List.mem_append, or_and_right, exists_or]
    have behind (h : Fragment) (member : h ∈ g.removeLastMessage.fragments) :
        (stream earlier).length + run.length < h.seq := by
      obtain ⟨last, inRun, value⟩ := (seqs ((stream earlier).length + run.length)).mpr ⟨by omega, Nat.le_refl _⟩
      have sorted := f.fragments.sorted
      rw [split] at sorted
      exact value ▸ (List.pairwise_append.mp sorted).2.2 last inRun h member
    rw [upTo, floor]
    constructor
    · rintro ⟨h, member, rfl⟩
      exact ⟨((buffer h.seq).mp (whole.mpr (.inr ⟨h, member, rfl⟩))).1, behind h member⟩
    · rintro ⟨received, beyond⟩
      refine (whole.mp ((buffer n).mpr ⟨received, by omega⟩)).resolve_left fun inRun => ?_
      have := ((seqs n).mp inRun).2
      omega

/-- Behind a first fragment and middle ones no message opens in the stream. -/
theorem not_torn {csn : Nat} {m : Bytes} {parts after after' : List (FragCtrl × Bytes)} (splits : Splits m parts)
    {i q : Fragment} {mids : List Fragment} (first : i.fragCtrl = .first) (inner : Flow.Inner csn mids)
    (here : parts ++ after = (i :: (mids ++ [q])).map Fragment.part ++ after') : q.fragCtrl.opens = false := by
  rw [List.map_cons, List.map_append, inner.parts, List.map_singleton, List.cons_append, List.append_assoc,
    List.singleton_append] at here
  cases splits with
  | whole =>
    obtain ⟨head, _⟩ := List.cons.inj here
    cases (congrArg Prod.fst head).trans first
  | pieces _ =>
    rw [List.append_assoc, List.cons_append, List.singleton_append] at here
    exact (middles_append_cons (List.cons.inj here).2).1

include short tracks holds in
theorem Assembled.nothing (assembled : Assembled queued taken f R) (found : f.messageData = (none, g)) :
    Assembled queued taken g R := by
  obtain ⟨done, bound, taken, passed, buffer⟩ := assembled
  obtain ⟨nothing, same⟩ := Flow.messageData_none found
  have kept : g.fragments.elems = f.fragments.elems := by
    rcases Flow.scan_nothing nothing with same | ⟨h, tail, split, closes, low⟩ |
      ⟨i, mids, q, tail, split, first, low, inner, opens, below⟩
    · exact same
    · cases (front_opens short tracks holds bound buffer split low).symm.trans closes
    · have run : f.fragments.elems = i :: (mids ++ [q]) ++ tail := by
        rw [split]
        simp
      have lows : ∀ g ∈ i :: (mids ++ [q]), g.seq ≤ f.seqManager.csn := by
        intro g member
        rw [List.mem_cons, List.mem_append, List.mem_singleton] at member
        rcases member with rfl | middle | rfl
        · exact low
        · exact (inner g middle).2
        · exact below
      obtain ⟨m, member, after, after', here⟩ := front_in_stream tracks holds bound buffer run lows
      cases (not_torn (Flow.cut_splits (short m member)) first inner here).symm.trans opens
  refine ⟨done, bound, taken, by rwa [same.seqManager], fun n => ?_⟩
  rw [← buffer n]
  show (∃ h ∈ g.fragments.elems, h.seq = n) ↔ ∃ h ∈ f.fragments.elems, h.seq = n
  rw [kept]

include short tracks holds in
theorem Assembled.takeMessages (assembled : Assembled queued taken f R) (fuel : Nat) :
    Assembled queued (taken ++ (f.takeMessages fuel).1) (f.takeMessages fuel).2 R := by
  refine (Flow.takeMessages_rule (I := fun taken f => Tracks f.seqManager R ∧ Holds (stream queued) f.fragments ∧
    Assembled queued taken f R) ?_ ?_ fuel taken ⟨tracks, holds, assembled⟩).2.2
  · rintro taken f m g found ⟨tracks, holds, assembled⟩
    obtain ⟨⟨stale, run, split, _⟩, same⟩ := Flow.messageData_some found
    refine ⟨same.seqManager ▸ tracks, fun h member => holds h ?_, assembled.message short tracks holds found⟩
    show h ∈ f.fragments.elems
    rw [split]
    exact List.mem_append_right _ (List.mem_append_right _ member)
  · rintro taken f g found ⟨tracks, holds, assembled⟩
    obtain ⟨nothing, same⟩ := Flow.messageData_none found
    have suffix := Flow.scan_suffix f.seqManager.csn f.fragments.elems
    rw [nothing] at suffix
    exact ⟨same.seqManager ▸ tracks, fun h member => holds h (suffix.subset member),
      assembled.nothing short tracks holds found⟩

theorem Assembled.queue (assembled : Assembled queued taken f R) (data : Bytes) :
    Assembled (queued ++ [data]) taken f R := by
  obtain ⟨done, bound, taken, passed, buffer⟩ := assembled
  have same : (queued ++ [data]).take done = queued.take done := List.take_append_of_le_length bound
  refine ⟨done, by rw [List.length_append]; omega, ?_, ?_, ?_⟩
  · rwa [same]
  · rwa [same]
  · rwa [same]

/-- An arrival that is not refused goes into the buffer, above everything taken so far. -/
theorem Assembled.arrival (assembled : Assembled queued taken f R) {frag : Fragment}
    (above : f.seqManager.csn < frag.seq) {seqManager : SeqManager} (grows : f.seqManager.csn ≤ seqManager.csn) :
    Assembled queued taken { f with seqManager, fragments := f.fragments.assign frag } (insert frag.seq R) := by
  obtain ⟨done, bound, taken, passed, buffer⟩ := assembled
  refine ⟨done, bound, taken, passed.trans grows, fun n => ?_⟩
  have stored : (∃ g ∈ f.fragments.assign frag, g.seq = n) ↔ n = frag.seq ∨ ∃ g ∈ f.fragments, g.seq = n := by
    constructor
    · rintro ⟨g, member, rfl⟩
      rcases SortedBy.mem_assign.mp member with rfl | ⟨old, _⟩
      · exact .inl rfl
      · exact .inr ⟨g, old, rfl⟩
    · intro either
      by_cases same : n = frag.seq
      · exact ⟨frag, SortedBy.mem_assign.mpr (.inl rfl), same.symm⟩
      · obtain ⟨g, old, rfl⟩ := either.resolve_left same
        exact ⟨g, SortedBy.mem_assign.mpr (.inr ⟨old, same⟩), rfl⟩
  show (∃ g ∈ f.fragments.assign frag, g.seq = n) ↔ _
  rw [stored, buffer n, Set.mem_insert_iff]
  constructor
  · rintro (rfl | ⟨received, beyond⟩)
    · exact ⟨.inl rfl, by omega⟩
    · exact ⟨.inr received, beyond⟩
  · rintro ⟨rfl | received, beyond⟩
    · exact .inl rfl
    · exact .inr ⟨received, beyond⟩

end front

theorem addSequencesUntil_of_le {s : SeqManager} {val : Nat}
    (behind : val ≤ s.csn) : s.addSequencesUntil val = s := by
  rw [addSequencesUntil, if_neg (Nat.not_lt_of_le behind)]

variable {R : Set Nat} {f : Flow}

/-- A chunk of a reliable flow either rejects the flow or adds at most its own number to
what has been received. -/
theorem Flow.receive_reliable {queued taken : List Bytes} (receiver : f.role = .receiver)
    (isOpen : f.state = .isOpen) (tracks : Tracks f.seqManager R) (assembled : Assembled queued taken f R)
    (plain : c.data.shouldAbandon = false) (behind : c.forwardSeqNumber ≤ f.seqManager.csn) :
    (f.receive c).role = .receiver ∧ ((f.receive c).state = .isOpen →
      ∃ R', R ⊆ R' ∧ Tracks (f.receive c).seqManager R' ∧ Assembled queued taken (f.receive c) R' ∧
        f.seqManager.csn ≤ (f.receive c).seqManager.csn) := by
  obtain ⟨_, grows, higher⟩ := addSeq_ordered (fun n member => (tracks.inside n member).1) c.seqNumber
  have stays {g : Flow} (csn : f.seqManager.csn ≤ g.seqManager.csn) : g.addSequencesUntil c.forwardSeqNumber = g := by
    rw [Flow.addSequencesUntil, addSequencesUntil_of_le (behind.trans csn)]
  unfold Flow.receive
  simp only [plain, isOpen, Bool.not_false, decide_true, Bool.and_self, if_true]
  have added := f.added { seq := c.seqNumber, data := c.data.userData, fragCtrl := .ofByte c.data.fragCtl }
  generalize (f.addFragment _).1 = g at added ⊢
  cases added with
  | refused _ sender => cases receiver.symm.trans sender
  | rejected => exact ⟨receiver, fun still => (by cases still)⟩
  | duplicate _ duplicate =>
    rcases tracks.addSeq c.seqNumber with ⟨_, same⟩ | ⟨accepted, _⟩
    · rw [stays grows, same]
      exact ⟨receiver, fun _ => ⟨R, subset_rfl, tracks, assembled, Nat.le_refl _⟩⟩
    · exact absurd duplicate accepted
  | stored _ accepted =>
    rcases tracks.addSeq c.seqNumber with ⟨duplicate, _⟩ | ⟨_, next⟩
    · exact absurd duplicate accepted
    · rw [stays grows]
      exact ⟨receiver, fun _ => ⟨_, Set.subset_insert _ _, next, assembled.arrival (higher accepted) grows, grows⟩⟩

theorem addSeq_duplicate {s : SeqManager} {val : Nat} (duplicate : (s.addSeq val).2 = .duplicate) :
    (val ≤ s.csn ∨ val - s.csn > eMaxGap ∨ val > eMaxCsn ∨ val ∈ s.sequences) ∨
      s.missing.size + (val - s.csn) > eMaxMissing := by
  unfold addSeq at duplicate
  split at duplicate
  · rename_i refused
    exact .inl refused
  · split at duplicate
    · rename_i refused
      exact .inr refused
    · split at duplicate
      · dsimp only at duplicate
        split at duplicate
        · cases duplicate
        · split at duplicate <;> cases duplicate
      · dsimp only at duplicate
        split at duplicate <;> cases duplicate

/-- The numbers a flow has given out, up to the largest one the manager takes. -/
def given (next : Nat) : Set Nat := fun n => 1 ≤ n ∧ n < next ∧ n ≤ eMaxCsn

theorem accepts_next {s : SeqManager} {next : Nat} (tracks : Tracks s (given next)) (positive : 1 ≤ next)
    (limit : next ≤ eMaxCsn) : (s.addSeq next).2 ≠ .duplicate := by
  have csn : s.csn + 1 = next := by
    have lower : s.csn < next := by
      by_contra beyond
      have := (tracks.below next positive (Nat.le_of_not_lt beyond)).2.1
      omega
    by_contra different
    exact tracks.next rfl ((tracks.above _ (Nat.lt_succ_self _)).mp ⟨by omega, by omega, by omega⟩)
  have empty (n : Nat) : n ∉ s.sequences := fun member => by
    have above := (tracks.inside n member).1
    have := ((tracks.above n above).mpr member).2.1
    omega
  have noHoles : s.missing.size = 0 := by
    refine List.length_eq_zero_iff.mpr (List.eq_nil_iff_forall_not_mem.mpr fun n member => ?_)
    obtain ⟨_, _, m, received, _⟩ := (tracks.holes n).mp member
    exact empty m received
  intro duplicate
  rcases addSeq_duplicate duplicate with (low | far | high | here) | crowded
  · omega
  · unfold eMaxGap at far
    omega
  · omega
  · exact empty next here
  · unfold eMaxMissing at crowded
    omega

/-- What the sender of a reliable flow still holds: everything given out that has not been
received. -/
structure Backlog (tx : Flow) (R : Set Nat) : Prop where
  role : tx.role = .sender
  usage : tx.usage = .data
  positive : 1 ≤ tx.nextSn
  numbered : Tracks tx.seqManager (given tx.nextSn)
  plain : ∀ g ∈ tx.fragments, g.abandoned = false
  inside : ∀ g ∈ tx.fragments, g.seq ∈ given tx.nextSn
  unacked : ∀ n ∈ given tx.nextSn, (∃ g ∈ tx.fragments, g.seq = n) ∨ n ∈ R

theorem Backlog.mono {R R' : Set Nat} (backlog : Backlog tx R) (more : R ⊆ R') : Backlog tx R' :=
  { backlog with unacked := fun n out => (backlog.unacked n out).imp id fun received => more received }

theorem Flow.enqueue_eq (part : FragCtrl × Bytes) (room : f.isFull part.2.length = false)
    (accepted : (f.seqManager.addSeq f.nextSn).2 ≠ .duplicate) :
    f.enqueue part = { f with
      nextSn := f.nextSn + 1
      seqManager := (f.seqManager.addSeq f.nextSn).1
      fragments := f.fragments.assign { seq := f.nextSn, data := part.2, fragCtrl := part.1 } } := by
  unfold Flow.enqueue
  have added := Flow.added { f with nextSn := f.nextSn + 1 } { seq := f.nextSn, data := part.2, fragCtrl := part.1 }
  generalize (Flow.addFragment _ _).1 = g at added ⊢
  cases added with
  | refused full => cases room.symm.trans full
  | rejected full => cases room.symm.trans full
  | duplicate _ duplicate => exact absurd duplicate accepted
  | stored => rfl

/-- With room in the buffer the next fragment is stored under the next number, as long as
there are numbers. -/
theorem Flow.enqueue_stored (numbered : Tracks tx.seqManager (given tx.nextSn)) (positive : 1 ≤ tx.nextSn)
    (limit : tx.nextSn ≤ eMaxCsn) (part : FragCtrl × Bytes) (room : tx.isFull part.2.length = false) :
    tx.enqueue part = { tx with
      nextSn := tx.nextSn + 1
      seqManager := (tx.seqManager.addSeq tx.nextSn).1
      fragments := tx.fragments.assign { seq := tx.nextSn, data := part.2, fragCtrl := part.1 } } ∧
      Tracks (tx.seqManager.addSeq tx.nextSn).1 (given (tx.nextSn + 1)) := by
  have accepted := accepts_next numbered positive limit
  refine ⟨Flow.enqueue_eq part room accepted, ?_⟩
  rcases numbered.addSeq tx.nextSn with ⟨duplicate, _⟩ | ⟨_, next⟩
  · exact absurd duplicate accepted
  · refine next.congr fun n lower => ⟨fun out => ?_, fun either => either.elim (fun same => ?_) fun out => ?_⟩
    · by_cases same : n = tx.nextSn
      · exact .inl same
      · exact .inr ⟨lower, by have := out.2.1; omega, out.2.2⟩
    · exact ⟨lower, by omega, by omega⟩
    · exact ⟨lower, by have := out.2.1; omega, out.2.2⟩

theorem Flow.enqueue_exhausted (beyond : eMaxCsn < tx.nextSn) {part : FragCtrl × Bytes}
    (room : tx.isFull part.2.length = false) : tx.enqueue part = { tx with nextSn := tx.nextSn + 1 } := by
  have refused : tx.seqManager.addSeq tx.nextSn = (tx.seqManager, .duplicate) := by
    rw [addSeq, if_pos (.inr (.inr (.inl beyond)))]
  have room' : { tx with nextSn := tx.nextSn + 1 }.isFull part.2.length = false := room
  simp only [Flow.enqueue, Flow.addFragment, room', Bool.false_eq_true, if_false, refused]

theorem Backlog.enqueue (backlog : Backlog tx R) {part : FragCtrl × Bytes}
    (room : tx.isFull part.2.length = false) : Backlog (tx.enqueue part) R := by
  have earlier (n : Nat) (out : n ∈ given tx.nextSn) : n ∈ given (tx.nextSn + 1) :=
    ⟨out.1, by have := out.2.1; omega, out.2.2⟩
  by_cases limit : tx.nextSn ≤ eMaxCsn
  · obtain ⟨stored, numbered⟩ := Flow.enqueue_stored backlog.numbered backlog.positive limit _ room
    rw [stored]
    refine ⟨backlog.role, backlog.usage, Nat.le_add_left _ _, numbered, fun g member => ?_, fun g member => ?_,
      fun n out => ?_⟩
    · rcases SortedBy.mem_assign.mp member with rfl | ⟨old, _⟩
      · rfl
      · exact backlog.plain g old
    · rcases SortedBy.mem_assign.mp member with rfl | ⟨old, _⟩
      · exact ⟨backlog.positive, Nat.lt_succ_self _, limit⟩
      · exact earlier _ (backlog.inside g old)
    · by_cases newest : n = tx.nextSn
      · exact .inl ⟨_, SortedBy.mem_assign.mpr (.inl rfl), newest.symm⟩
      · have old : n ∈ given tx.nextSn := ⟨out.1, by have := out.2.1; dsimp only at this; omega, out.2.2⟩
        refine (backlog.unacked n old).imp (fun ⟨g, member, value⟩ => ?_) id
        exact ⟨g, SortedBy.mem_assign.mpr (.inr ⟨member, value ▸ newest⟩), value⟩
  · rw [Flow.enqueue_exhausted (Nat.lt_of_not_le limit) room]
    have nothing (n : Nat) : n ∈ given (tx.nextSn + 1) ↔ n ∈ given tx.nextSn :=
      ⟨fun out => ⟨out.1, by have := out.2.2; omega, out.2.2⟩, earlier n⟩
    exact ⟨backlog.role, backlog.usage, Nat.le_add_left _ _, backlog.numbered.congr fun n _ =>
      nothing n, backlog.plain,
      fun g member => earlier _ (backlog.inside g member), fun n out => backlog.unacked n ((nothing n).mp out)⟩

/-- Queueing a message that no buffer bound refuses. -/
theorem Backlog.queue (backlog : Backlog tx R) {data : Bytes}
    (room : tx.refusesAny (Flow.cut data) = false) :
    Backlog (tx.addAndFragmentData data) R := by
  have parts (l : List (FragCtrl × Bytes)) {tx : Flow} (backlog : Backlog tx R) (room : tx.refusesAny l = false) :
      Backlog (l.foldl Flow.enqueue tx) R := by
    induction l generalizing tx with
    | nil => exact backlog
    | cons part l ih =>
      rw [Flow.refusesAny, Bool.or_eq_false_iff] at room
      exact ih (backlog.enqueue room.1) room.2
  have queued := parts _ backlog room
  have reliable : (tx.addAndFragmentData data) = (Flow.cut data).foldl Flow.enqueue tx := by
    rw [Flow.addAndFragmentData, Flow.abandonStaleFragments, queued.usage, if_pos (.inl (by decide))]
  rwa [reliable]

/-- Between two states of a sender only numbers that have been received are gone. -/
structure Keeps (R : Set Nat) (f g : Flow) : Prop where
  follows : Flow.Follows f g
  flags : ∀ y ∈ g.fragments, ∃ x ∈ f.fragments, y.seq = x.seq ∧ y.abandoned = x.abandoned
  rest : ∀ x ∈ f.fragments, x.seq ∈ R ∨ ∃ y ∈ g.fragments, y.seq = x.seq

theorem Keeps.trans {f g h : Flow} (first : Keeps R f g) (second : Keeps R g h) : Keeps R f h where
  follows := first.follows.trans second.follows
  flags z member := by
    obtain ⟨y, inside, seq, flag⟩ := second.flags z member
    obtain ⟨x, inside', seq', flag'⟩ := first.flags y inside
    exact ⟨x, inside', seq.trans seq', flag.trans flag'⟩
  rest x member := by
    rcases first.rest x member with received | ⟨y, inside, seq⟩
    · exact .inl received
    · rcases second.rest y inside with received | ⟨z, inside', seq'⟩
      · exact .inl (seq ▸ received)
      · exact .inr ⟨z, inside', seq'.trans seq⟩

theorem Backlog.keeps {tx' : Flow} (backlog : Backlog tx R)
    (keeps : Keeps R tx tx') : Backlog tx' R := by
  have next := keeps.follows.nextSn
  refine ⟨keeps.follows.role.trans backlog.role, keeps.follows.usage.trans backlog.usage, next ▸ backlog.positive, ?_,
    fun y member => ?_, fun y member => ?_, fun n out => ?_⟩
  · rw [keeps.follows.seqManager, next]
    exact backlog.numbered
  · obtain ⟨x, inside, _, flag⟩ := keeps.flags y member
    exact flag.trans (backlog.plain x inside)
  · obtain ⟨x, inside, seq, _⟩ := keeps.flags y member
    rw [seq, next]
    exact backlog.inside x inside
  · rcases backlog.unacked n (next ▸ out) with ⟨x, inside, rfl⟩ | received
    · exact (keeps.rest x inside).symm
    · exact .inr received

theorem Keeps.erase (f : Flow) {acked : Fragment → Bool}
    (received : ∀ x ∈ f.fragments, acked x = true → x.seq ∈ R) : Keeps R f (f.eraseAcked acked).1 where
  follows := f.eraseAcked_follows acked
  flags y member := ⟨y, (SortedBy.mem_filter.mp member).1, rfl, rfl⟩
  rest x member := by
    by_cases gone : acked x = true
    · exact .inl (received x member gone)
    · exact .inr ⟨x, SortedBy.mem_filter.mpr ⟨member, by simpa using gone⟩, rfl⟩

theorem Keeps.update {u : Fragment → Fragment} (same : ∀ x, (u x).seq = x.seq)
    (part : ∀ x, (u x).part = x.part) (flag : ∀ x, (u x).abandoned = x.abandoned) :
    Keeps R f { f with fragments := f.fragments.update u same } where
  follows := ⟨rfl, rfl, rfl, rfl, .update same part⟩
  flags y member := by
    obtain ⟨x, inside, rfl⟩ := (SortedBy.mem_update same).mp member
    exact ⟨x, inside, same x, flag x⟩
  rest x member := .inr ⟨u x, (SortedBy.mem_update same).mpr ⟨x, member, rfl⟩, same x⟩

theorem Keeps.timeout (f : Flow) : Keeps R f f.onTimeoutAlarm :=
  .update (u := fun frag => { frag with inFlight := false }) (fun _ => rfl) (fun _ => rfl) fun _ => rfl

theorem dropAbandoned_plain (size : Nat) {l : List Fragment} (plain : ∀ g ∈ l, g.abandoned = false) :
    Flow.dropAbandoned size l = l := by
  induction l generalizing size with
  | nil => rfl
  | cons g l ih =>
    have tail (size : Nat) := ih size fun h member => plain h (List.mem_cons_of_mem _ member)
    simp only [Flow.dropAbandoned, plain g (List.mem_cons_self ..), Bool.and_false, Bool.false_eq_true,
      if_false, tail, ite_self]

theorem Keeps.take (plain : ∀ g ∈ f.fragments, g.abandoned = false) :
    Keeps R f f.getFragmentForSending.2 := by
  have elems := f.getFragmentForSending_elems
  rw [dropAbandoned_plain _ plain] at elems
  have member (x : Fragment) : x ∈ f.getFragmentForSending.2.fragments ↔ x ∈ f.fragments := by
    show x ∈ f.getFragmentForSending.2.fragments.elems ↔ _
    rw [elems]
    rfl
  exact ⟨f.getFragmentForSending_follows, fun y inside => ⟨y, (member y).mp inside, rfl, rfl⟩,
    fun x inside => .inr ⟨x, (member x).mpr inside, rfl⟩⟩

theorem Keeps.send (plain : ∀ g ∈ f.fragments, g.abandoned = false) (tsn : Nat) :
    Keeps R f (f.sendFragment tsn).2 := by
  have taken := Keeps.take (R := R) plain
  unfold Flow.sendFragment
  split
  · rename_i found
    rwa [found] at taken
  · rename_i frag fsn g found
    rw [found] at taken
    refine taken.trans (.update (fun x => ?_) (fun x => ?_) fun x => ?_)
    · split <;> rfl
    · split <;> rfl
    · split <;> rfl

/-- What an acknowledgement says has been received. -/
def RangeAck.Covered (ack : RangeAck) (R : Set Nat) : Prop :=
  (∀ n, 1 ≤ n → n ≤ ack.cumulativeAck → n ∈ R) ∧
    ∀ r ∈ absoluteRanges ack.cumulativeAck ack.ranges, ∀ n, r.1 ≤ n → n ≤ r.2 → n ∈ R

theorem Keeps.ack {ack : RangeAck} (covered : ack.Covered R)
    (positive : ∀ g ∈ f.fragments, 1 ≤ g.seq) (maxTsnAck : Nat) : Keeps R f (f.handleRangeAck maxTsnAck ack).1 := by
  unfold Flow.handleRangeAck
  refine Keeps.trans ?_ (.update (fun x => ?_) (fun x => ?_) fun x => ?_)
  · refine List.foldlRecOn (motive := fun p : Flow × Nat => Keeps R f p.1)
      _ _ (Keeps.erase f fun x inside acked => ?_)
      fun p keeps range member => keeps.trans (Keeps.erase p.1 fun x _ acked => ?_)
    · simp only [Bool.and_eq_true, decide_eq_true_eq] at acked
      exact covered.1 _ (positive x inside) acked.1
    · simp only [Bool.and_eq_true, decide_eq_true_eq] at acked
      exact covered.2 range member _ acked.1 acked.2
  · split <;> rfl
  · split <;> rfl
  · split <;> rfl

/-- The invariant of a reliable flow, with the numbers received so far. -/
structure Net.Reliable (s : Net) (R : Set Nat) : Prop where
  intact : s.Intact
  short : ∀ m ∈ s.queued, m.length ≤ Flow.eMaxMessageSize
  backlog : Backlog s.tx R
  plain : ∀ c ∈ s.sent, c.data.shouldAbandon = false ∧ c.data.isFinal = false
  behind : ∀ c ∈ s.sent, c.forwardSeqNumber ≤ s.rx.seqManager.csn
  acked : ∀ a ∈ s.acks, a.Covered R
  receiver : s.rx.role = .receiver
  tracks : Tracks s.rx.seqManager R
  assembled : Assembled s.queued s.taken s.rx R

theorem Net.reliable_fresh (others : Nat) : (Net.fresh .data others).Reliable ∅ where
  intact := Net.intact_fresh .data others
  short _ member := by cases member
  backlog := {
    role := rfl
    usage := rfl
    positive := Nat.le_refl _
    numbered := tracks_fresh.congr fun n lower =>
      iff_of_false (fun out => (by have := out.2.1; exact absurd (Nat.lt_of_lt_of_le this lower) (Nat.lt_irrefl _)))
        (Set.notMem_empty n)
    plain := fun _ member => by cases member
    inside := fun _ member => by cases member
    unacked := fun n out => absurd (Nat.lt_of_lt_of_le out.2.1 out.1) (Nat.lt_irrefl _) }
  plain _ member := by cases member
  behind _ member := by cases member
  acked _ member := by cases member
  receiver := rfl
  tracks := tracks_fresh
  assembled := ⟨0, Nat.le_refl _, rfl, Nat.le_refl _, fun n =>
    iff_of_false (fun ⟨_, member, _⟩ => by cases member) fun out => Set.notMem_empty n out.1⟩

/-- All numbers before the oldest fragment of the backlog have been received. -/
theorem Net.Reliable.forward (reliable : s.Reliable R) {oldest : Fragment}
    (elems : s.tx.fragments.elems = oldest :: rest) : oldest.seq - 1 ≤ s.rx.seqManager.csn := by
  have member : oldest ∈ s.tx.fragments := by
    show oldest ∈ s.tx.fragments.elems
    rw [elems]
    exact List.mem_cons_self ..
  have out := reliable.backlog.inside oldest member
  refine reliable.tracks.reports.1.2 fun n lower upper => ?_
  have earlier : n ∈ given s.tx.nextSn := ⟨lower, by have := out.2.1; omega, by have := out.2.2; omega⟩
  refine (reliable.backlog.unacked n earlier).resolve_left fun ⟨g, inside, value⟩ => ?_
  have sorted := s.tx.fragments.sorted
  rw [elems] at sorted
  have inside : g ∈ oldest :: rest := elems ▸ inside
  rcases List.mem_cons.mp inside with rfl | later
  · omega
  · have := (List.pairwise_cons.mp sorted).1 g later
    omega

theorem Net.Reliable.send (reliable : s.Reliable R) : (s.step .send).Reliable R := by
  have intact := reliable.intact.step .send
  have keeps := Keeps.send (R := R) reliable.backlog.plain s.nextTsn
  simp only [Net.step] at intact ⊢
  split at intact
  · rename_i found
    rw [found] at keeps
    exact { reliable with intact, backlog := reliable.backlog.keeps keeps }
  · rename_i chunk tx found
    rw [found] at keeps
    obtain ⟨frag, inside, _, _, abandon, final, oldest, rest, left, forward⟩ := Flow.sendFragment_some found
    rw [dropAbandoned_plain _ reliable.backlog.plain] at left
    have plain : oldest.abandoned = false := by
      refine reliable.backlog.plain oldest (show oldest ∈ s.tx.fragments.elems from ?_)
      rw [left]
      exact List.mem_cons_self ..
    refine { reliable with
      intact
      backlog := reliable.backlog.keeps keeps
      plain := fun c member => ?_
      behind := fun c member => ?_ }
    · rcases List.mem_append.mp member with old | new
      · exact reliable.plain c old
      · rw [List.mem_singleton.mp new]
        exact ⟨abandon.trans (reliable.backlog.plain frag inside), final⟩
    · rcases List.mem_append.mp member with old | new
      · exact reliable.behind c old
      · rw [List.mem_singleton.mp new, forward, Flow.forwardSn, plain]
        exact reliable.forward left

theorem Flow.receive_open (isOpen : (f.receive c).state = .isOpen) : f.state = .isOpen := by
  by_contra closed
  unfold Flow.receive at isOpen
  simp only [closed, decide_false, Bool.and_false, Bool.false_eq_true, if_false] at isOpen
  split at isOpen <;> exact closed isOpen

theorem Flow.handleUserData_open (isOpen : (f.handleUserData c).2.state = .isOpen) :
    f.state = .isOpen := by
  unfold Flow.handleUserData at isOpen
  dsimp only at isOpen
  split at isOpen
  · exact Flow.receive_open isOpen
  · rw [(Flow.takeMessages_suffix _ _).2.state] at isOpen
    exact Flow.receive_open isOpen

theorem Net.step_deliver {i : Nat} (found : s.sent[i]? = some c) :
    s.step (.deliver i) =
      { s with rx := (s.rx.handleUserData c).2, taken := s.taken ++ (s.rx.handleUserData c).1 } := by
  simp only [Net.step, found]

theorem Net.step_deliver_none {i : Nat} (found : s.sent[i]? = none) : s.step (.deliver i) = s := by
  simp only [Net.step, found]

theorem Net.Reliable.deliver (reliable : s.Reliable R) (i : Nat)
    (isOpen : (s.step (.deliver i)).rx.state = .isOpen) : ∃ R', (s.step (.deliver i)).Reliable R' := by
  have intact := reliable.intact.step (.deliver i)
  cases found : s.sent[i]? with
  | none =>
    rw [Net.step_deliver_none found]
    exact ⟨R, reliable⟩
  | some c =>
    rw [Net.step_deliver found] at isOpen intact ⊢
    have member := List.mem_of_getElem? found
    obtain ⟨plain, final⟩ := reliable.plain c member
    have handled : s.rx.handleUserData c = (s.rx.receive c).takeMessages ((s.rx.receive c).fragments.size + 1) := by
      simp only [Flow.handleUserData, final, Bool.false_eq_true, if_false]
    rw [handled] at isOpen intact ⊢
    have same := (Flow.takeMessages_suffix ((s.rx.receive c).fragments.size + 1) (s.rx.receive c)).2
    have received : (s.rx.receive c).state = .isOpen := same.state ▸ isOpen
    obtain ⟨receiver, next⟩ := Flow.receive_reliable reliable.receiver (Flow.receive_open received) reliable.tracks
      reliable.assembled plain (reliable.behind c member)
    obtain ⟨R', more, tracks, assembled, grows⟩ := next received
    have holds := Flow.receive_holds reliable.intact.buffered (reliable.intact.sent c member)
    exact ⟨R', { reliable with
      intact
      backlog := reliable.backlog.mono more
      behind := fun c member => same.seqManager ▸ (reliable.behind c member).trans grows
      acked := fun a member =>
        ⟨fun n lower upper => more ((reliable.acked a member).1 n lower upper),
          fun r inside n lower upper => more ((reliable.acked a member).2 r inside n lower upper)⟩
      receiver := same.role.trans receiver
      tracks := same.seqManager ▸ tracks
      assembled := assembled.takeMessages reliable.short tracks holds _ }⟩

/-- Every message queued fits the 16-bit fragment count. -/
def ShortMessages (_ : Net) : Action → Prop
  | .queue data => data.length ≤ Flow.eMaxMessageSize
  | _ => True

/-- Every step keeps the invariant while no fragment is refused and the receiver stays
open. -/
theorem Net.Reliable.step (reliable : s.Reliable R) (short : ShortMessages s a)
    (room : (s.step a).refused = false) (isOpen : (s.step a).rx.state = .isOpen) : ∃ R', (s.step a).Reliable R' := by
  have intact := reliable.intact.step a
  cases a with
  | queue data =>
    obtain ⟨_, room⟩ := Bool.or_eq_false_iff.mp room
    refine ⟨R, { reliable with
      intact
      short := fun m member => ?_
      backlog := reliable.backlog.queue room
      assembled := reliable.assembled.queue data }⟩
    rcases List.mem_append.mp member with old | new
    · exact reliable.short m old
    · rw [List.mem_singleton.mp new]
      exact short
  | send => exact ⟨R, reliable.send⟩
  | deliver i => exact reliable.deliver i isOpen
  | ack =>
    refine ⟨R, { reliable with intact, acked := fun a member => ?_ }⟩
    rcases List.mem_append.mp member with old | new
    · exact reliable.acked a old
    · rw [List.mem_singleton.mp new]
      exact reliable.tracks.getRangeAck_covers
  | deliverAck i =>
    cases found : s.acks[i]? with
    | none =>
      have same : s.step (.deliverAck i) = s := by simp only [Net.step, found]
      rw [same]
      exact ⟨R, reliable⟩
    | some ack =>
      have covered := reliable.acked ack (List.mem_of_getElem? found)
      have keeps := Keeps.ack covered (fun g member => (reliable.backlog.inside g member).1) s.maxTsnAck
      simp only [Net.step, found] at intact ⊢
      exact ⟨R, { reliable with intact, backlog := reliable.backlog.keeps keeps }⟩
  | timeout =>
    exact ⟨R, { reliable with intact, backlog := reliable.backlog.keeps (.timeout _) }⟩

theorem Net.open_of_step (isOpen : (s.step a).rx.state = .isOpen) : s.rx.state = .isOpen := by
  cases a with
  | queue => exact isOpen
  | send =>
    simp only [Net.step] at isOpen
    split at isOpen <;> exact isOpen
  | deliver i =>
    cases found : s.sent[i]? with
    | none => rwa [Net.step_deliver_none found] at isOpen
    | some c =>
      rw [Net.step_deliver found] at isOpen
      exact Flow.handleUserData_open isOpen
  | ack => exact isOpen
  | deliverAck i =>
    simp only [Net.step] at isOpen
    split at isOpen <;> exact isOpen
  | timeout => exact isOpen

theorem Net.refused_of_step (room : (s.step a).refused = false) : s.refused = false := by
  cases a with
  | queue => exact (Bool.or_eq_false_iff.mp room).1
  | send =>
    simp only [Net.step] at room
    split at room <;> exact room
  | deliver i =>
    simp only [Net.step] at room
    split at room <;> exact room
  | ack => exact room
  | deliverAck i =>
    simp only [Net.step] at room
    split at room <;> exact room
  | timeout => exact room

/-- A reliable flow delivers the queued messages in order, none lost, doubled or changed. -/
theorem reliable_delivery {others : Nat} {s : Net} (reach : Reach Net.step ShortMessages (Net.fresh .data others) s)
    (room : s.refused = false) (isOpen : s.rx.state = .isOpen) : s.taken <+: s.queued := by
  have reliable : s.refused = false → s.rx.state = .isOpen → ∃ R, s.Reliable R := by
    refine reach.invariant (I := fun s => s.refused = false → s.rx.state = .isOpen → ∃ R, s.Reliable R)
      (fun _ _ => ⟨∅, Net.reliable_fresh others⟩) fun short ih room isOpen => ?_
    obtain ⟨R, reliable⟩ := ih (Net.refused_of_step room) (Net.open_of_step isOpen)
    exact reliable.step short room isOpen
  obtain ⟨R, reliable⟩ := reliable room isOpen
  obtain ⟨done, _, taken, _⟩ := reliable.assembled
  rw [taken]
  exact List.take_prefix _ _

/-- Two messages, the second of which arrives first and twice. -/
theorem reliable_delivery_reordered :
    ∃ s, Reach Net.step ShortMessages (Net.fresh .data 0) s ∧ s.taken = [[7], [8, 9]] ∧ s.taken <+: s.queued := by
  have queued := ((Reach.start : Reach Net.step ShortMessages (Net.fresh .data 0) _).next
    (.queue [7]) (by decide : 1 ≤ Flow.eMaxMessageSize)).next
    (.queue [8, 9]) (by decide : 2 ≤ Flow.eMaxMessageSize)
  have run := ((((((queued.next .send trivial).next .send trivial).next (.deliver 1) trivial).next (.deliver 1)
    trivial).next .ack trivial).next (.deliverAck 0) trivial).next (.deliver 0) trivial
  exact ⟨_, run, by decide, reliable_delivery run (by decide) (by decide)⟩

/-- A message of 65536 times 1160 bytes is cut into no fragments at all, and the next one is
delivered in its place. -/
theorem reliable_delivery_loses_message :
    ∃ s, Reach Net.step (fun _ a => a.Representable) (Net.fresh .data 0) s ∧ s.refused = false ∧
      s.rx.state = .isOpen ∧
      s.taken = [[7]] ∧ ¬ s.taken <+: s.queued := by
  have length : (List.replicate 76021760 (0 : UInt8)).length = 76021760 := List.length_replicate
  have nothing : Flow.cut (List.replicate 76021760 0) = [] := by
    have count : Flow.fragmentCount 76021760 = 0 := by decide
    have long : ¬ 76021760 ≤ Flow.eFragmentMaxSize := by decide
    rw [Flow.cut, length, if_neg long, count, Flow.cutFrom]
  have lost : (Net.fresh .data 0).step (.queue (List.replicate 76021760 0)) =
      { Net.fresh .data 0 with queued := [List.replicate 76021760 0] } := by
    simp only [Net.step, Flow.addAndFragmentData, nothing, Flow.refusesAny]
    rfl
  have first := (Reach.start : Reach Net.step (fun _ a => a.Representable) (Net.fresh .data 0) _).next
    (.queue (List.replicate 76021760 0)) (length.trans_lt (by decide))
  rw [lost] at first
  have run := ((first.next (.queue [7]) (by decide : 1 < 2 ^ 32)).next .send trivial).next (.deliver 0) trivial
  have taken : ((({ Net.fresh .data 0 with queued := [List.replicate 76021760 0] } : Net).step (.queue [7])).step
      .send |>.step (.deliver 0)).taken = [[7]] := by decide +kernel
  refine ⟨_, run, by decide +kernel, by decide +kernel, taken, ?_⟩
  rw [taken]
  show ¬ [[7]] <+: [List.replicate 76021760 0, [7]]
  intro same
  have one := congrArg List.length (List.cons_prefix_cons.mp same).1
  rw [length] at one
  cases one

end Fms.Rtmfp
