import Fms.Rtmfp.Reliable
import Mathlib.Algebra.Order.BigOperators.Group.List

namespace Fms.SeqManager

theorem addSeq_duplicate_iff {s : SeqManager} {val : Nat} :
    (s.addSeq val).2 = .duplicate ↔
      (val ≤ s.csn ∨ val - s.csn > eMaxGap ∨ val > eMaxCsn ∨ val ∈ s.sequences) ∨
        s.missing.size + (val - s.csn) > eMaxMissing := by
  refine ⟨Rtmfp.addSeq_duplicate, fun refused => ?_⟩
  unfold addSeq
  split
  · rfl
  · rename_i accepted
    rw [if_pos (refused.resolve_left accepted)]

/-- Everything the manager has taken lies below `next`. -/
def Below (s : SeqManager) (next : Nat) : Prop := 1 ≤ next ∧ ∃ R, Tracks s R ∧ ∀ n ∈ R, n < next

variable {s : SeqManager} {next : Nat}

theorem below_fresh : Below {} 1 :=
  ⟨Nat.le_refl 1, ∅, tracks_fresh, fun n member => absurd member (Set.notMem_empty n)⟩

theorem Below.mono (below : s.Below next) {later : Nat} (le : next ≤ later) : s.Below later := by
  obtain ⟨positive, R, tracks, upper⟩ := below
  exact ⟨positive.trans le, R, tracks, fun n member => (upper n member).trans_le le⟩

theorem Below.csn_lt (below : s.Below next) : s.csn < next := by
  obtain ⟨positive, R, tracks, upper⟩ := below
  by_cases zero : s.csn = 0
  · omega
  · exact upper _ (tracks.below _ (by omega) (Nat.le_refl _))

theorem Below.sequences_lt (below : s.Below next) {n : Nat} (member : n ∈ s.sequences) : s.csn < n ∧ n < next := by
  obtain ⟨_, R, tracks, upper⟩ := below
  have above := (tracks.inside n member).1
  exact ⟨above, upper n ((tracks.above n above).mpr member)⟩

/-- The manager takes the next number unless the numbers or the room for holes run out. -/
theorem Below.taken_iff (below : s.Below next) :
    (s.addSeq next).2 ≠ .duplicate ↔ next ≤ eMaxCsn ∧ s.missing.size + (next - s.csn) ≤ eMaxMissing := by
  have csn := below.csn_lt
  have fresh : next ∉ s.sequences := fun member => absurd (below.sequences_lt member).2 (Nat.lt_irrefl _)
  rw [Ne, addSeq_duplicate_iff]
  simp only [fresh, or_false, eMaxGap, eMaxMissing]
  omega

/-- What is known of the manager that has taken `next`: with nothing missing before it the
cumulative number moves up, and otherwise it stays and all that lies between and was not
taken is missing. -/
structure Took (s s' : SeqManager) (next : Nat) : Prop where
  below : s'.Below (next + 1)
  inOrder : next = s.csn + 1 → s'.csn = next ∧ s'.missing.size = 0 ∧ s'.sequences.size = 0
  ahead : next ≠ s.csn + 1 →
    s'.csn = s.csn ∧ s'.sequences.size = s.sequences.size + 1 ∧ s'.missing.size + s'.sequences.size = next - s.csn

/-- The cumulative number is the last one before the first that was not taken. -/
theorem Tracks.csn_eq {R : Set Nat} (tracks : Tracks s R) {n : Nat} (all : ∀ m, 1 ≤ m → m ≤ n → m ∈ R)
    (stop : n + 1 ∉ R) : s.csn = n := by
  have upper : s.csn ≤ n := by
    by_contra beyond
    exact stop (tracks.below _ (by omega) (by omega))
  have lower : n ≤ s.csn := by
    by_contra beyond
    exact tracks.next rfl ((tracks.above _ (Nat.lt_succ_self _)).mp (all _ (by omega) (by omega)))
  omega

theorem Below.took (below : s.Below next) (taken : (s.addSeq next).2 ≠ .duplicate) :
    Took s (s.addSeq next).1 next := by
  have csn := below.csn_lt
  have inside := fun n => below.sequences_lt (n := n)
  obtain ⟨positive, R, tracks, upper⟩ := below
  obtain ⟨_, tracks'⟩ := (tracks.addSeq next).resolve_left fun duplicate => taken duplicate.1
  generalize (s.addSeq next).1 = s' at tracks'
  have upper' (n : Nat) (member : n ∈ insert next R) : n < next + 1 := by
    rcases member with rfl | old
    · exact Nat.lt_succ_self _
    · exact (upper n old).trans (Nat.lt_succ_self _)
  have below' : s'.Below (next + 1) := ⟨by omega, _, tracks', upper'⟩
  have none : s'.csn = next → s'.sequences.elems = [] := fun top =>
    List.eq_nil_iff_forall_not_mem.mpr fun n member => by
      have := below'.sequences_lt member
      omega
  refine ⟨below', fun inOrder => ?_, fun ahead => ?_⟩
  · have top : s'.csn = next := by
      refine Tracks.csn_eq tracks' (fun m lower upper => ?_) fun member => absurd (upper' _ member) (Nat.lt_irrefl _)
      by_cases last : m = next
      · exact .inl last
      · exact .inr (tracks.below m lower (by omega))
    refine ⟨top, List.length_eq_zero_iff.mpr (List.eq_nil_iff_forall_not_mem.mpr fun n member => ?_),
      List.length_eq_zero_iff.mpr (none top)⟩
    obtain ⟨_, _, m, received, _⟩ := (tracks'.holes n).mp member
    have received : m ∈ s'.sequences.elems := received
    rw [none top] at received
    cases received
  · have same : s'.csn = s.csn := by
      refine Tracks.csn_eq tracks' (fun m lower upper => .inr (tracks.below m lower upper)) fun member => ?_
      rcases member with last | old
      · exact ahead last.symm
      · exact tracks.next rfl ((tracks.above _ (Nat.lt_succ_self _)).mp old)
    have listed (n : Nat) : n ∈ s'.sequences ↔ n = next ∨ n ∈ s.sequences := by
      constructor
      · intro member
        have above := (tracks'.inside n member).1
        rcases (tracks'.above n above).mpr member with last | old
        · exact .inl last
        · exact .inr ((tracks.above n (same ▸ above)).mp old)
      · rintro (rfl | old)
        · exact (tracks'.above n (by omega)).mp (.inl rfl)
        · have above := (tracks.inside n old).1
          exact (tracks'.above n (by omega)).mp (.inr ((tracks.above n above).mpr old))
    have fresh : next ∉ s.sequences.elems := fun member => absurd (inside next member).2 (Nat.lt_irrefl _)
    have one : s'.sequences.elems.Perm (next :: s.sequences.elems) :=
      (List.perm_ext_iff_of_nodup s'.sequences.nodup (List.nodup_cons.mpr ⟨fresh, s.sequences.nodup⟩)).mpr fun n =>
        (listed n).trans List.mem_cons.symm
    have apart : (s'.missing.elems ++ s'.sequences.elems).Nodup :=
      List.nodup_append.mpr ⟨s'.missing.nodup, s'.sequences.nodup, fun n hole m received same => by
        subst same
        exact ((tracks'.holes n).mp hole).2.1 received⟩
    have all : (s'.missing.elems ++ s'.sequences.elems).Perm (List.range' (s.csn + 1) (next - s.csn)) := by
      refine (List.perm_ext_iff_of_nodup apart List.nodup_range').mpr fun n => ?_
      rw [List.mem_append, List.mem_range'_1]
      constructor
      · rintro (hole | received)
        · obtain ⟨above, _, m, received, less⟩ := (tracks'.holes n).mp hole
          have := below'.sequences_lt received
          omega
        · have := below'.sequences_lt received
          omega
      · intro between
        by_cases received : n ∈ s'.sequences
        · exact .inr received
        · refine .inl ((tracks'.holes n).mpr ⟨by omega, received, next, (listed next).mpr (.inl rfl), ?_⟩)
          have : n ≠ next := fun last => received ((listed n).mpr (.inl last))
          omega
    have counted := all.length_eq
    rw [List.length_append, List.length_range'] at counted
    exact ⟨same, one.length_eq, counted⟩

end Fms.SeqManager

namespace Fms.Rtmfp
open ByteWire Segments SeqManager Transition

namespace Flow

variable {f : Flow} {part : FragCtrl × Bytes} {len : Nat} {data : Bytes}

/-- The invariant of a sending flow: it has numbered whatever it holds. -/
structure Sends (f : Flow) : Prop where
  role : f.role = .sender
  unshared : f.others = none
  below : f.seqManager.Below f.nextSn
  older : ∀ g ∈ f.fragments, g.seq < f.nextSn

theorem Sends.of_follows {g : Flow} (sends : f.Sends) (follows : Follows f g) (unshared : g.others = f.others) :
    g.Sends where
  role := follows.role.trans sends.role
  unshared := unshared.trans sends.unshared
  below := by
    rw [follows.seqManager, follows.nextSn]
    exact sends.below
  older h member := by
    obtain ⟨e, inside, same, _⟩ := follows.derived h member
    rw [same, follows.nextSn]
    exact sends.older e inside

/-- There is room for a fragment of `len` bytes, in the buffer and in what the manager
keeps of the numbers. -/
def Takes (f : Flow) (len : Nat) : Prop :=
  f.fragments.size < eMaxBufferedFragments ∧ f.fragments.bytes + len ≤ eMaxBufferedBytes ∧ f.nextSn ≤ eMaxCsn ∧
    f.seqManager.missing.size + (f.nextSn - f.seqManager.csn) ≤ eMaxMissing

instance (f : Flow) (len : Nat) : Decidable (f.Takes len) := inferInstanceAs (Decidable (_ ∧ _ ∧ _ ∧ _))

theorem Sends.isFull_iff (sends : f.Sends) (len : Nat) :
    f.isFull len = false ↔ f.fragments.size < eMaxBufferedFragments ∧
      f.fragments.bytes + len ≤ eMaxBufferedBytes := by
  simp only [isFull, sharedBytes, sends.unshared, Bool.or_eq_false_iff, decide_eq_false_iff_not]
  unfold eMaxSessionBufferedBytes
  omega

theorem Sends.takes_iff (sends : f.Sends) (len : Nat) :
    f.Takes len ↔ f.isFull len = false ∧ (f.seqManager.addSeq f.nextSn).2 ≠ .duplicate := by
  rw [sends.isFull_iff, sends.below.taken_iff, and_assoc]
  rfl

/-- The numbers, marks and data buffered. -/
def listed (f : Flow) : List (Nat × FragCtrl × Bytes) := f.fragments.elems.map fun g => (g.seq, g.part)

theorem length_listed (f : Flow) : f.listed.length = f.fragments.size := List.length_map ..

/-- The flow once `n` more numbers are used up. -/
def skip (f : Flow) (n : Nat) : Flow := { f with nextSn := f.nextSn + n }

/-- A refused fragment has used a number up. -/
theorem Sends.enqueue_refused (sends : f.Sends) (refuses : ¬ f.Takes part.2.length) : f.enqueue part = f.skip 1 := by
  rw [sends.takes_iff, not_and, not_not] at refuses
  unfold enqueue
  have added := Flow.added { f with nextSn := f.nextSn + 1 } { seq := f.nextSn, data := part.2, fragCtrl := part.1 }
  generalize (Flow.addFragment _ _).1 = g at added ⊢
  cases added with
  | refused => rfl
  | rejected _ receiver => cases sends.role.symm.trans receiver
  | duplicate _ duplicate =>
    obtain ⟨_, R, tracks, _⟩ := sends.below
    obtain ⟨_, same⟩ := (tracks.addSeq f.nextSn).resolve_right fun accepted => accepted.1 duplicate
    simp only [same, Flow.skip]
  | stored room accepted => exact absurd (refuses room) accepted

theorem Sends.enqueue_taken (sends : f.Sends) (takes : f.Takes part.2.length) :
    f.enqueue part = { f with
      nextSn := f.nextSn + 1
      seqManager := (f.seqManager.addSeq f.nextSn).1
      fragments := f.fragments.assign { seq := f.nextSn, data := part.2, fragCtrl := part.1 } } := by
  obtain ⟨room, accepted⟩ := (sends.takes_iff _).mp takes
  exact enqueue_eq part room accepted

theorem Sends.enqueue_elems (sends : f.Sends) (takes : f.Takes part.2.length) :
    (f.enqueue part).fragments.elems =
      f.fragments.elems ++ [{ seq := f.nextSn, data := part.2, fragCtrl := part.1 }] := by
  rw [sends.enqueue_taken takes]
  exact SortedBy.place_last sends.older

theorem Sends.skip (sends : f.Sends) (n : Nat) : (f.skip n).Sends where
  role := sends.role
  unshared := sends.unshared
  below := sends.below.mono (Nat.le_add_right _ _)
  older g member := (sends.older g member).trans_le (Nat.le_add_right _ _)

theorem enqueue_nextSn (f : Flow) (part : FragCtrl × Bytes) : (f.enqueue part).nextSn = f.nextSn + 1 :=
  addFragment_nextSn _ _

theorem Sends.enqueue (sends : f.Sends) (part : FragCtrl × Bytes) : (f.enqueue part).Sends := by
  by_cases takes : f.Takes part.2.length
  · have took := sends.below.took ((sends.takes_iff _).mp takes).2
    rw [sends.enqueue_taken takes]
    refine ⟨sends.role, sends.unshared, took.below, fun g member => ?_⟩
    rcases SortedBy.mem_assign.mp member with rfl | ⟨old, _⟩
    · exact Nat.lt_succ_self _
    · exact (sends.older g old).trans (Nat.lt_succ_self _)
  · rw [sends.enqueue_refused takes]
    exact sends.skip 1

theorem Sends.enqueues (sends : f.Sends) (parts : List (FragCtrl × Bytes)) : (parts.foldl Flow.enqueue f).Sends := by
  induction parts generalizing f with
  | nil => exact sends
  | cons part parts ih => exact ih (sends.enqueue part)

theorem enqueues_nextSn (f : Flow) (parts : List (FragCtrl × Bytes)) :
    (parts.foldl enqueue f).nextSn = f.nextSn + parts.length := by
  induction parts generalizing f with
  | nil => rfl
  | cons part parts ih =>
    rw [List.foldl_cons, ih, enqueue_nextSn, List.length_cons]
    omega

/-- The fragments that are stored when they are queued in turn, each with its number. -/
def accepted : Flow → List (FragCtrl × Bytes) → List (Nat × FragCtrl × Bytes)
  | _, [] => []
  | f, part :: parts =>
    (if f.Takes part.2.length then [(f.nextSn, part)] else []) ++ accepted (f.enqueue part) parts

def numbered : Nat → List (FragCtrl × Bytes) → List (Nat × FragCtrl × Bytes)
  | _, [] => []
  | n, part :: parts => (n, part) :: numbered (n + 1) parts

theorem numbered_fst (n : Nat) (parts : List (FragCtrl × Bytes)) :
    (numbered n parts).map Prod.fst = List.range' n parts.length := by
  induction parts generalizing n with
  | nil => rfl
  | cons part parts ih => rw [numbered, List.map_cons, ih, List.length_cons, List.range'_succ]

theorem numbered_snd (n : Nat) (parts : List (FragCtrl × Bytes)) : (numbered n parts).map Prod.snd = parts := by
  induction parts generalizing n with
  | nil => rfl
  | cons part parts ih => rw [numbered, List.map_cons, ih]

theorem length_numbered (n : Nat) (parts : List (FragCtrl × Bytes)) : (numbered n parts).length = parts.length := by
  rw [← List.length_map Prod.snd, numbered_snd]

theorem accepted_sublist (f : Flow) (parts : List (FragCtrl × Bytes)) :
    (f.accepted parts).Sublist (numbered f.nextSn parts) := by
  induction parts generalizing f with
  | nil => exact .slnil
  | cons part parts ih =>
    have tail := ih (f.enqueue part)
    rw [enqueue_nextSn] at tail
    rw [accepted, numbered]
    split
    · exact tail.cons_cons _
    · exact tail.cons _

theorem Sends.listed_enqueue (sends : f.Sends) (part : FragCtrl × Bytes) :
    (f.enqueue part).listed = f.listed ++ if f.Takes part.2.length then [(f.nextSn, part)] else [] := by
  split
  · rename_i takes
    rw [Flow.listed, sends.enqueue_elems takes, List.map_append]
    rfl
  · rename_i refuses
    rw [sends.enqueue_refused refuses, List.append_nil]
    rfl

theorem Sends.listed_enqueues (sends : f.Sends) (parts : List (FragCtrl × Bytes)) :
    (parts.foldl Flow.enqueue f).listed = f.listed ++ f.accepted parts := by
  induction parts generalizing f with
  | nil => rw [accepted, List.append_nil, List.foldl_nil]
  | cons part parts ih =>
    rw [List.foldl_cons, ih (sends.enqueue part), sends.listed_enqueue, List.append_assoc]
    rfl

/-- Room for `k` fragments of `len` bytes in all. When numbers are missing, taking the first
fragment adds those refused before it to what the manager keeps, and the others stay that
far ahead of the cumulative number. -/
def TakesAll (f : Flow) (k len : Nat) : Prop :=
  f.fragments.size + k ≤ eMaxBufferedFragments ∧ f.fragments.bytes + len ≤ eMaxBufferedBytes ∧
    f.nextSn + k ≤ eMaxCsn + 1 ∧ f.seqManager.missing.size + (f.nextSn - f.seqManager.csn) ≤ eMaxMissing ∧
    (k = 1 ∨ f.nextSn = f.seqManager.csn + 1 ∨
      f.nextSn - 1 - f.seqManager.csn - f.seqManager.sequences.size + (f.nextSn + k - 1 - f.seqManager.csn) ≤
        eMaxMissing)

theorem takesAll_one (f : Flow) (len : Nat) : f.TakesAll 1 len ↔ f.Takes len := by
  unfold TakesAll Takes
  omega

/-- After the first of several fragments the others fit just as all of them did. -/
theorem Sends.takesAll_succ (sends : f.Sends) (takes : f.Takes part.2.length) {k : Nat} (more : 1 ≤ k) (len : Nat) :
    (f.enqueue part).TakesAll k len ↔ f.TakesAll (k + 1) (part.2.length + len) := by
  have took := sends.below.took ((sends.takes_iff _).mp takes).2
  have csn := sends.below.csn_lt
  have size : (f.enqueue part).fragments.size = f.fragments.size + 1 := by
    simp [SortedBy.size, sends.enqueue_elems takes]
  have bytes : (f.enqueue part).fragments.bytes = f.fragments.bytes + part.2.length := by
    simp [FragmentStore.bytes, sends.enqueue_elems takes]
  have manager : (f.enqueue part).seqManager = (f.seqManager.addSeq f.nextSn).1 := by rw [sends.enqueue_taken takes]
  obtain ⟨_, _, _, room⟩ := takes
  unfold TakesAll
  rw [size, bytes, manager, enqueue_nextSn]
  generalize (f.seqManager.addSeq f.nextSn).1 = s' at took
  by_cases inOrder : f.nextSn = f.seqManager.csn + 1
  · obtain ⟨top, noHoles, _⟩ := took.inOrder inOrder
    rw [top, noHoles]
    unfold eMaxMissing at *
    omega
  · obtain ⟨same, one, counted⟩ := took.ahead inOrder
    rw [same]
    omega

theorem accepted_cons_all_iff (f : Flow) (part : FragCtrl × Bytes) (parts : List (FragCtrl × Bytes)) :
    f.accepted (part :: parts) = numbered f.nextSn (part :: parts) ↔
      f.Takes part.2.length ∧ (f.enqueue part).accepted parts = numbered (f.enqueue part).nextSn parts := by
  have short := ((f.enqueue part).accepted_sublist parts).length_le
  rw [accepted, numbered, ← enqueue_nextSn f part]
  split
  · rename_i takes
    exact ⟨fun same => ⟨takes, (List.cons.inj same).2⟩, fun both => congrArg (List.cons _) both.2⟩
  · rename_i refuses
    refine iff_of_false (fun same => ?_) fun both => refuses both.1
    have long := congrArg List.length same
    rw [List.nil_append, List.length_cons] at long
    omega

theorem Sends.accepted_all_iff (sends : f.Sends) (part : FragCtrl × Bytes) (parts : List (FragCtrl × Bytes)) :
    f.accepted (part :: parts) = numbered f.nextSn (part :: parts) ↔
      f.TakesAll (parts.length + 1) (((part :: parts).map fun p => p.2.length).sum) := by
  induction parts generalizing f part with
  | nil =>
    rw [accepted_cons_all_iff, List.map_singleton, List.sum_singleton, List.length_nil, takesAll_one]
    exact and_iff_left rfl
  | cons next parts ih =>
    have total : ((part :: next :: parts).map fun p => p.2.length).sum =
        part.2.length + ((next :: parts).map fun p => p.2.length).sum := List.sum_cons
    rw [accepted_cons_all_iff, ih (sends.enqueue part), List.length_cons, total]
    constructor
    · rintro ⟨takes, rest⟩
      exact (sends.takesAll_succ takes (Nat.le_add_left 1 _) _).mp rest
    · intro all
      have takes : f.Takes part.2.length := by
        obtain ⟨size, bytes, numbers, room, _⟩ := all
        exact ⟨by omega, by omega, by omega, room⟩
      exact ⟨takes, (sends.takesAll_succ takes (Nat.le_add_left 1 _) _).mpr all⟩

theorem not_takes_skip (refuses : ¬ f.Takes len) (n : Nat) : ¬ (f.skip n).Takes len := by
  intro ⟨size, bytes, numbers, room⟩
  refine refuses ⟨size, bytes, ?_, ?_⟩
  · exact (Nat.le_add_right _ _).trans numbers
  · exact (Nat.add_le_add_left (Nat.sub_le_sub_right (Nat.le_add_right _ _) _) _).trans room

/-- Of fragments that are equally long but for a shorter one at the end nothing is stored when the
first and the last are refused. -/
theorem Sends.accepted_none_iff (sends : f.Sends) {front : List (FragCtrl × Bytes)}
    (equal : ∀ part ∈ front, part.2.length = len) (last : FragCtrl × Bytes) :
    f.accepted (front ++ [last]) = [] ↔
      (front = [] ∨ ¬ f.Takes len) ∧ ¬ (f.skip front.length).Takes last.2.length := by
  induction front generalizing f with
  | nil =>
    show (if f.Takes last.2.length then [_] else []) ++ [] = [] ↔ _ ∧ ¬ f.Takes last.2.length
    split
    · rename_i takes
      simp [takes]
    · rename_i refuses
      simp [refuses]
  | cons part front ih =>
    have here := equal part (List.mem_cons_self ..)
    rw [List.cons_append, accepted, here]
    split
    · rename_i takes
      simp [takes]
    · rename_i refuses
      rw [sends.enqueue_refused (here ▸ refuses), List.nil_append,
        ih (sends.skip 1) fun part later => equal part (List.mem_cons_of_mem _ later)]
      have shift : (f.skip 1).skip front.length = f.skip (part :: front).length := by
        simp [Flow.skip, Nat.add_comm, Nat.add_left_comm]
      rw [shift]
      exact and_congr_left fun _ => iff_of_true (.inr (not_takes_skip refuses 1)) (.inr refuses)

def pieces (len : Nat) : Nat := max 1 ((len + eFragmentMaxSize - 1) / eFragmentMaxSize)

theorem pieces_of_le (small : len ≤ eFragmentMaxSize) : pieces len = 1 := by
  simp only [pieces, eFragmentMaxSize] at *
  omega

theorem cut_lengths (short : data.length ≤ eMaxMessageSize) :
    ∃ front last, cut data = front ++ [last] ∧ front.length = pieces data.length - 1 ∧
      (∀ part ∈ front, part.2.length = eFragmentMaxSize) ∧
      last.2.length = data.length - (pieces data.length - 1) * eFragmentMaxSize := by
  unfold cut
  split
  · rename_i small
    refine ⟨[], _, rfl, by rw [pieces_of_le small]; rfl, fun _ member => (by cases member), ?_⟩
    rw [pieces_of_le small]
    exact (Nat.sub_zero _).symm
  · rename_i long
    have count : fragmentCount data.length = pieces data.length ∧ 2 ≤ pieces data.length ∧
        data.length ≤ pieces data.length * eFragmentMaxSize ∧
        (pieces data.length - 1) * eFragmentMaxSize < data.length := by
      simp only [fragmentCount, pieces, eMaxMessageSize, eFragmentMaxSize] at *
      omega
    obtain ⟨same, two, upper, lower⟩ := count
    rw [same]
    generalize pieces data.length = cnt at two upper lower
    obtain ⟨todo, rfl⟩ : ∃ todo, cnt = todo + 2 := ⟨cnt - 2, by omega⟩
    refine ⟨(.first, data.take eFragmentMaxSize) :: ((List.range' 1 todo).map (slice data)).map (Prod.mk .middle),
      (.last, data.drop ((todo + 1) * eFragmentMaxSize)), ?_, ?_, ?_, List.length_drop⟩
    · rw [cutFrom_next data _ _ (Nat.zero_add _), cutFrom_eq (by omega) upper, Nat.zero_mul, List.drop_zero]
      rfl
    · rw [List.length_cons, List.length_map, List.length_map, List.length_range']
      rfl
    · refine List.forall_mem_cons.mpr ⟨?_, List.forall_mem_map.mpr (List.forall_mem_map.mpr fun i member => ?_)⟩
      · rw [List.length_take]
        omega
      · have before : (i + 1) * eFragmentMaxSize ≤ (todo + 2 - 1) * eFragmentMaxSize :=
          Nat.mul_le_mul_right _ (by have := List.mem_range'_1.mp member; omega)
        rw [Nat.add_mul, Nat.one_mul] at before
        simp only [slice, List.length_take, List.length_drop]
        omega

theorem length_cut (short : data.length ≤ eMaxMessageSize) : (cut data).length = pieces data.length := by
  obtain ⟨front, last, same, count, _⟩ := cut_lengths short
  have : 1 ≤ pieces data.length := Nat.le_max_left ..
  rw [same, List.length_append, count, List.length_singleton]
  omega

theorem sum_cut (short : data.length ≤ eMaxMessageSize) :
    ((cut data).map fun part => part.2.length).sum = data.length := by
  conv => rhs; rw [(cut_splits short).join]
  rw [List.length_flatten, List.map_map]
  rfl

theorem abandonFrom_listed (target abandoned : Nat) (l : List Fragment) :
    (abandonFrom target abandoned l).map (fun g => (g.seq, g.part)) = l.map fun g => (g.seq, g.part) := by
  rw [abandonFrom_eq, List.map_append, List.map_map]
  conv => rhs; rw [← List.take_append_drop (target - abandoned) l, List.map_append]
  rfl

theorem listed_abandonStaleFragments (f : Flow) : f.abandonStaleFragments.listed = f.listed := by
  unfold abandonStaleFragments
  split
  · rfl
  · exact abandonFrom_listed ..

theorem Sends.listed_queue (sends : f.Sends) (data : Bytes) :
    (f.addAndFragmentData data).listed = f.listed ++ f.accepted (cut data) := by
  rw [addAndFragmentData, listed_abandonStaleFragments, sends.listed_enqueues]

/-- A message is queued with all its fragments, or nothing of it is. -/
def AllOrNothing (f : Flow) (data : Bytes) : Prop :=
  (∃ new, (f.addAndFragmentData data).listed = f.listed ++ new ∧
    new.map Prod.fst = List.range' f.nextSn new.length ∧ Splits data (new.map Prod.snd)) ∨
  (f.addAndFragmentData data).listed = f.listed

/-- Neither the first nor the last fragment of a message of `len` bytes finds room; the last
one is shorter and has a higher number. -/
def RefusesAll (f : Flow) (len : Nat) : Prop :=
  (len ≤ eFragmentMaxSize ∨ ¬ f.Takes eFragmentMaxSize) ∧
    ¬ (f.skip (pieces len - 1)).Takes (len - (pieces len - 1) * eFragmentMaxSize)

theorem eq_of_sublist_of_sum {α : Type} {w : α → Nat} {l₁ l₂ : List α} (sub : l₁.Sublist l₂)
    (positive : ∀ a ∈ l₂, 0 < w a) (same : (l₁.map w).sum = (l₂.map w).sum) : l₁ = l₂ := by
  induction sub with
  | slnil => rfl
  | @cons l₁ l₂ a sub ih =>
    have less := (sub.map w).sum_le_sum fun _ _ => Nat.zero_le _
    have here := positive a (List.mem_cons_self ..)
    rw [List.map_cons, List.sum_cons] at same
    omega
  | @cons_cons l₁ l₂ a sub ih =>
    rw [List.map_cons, List.sum_cons, List.map_cons, List.sum_cons] at same
    rw [ih (fun b later => positive b (List.mem_cons_of_mem _ later)) (Nat.add_left_cancel same)]

/-- Fragments that make up the message are all of its fragments. -/
theorem accepted_of_splits (short : data.length ≤ eMaxMessageSize)
    (splits : Splits data ((f.accepted (cut data)).map Prod.snd)) :
    f.accepted (cut data) = numbered f.nextSn (cut data) := by
  have sub := f.accepted_sublist (cut data)
  obtain ⟨front, last, same, count, equal, rest⟩ := cut_lengths short
  by_cases small : data.length ≤ eFragmentMaxSize
  · have one : (numbered f.nextSn (cut data)).length = 1 := by
      rw [length_numbered, length_cut short, pieces_of_le small]
    refine sub.eq_of_length_le ?_
    rw [one]
    exact List.length_pos_iff.mpr fun none => splits.ne_nil (by rw [none]; rfl)
  · have positive : ∀ part ∈ cut data, 0 < part.2.length := by
      rw [same]
      intro part member
      rcases List.mem_append.mp member with before | final
      · rw [equal part before]
        decide
      · rw [List.mem_singleton.mp final, rest]
        simp only [pieces, eFragmentMaxSize] at *
        omega
    have total : ((numbered f.nextSn (cut data)).map fun entry => entry.2.2.length).sum = data.length := by
      have parts := congrArg (List.map fun part : FragCtrl × Bytes => part.2.length)
        (numbered_snd f.nextSn (cut data))
      rw [List.map_map] at parts
      exact (congrArg List.sum parts).trans (sum_cut short)
    refine eq_of_sublist_of_sum (w := fun entry => entry.2.2.length) sub (fun entry member => ?_) ?_
    · refine positive entry.2 ?_
      rw [← numbered_snd f.nextSn (cut data)]
      exact List.mem_map_of_mem member
    · rw [total]
      conv => rhs; rw [splits.join]
      rw [List.length_flatten, List.map_map, List.map_map]
      rfl

theorem Sends.accepted_cut_iff (sends : f.Sends) (short : data.length ≤ eMaxMessageSize) :
    f.accepted (cut data) = numbered f.nextSn (cut data) ↔ f.TakesAll (pieces data.length) data.length := by
  have count := length_cut short
  have total := sum_cut short
  cases parts : cut data with
  | nil => exact absurd parts (cut_ne_nil short)
  | cons part parts =>
    rw [parts] at count total
    rw [sends.accepted_all_iff, total, ← count, List.length_cons]

theorem Sends.allOrNothing_iff (sends : f.Sends) (short : data.length ≤ eMaxMessageSize) :
    f.AllOrNothing data ↔ f.TakesAll (pieces data.length) data.length ∨ f.RefusesAll data.length := by
  have none : f.accepted (cut data) = [] ↔ f.RefusesAll data.length := by
    obtain ⟨front, last, same, count, equal, rest⟩ := cut_lengths short
    have small : front = [] ↔ data.length ≤ eFragmentMaxSize := by
      rw [← List.length_eq_zero_iff, count]
      simp only [pieces, eFragmentMaxSize]
      omega
    rw [same, sends.accepted_none_iff equal, RefusesAll, small, rest, count]
  unfold AllOrNothing
  rw [sends.listed_queue, ← sends.accepted_cut_iff short, ← none]
  refine or_congr ⟨?_, fun stored => ?_⟩ List.append_right_eq_self
  · rintro ⟨new, queued, _, splits⟩
    rw [← List.append_cancel_left queued] at splits
    exact accepted_of_splits short splits
  · refine ⟨_, rfl, ?_, ?_⟩
    · rw [stored, numbered_fst, length_numbered]
    · rw [stored, numbered_snd]
      exact cut_splits short

end Flow
end Fms.Rtmfp
