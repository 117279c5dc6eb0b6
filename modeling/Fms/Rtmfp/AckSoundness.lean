import Fms.Rtmfp.AckCodec
import Fms.Rtmfp.Draining
import Fms.Rtmfp.Sending

namespace Fms
open ByteWire Rtmfp

namespace SeqManager

theorem addSeq_of_duplicate {s : SeqManager} {val : Nat} (duplicate : (s.addSeq val).2 = .duplicate) :
    (s.addSeq val).1 = s := by
  unfold addSeq
  rcases addSeq_duplicate_iff.mp duplicate with outside | many
  · rw [if_pos outside]
  · split
    · rfl
    · rfl

theorem le_sumSequences (csn sum : Nat) (l : List Nat) : csn ≤ (sumSequences csn sum l).1 := by
  induction l generalizing csn sum with
  | nil => exact Nat.le_refl _
  | cons i rest ih =>
    rw [sumSequences]
    split
    · exact (Nat.le_succ csn).trans (ih _ _)
    · exact ih _ _

theorem le_addSequencesUntil {s : SeqManager} {val : Nat} (near : val ≤ s.csn + eMaxGap) (limit : val ≤ eMaxCsn) :
    val ≤ (s.addSequencesUntil val).csn := by
  rw [addSequencesUntil]
  split
  · rw [if_neg (by omega)]
    exact le_sumSequences _ _ _
  · rename_i reached
    exact Nat.not_lt.mp reached

end SeqManager

namespace Rtmfp
open SeqManager Transition

namespace Flow

/-- The fragment of a chunk goes into the buffer. -/
def accepts (f : Flow) (seq : Nat) (d : DataChunk) : Bool :=
  !d.shouldAbandon && f.state = .isOpen &&
    (f.addFragment { seq, data := d.userData, fragCtrl := .ofByte d.fragCtl }).2 ≠ .duplicate

/-- A fragment that is stored is entered under its number, and any other leaves the manager as it is. -/
theorem addFragment_seqManager (f : Flow) (frag : Fragment) :
    ((f.addFragment frag).2 = .duplicate ∧ (f.addFragment frag).1.seqManager = f.seqManager) ∨
      ((f.addFragment frag).2 ≠ .duplicate ∧ (f.seqManager.addSeq frag.seq).2 ≠ .duplicate ∧
        (f.addFragment frag).1.seqManager = (f.seqManager.addSeq frag.seq).1) := by
  unfold addFragment
  split
  · split
    · exact .inl ⟨rfl, rfl⟩
    · exact .inl ⟨rfl, rfl⟩
  · split
    · rename_i manager found
      have same := addSeq_of_duplicate (congrArg Prod.snd found)
      rw [found] at same
      exact .inl ⟨rfl, same⟩
    · rename_i manager ret accepted found
      exact .inr ⟨accepted, by rwa [found], by rw [found]⟩

theorem receiveNext_seqManager (f : Flow) (seq : Nat) (d : DataChunk) :
    (f.accepts seq d = false ∧ (f.receiveNext seq d).seqManager = f.seqManager) ∨
      (f.accepts seq d = true ∧ (f.seqManager.addSeq seq).2 ≠ .duplicate ∧
        (f.receiveNext seq d).seqManager = (f.seqManager.addSeq seq).1) := by
  unfold accepts receiveNext
  cases taken : !d.shouldAbandon && decide (f.state = .isOpen) with
  | false => exact .inl ⟨rfl, rfl⟩
  | true =>
    rcases f.addFragment_seqManager { seq, data := d.userData, fragCtrl := .ofByte d.fragCtl } with
      ⟨duplicate, same⟩ | ⟨stored, entered, next⟩
    · exact .inl ⟨by simp [duplicate], same⟩
    · exact .inr ⟨by simp [stored], entered, next⟩

theorem receive_seqManager (f : Flow) (c : UserData) :
    (f.receive c).seqManager =
      (f.receiveNext c.seqNumber c.data).seqManager.addSequencesUntil c.forwardSeqNumber := by
  unfold receive receiveNext
  dsimp only
  split
  · rfl
  · split
    · rfl
    · rfl

theorem takeMessages_seqManager (fuel : Nat) (f : Flow) : (takeMessages fuel f).2.seqManager = f.seqManager :=
  (takeMessages_suffix fuel f).2.seqManager

end Flow

/-- A receiving flow with the numbers of the chunks it accepted and the forward numbers of the chunks
it was handed. -/
structure HeardFlow where
  receiver : Receiver
  accepted : List Nat := []
  forwards : List Nat := []

namespace HeardFlow

def fresh (others : Nat) : HeardFlow := { receiver := .fresh others }

/-- The accepted numbers, with that of one more chunk if the flow accepts it. -/
def hear (s : HeardFlow) (seq : Nat) (d : DataChunk) : List Nat :=
  if s.receiver.flow.accepts seq d then seq :: s.accepted else s.accepted

def step (s : HeardFlow) (i : Incoming) : HeardFlow :=
  match i with
  | .userData c =>
    { receiver := s.receiver.step i, accepted := s.hear c.seqNumber c.data,
      forwards := c.forwardSeqNumber :: s.forwards }
  | .nextUserData d =>
    match s.receiver.nextSeq with
    | none => { s with receiver := s.receiver.step i }
    | some seq => { s with receiver := s.receiver.step i, accepted := s.hear seq d }
  | .elsewhere _ => { s with receiver := s.receiver.step i }

/-- The numbers that may be acknowledged. -/
def known (s : HeardFlow) : Set Nat := {n | n ∈ s.accepted ∨ ∃ forward ∈ s.forwards, n ≤ forward}

/-- The acknowledgement that the flow would send speaks of such numbers only. -/
def Sound (s : HeardFlow) : Prop :=
  ∀ n, Acknowledges s.receiver.flow.rangeAck.cumulativeAck
    (absoluteRanges s.receiver.flow.rangeAck.cumulativeAck s.receiver.flow.rangeAck.ranges) n → n ∈ s.known

/-- The flow does not catch up with this final chunk: the forward number leaves it too far behind. -/
def TooFar (s : HeardFlow) (c : UserData) : Prop :=
  (s.receiver.flow.seqManager.addSequencesUntil c.forwardSeqNumber).csn + eMaxGap < c.seqNumber ∨
    eMaxCsn < c.seqNumber

/-- A final chunk that the flow catches up with finds that everything up to it has arrived or was
passed over, this chunk included. -/
def FinalInOrder (s : HeardFlow) : Incoming → Prop
  | .userData c =>
    c.data.isFinal = true → s.TooFar c ∨
      ∀ n, 1 ≤ n → n ≤ c.seqNumber → n ∈ s.known ∨ n ≤ c.forwardSeqNumber ∨
        n = c.seqNumber ∧ s.receiver.flow.accepts c.seqNumber c.data = true
  | _ => True

/-- The manager's numbers are among those that may be acknowledged. -/
def Within (manager : SeqManager) (allowed : Set Nat) : Prop :=
  ∃ R extra, Drifts manager R extra ∧ R ⊆ allowed

variable {manager : SeqManager} {allowed more : Set Nat} {s : HeardFlow}

theorem Within.ordered (within : Within manager allowed) : Ordered manager := by
  obtain ⟨R, extra, drifts, _⟩ := within
  exact fun n member => (drifts.inside n member).1

theorem Within.csn_le_getRangeAck (within : Within manager allowed) : manager.csn ≤ manager.getRangeAck.1 := by
  obtain ⟨R, extra, drifts, _⟩ := within
  exact drifts.toHoles.csn_le_getRangeAck

theorem Within.mono (within : Within manager allowed) (subset : allowed ⊆ more) : Within manager more := by
  obtain ⟨R, extra, drifts, inside⟩ := within
  exact ⟨R, extra, drifts, inside.trans subset⟩

theorem Within.jump (within : Within manager allowed) (val : Nat)
    (reached : val ≤ manager.csn + eMaxGap → val ≤ eMaxCsn → ∀ n, n ≤ val → n ∈ allowed) :
    Within (manager.addSequencesUntil val) allowed := by
  obtain ⟨R, extra, drifts, inside⟩ := within
  obtain ⟨left, jumped, _⟩ := drifts.call (.addSequencesUntil val)
  refine ⟨_, left, jumped, Set.union_subset inside fun n jumped => ?_⟩
  obtain ⟨low, near, limit⟩ := jumped
  exact reached (by omega) limit n low

theorem Within.receiveNext {f : Flow} (within : Within f.seqManager allowed) {seq : Nat} {d : DataChunk}
    (accepted : f.accepts seq d = true → seq ∈ allowed) : Within (f.receiveNext seq d).seqManager allowed := by
  rcases f.receiveNext_seqManager seq d with ⟨_, same⟩ | ⟨accepts, entered, next⟩
  · rwa [same]
  · obtain ⟨R, extra, drifts, inside⟩ := within
    rw [next]
    obtain ⟨_, arrived⟩ := (drifts.addSeq seq).resolve_left fun duplicate => entered duplicate.1
    exact ⟨_, extra, arrived, Set.insert_subset (accepted accepts) inside⟩

/-- The invariant of a flow. -/
def Kept (s : HeardFlow) : Prop := Within s.receiver.flow.seqManager s.known

theorem Kept.sound (kept : s.Kept) : s.Sound := by
  intro n acknowledged
  obtain ⟨R, extra, drifts, inside⟩ := kept
  obtain ⟨below, ranges⟩ := drifts.getRangeAck_covers
  rcases acknowledged with ⟨positive, low⟩ | ⟨range, member, first, last⟩
  · exact inside (below n positive low)
  · exact inside (ranges range member n first last)

theorem mem_hear {seq n : Nat} {d : DataChunk} :
    n ∈ s.hear seq d ↔ n ∈ s.accepted ∨ n = seq ∧ s.receiver.flow.accepts seq d = true := by
  unfold hear
  split
  · rename_i accepts
    simp [accepts, or_comm]
  · rename_i refused
    simp [refused]

theorem mem_known_userData {c : UserData} {n : Nat} :
    n ∈ (s.step (.userData c)).known ↔ n ∈ s.known ∨ n ≤ c.forwardSeqNumber ∨
      n = c.seqNumber ∧ s.receiver.flow.accepts c.seqNumber c.data = true := by
  show (n ∈ s.hear c.seqNumber c.data ∨ ∃ forward ∈ c.forwardSeqNumber :: s.forwards, n ≤ forward) ↔
    (n ∈ s.accepted ∨ ∃ forward ∈ s.forwards, n ≤ forward) ∨ _
  simp only [mem_hear, List.mem_cons, exists_eq_or_imp]
  constructor
  · rintro ((old | accepted) | low | passed)
    · exact .inl (.inl old)
    · exact .inr (.inr accepted)
    · exact .inr (.inl low)
    · exact .inl (.inr passed)
  · rintro ((old | passed) | low | accepted)
    · exact .inl (.inl old)
    · exact .inr (.inr passed)
    · exact .inr (.inl low)
    · exact .inl (.inr accepted)

theorem Kept.receive (kept : s.Kept) (c : UserData) :
    Within (s.receiver.flow.receive c).seqManager (s.step (.userData c)).known := by
  rw [Flow.receive_seqManager]
  have before : Within s.receiver.flow.seqManager (s.step (.userData c)).known :=
    kept.mono fun n member => mem_known_userData.mpr (.inl member)
  refine (before.receiveNext fun accepts => ?_).jump _ fun _ _ n low => ?_
  · exact mem_known_userData.mpr (.inr (.inr ⟨rfl, accepts⟩))
  · exact mem_known_userData.mpr (.inr (.inl low))

/-- The fragment itself does not decide whether the flow catches up with its number. -/
theorem Kept.tooFar_iff (kept : s.Kept) (c : UserData) :
    s.TooFar c ↔ (s.receiver.flow.receive c).seqManager.csn + eMaxGap < c.seqNumber ∨ eMaxCsn < c.seqNumber := by
  unfold TooFar
  rw [Flow.receive_seqManager]
  rcases s.receiver.flow.receiveNext_seqManager c.seqNumber c.data with ⟨_, same⟩ | ⟨accepts, entered, next⟩
  · rw [same]
  · have near := mt addSeq_duplicate_iff.mpr entered
    have ordered := addSeq_ordered kept.ordered c.seqNumber
    have later := addSequencesUntil_ordered ordered.1 c.forwardSeqNumber
    have direct := addSequencesUntil_ordered kept.ordered c.forwardSeqNumber
    rw [next]
    omega

theorem Kept.step (kept : s.Kept) {i : Incoming} (inOrder : s.FinalInOrder i) : (s.step i).Kept := by
  cases i with
  | userData c =>
    have received := kept.receive c
    show Within (s.receiver.flow.handleUserData c).2.seqManager _
    rw [Flow.handleUserData]
    split
    · rename_i final
      refine received.jump _ fun near limit n low => ?_
      rcases inOrder final with far | all
      · rw [kept.tooFar_iff] at far
        omega
      · rcases Nat.eq_zero_or_pos n with rfl | positive
        · exact mem_known_userData.mpr (.inr (.inl (Nat.zero_le _)))
        · exact mem_known_userData.mpr (all n positive low)
    · rwa [Flow.takeMessages_seqManager]
  | nextUserData d =>
    cases found : s.receiver.nextSeq with
    | none =>
      have same : s.step (.nextUserData d) = s := by simp only [HeardFlow.step, Receiver.step, found]
      rwa [same]
    | some seq =>
      have next : s.step (.nextUserData d) = { s with
          receiver := ⟨(s.receiver.flow.handleNextUserData seq d).2, some ((seq + 1) % 2 ^ 64)⟩
          accepted := s.hear seq d } := by
        simp only [HeardFlow.step, Receiver.step, found]
      rw [next]
      show Within (Flow.takeMessages _ _).2.seqManager _
      rw [Flow.takeMessages_seqManager]
      have before : Within s.receiver.flow.seqManager {n | n ∈ s.hear seq d ∨ ∃ forward ∈ s.forwards, n ≤ forward} :=
        kept.mono fun n member => member.imp_left fun old => mem_hear.mpr (.inl old)
      exact before.receiveNext fun accepts => .inl (mem_hear.mpr (.inr ⟨rfl, accepts⟩))
  | elsewhere others => exact kept

/-- Along every run whose final chunks come in order the acknowledgement is sound, and one more
chunk keeps it so exactly when it is in order too. -/
theorem acks_sound_iff {others : Nat} (reach : Reach step FinalInOrder (fresh others) s) :
    s.Sound ∧ ∀ i, (s.step i).Sound ↔ s.FinalInOrder i := by
  have kept : s.Kept := by
    refine reach.invariant (I := Kept) ?_ fun inOrder kept => kept.step inOrder
    exact ⟨∅, 0, tracks_fresh, Set.empty_subset _⟩
  refine ⟨kept.sound, fun i => ⟨fun sound => ?_, fun inOrder => (kept.step inOrder).sound⟩⟩
  cases i with
  | nextUserData d => trivial
  | elsewhere others => trivial
  | userData c =>
    intro final
    by_cases far : s.TooFar c
    · exact .inl far
    · refine .inr fun n positive low => mem_known_userData.mp (sound n (.inl ⟨positive, low.trans ?_⟩))
      have near : c.seqNumber ≤ (s.receiver.flow.receive c).seqManager.csn + eMaxGap ∧ c.seqNumber ≤ eMaxCsn := by
        rw [kept.tooFar_iff] at far
        omega
      have jumped := ((kept.receive c).mono (Set.subset_univ _)).jump c.seqNumber fun _ _ n _ => Set.mem_univ n
      show c.seqNumber ≤ (s.receiver.flow.handleUserData c).2.seqManager.getRangeAck.1
      rw [Flow.handleUserData, if_pos final]
      exact (le_addSequencesUntil near.1 near.2).trans jumped.csn_le_getRangeAck

def chunk (final : Bool) (seqNumber fsnOffset : Nat) : UserData :=
  ⟨seqNumber, fsnOffset, { flags := createFlags .whole false final, options := [], userData := [7] }⟩

/-- Number 4 comes first, then 1 and 2; number 3 never does, but the last chunk passes it over. -/
def reordered : List Incoming :=
  [.userData (chunk false 4 4), .userData (chunk false 1 1), .nextUserData (chunk false 2 2).data]

theorem acks_sound_reordered :
    ((reordered.foldl step (fresh 0)).step (.userData (chunk true 5 2))).receiver.flow.rangeAck.cumulativeAck = 5 ∧
      ((reordered.foldl step (fresh 0)).step (.userData (chunk true 5 2))).Sound := by
  have other {s : HeardFlow} {n offset : Nat} : s.FinalInOrder (.userData (chunk false n offset)) :=
    fun final => absurd (show (chunk false 0 0).data.isFinal = true from final) (by decide)
  have reach : Reach step FinalInOrder (fresh 0) (reordered.foldl step (fresh 0)) :=
    Reach.start.along ⟨other, other, trivial, trivial⟩
  refine ⟨by decide, ((acks_sound_iff reach).2 _).mpr fun _ => .inr fun n _ low => ?_⟩
  -- up to the forward number, the one that came early, and the last
  have low : n ≤ 5 := low
  have forward : (chunk true 5 2).forwardSeqNumber = 3 := rfl
  by_cases early : n = 4
  · exact .inl (.inl (early ▸ by decide))
  · by_cases last : n = 5
    · exact .inr (.inr ⟨last, by decide⟩)
    · exact .inr (.inl (by omega))

/-- The final chunk with number 2 acknowledges number 1, which never arrived. -/
theorem final_acknowledges_lost :
    ∃ s, Reach step (fun _ _ => True) (fresh 0) s ∧ s.receiver.flow.state = .isOpen ∧ ¬ s.Sound := by
  have reach : Reach step (fun _ _ => True) (fresh 0) ([.userData (chunk true 2 2)].foldl step (fresh 0)) :=
    Reach.start.foldl fun _ _ _ => trivial
  refine ⟨_, reach, by decide, fun sound => ?_⟩
  rcases sound 1 (.inl (by decide)) with accepted | ⟨forward, member, low⟩
  · exact absurd accepted (by decide)
  · have zero : forward = 0 := List.mem_singleton.mp member
    omega

end HeardFlow
end Rtmfp
end Fms
