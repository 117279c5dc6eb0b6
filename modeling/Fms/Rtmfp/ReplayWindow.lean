import Fms.Base.SlidingWindow
import Mathlib.Data.List.Nodup

namespace Fms.Rtmfp
open SlidingWindow

/-- The anti-replay state of `aes`: the highest sequence number, a window in which bit `k` tracks
the number `k` below it, and whether there was any. -/
structure ReplayWindow where
  rxSeqHigh : UInt64 := 0
  rxSeqWindow : BitVec 64 := 0
  rxSeqSeen : Bool := false
  deriving DecidableEq

namespace ReplayWindow

/-- `check_rx_seq`. -/
def checkRxSeq (s : ReplayWindow) (seq : UInt64) : Bool × ReplayWindow :=
  if !s.rxSeqSeen then (true, { rxSeqHigh := seq, rxSeqWindow := 1#64, rxSeqSeen := true })
  else if seq > s.rxSeqHigh then
    let shift := seq - s.rxSeqHigh
    let window := if shift ≥ 64 then 0#64 else s.rxSeqWindow <<< shift.toNat
    (true, { s with rxSeqWindow := window ||| 1#64, rxSeqHigh := seq })
  else
    let back := s.rxSeqHigh - seq
    if back ≥ 64 then (false, s)
    else if s.rxSeqWindow &&& 1#64 <<< back.toNat ≠ 0#64 then (false, s)
    else (true, { s with rxSeqWindow := s.rxSeqWindow ||| 1#64 <<< back.toNat })

/-- One more call, with the numbers accepted so far. -/
def call (s : ReplayWindow × List UInt64) (seq : UInt64) : ReplayWindow × List UInt64 :=
  ((s.1.checkRxSeq seq).2, if (s.1.checkRxSeq seq).1 then s.2 ++ [seq] else s.2)

def run (calls : List UInt64) : ReplayWindow × List UInt64 := calls.foldl call ({}, [])

/-- The window stands for the numbers accepted, the highest of which is at its top. -/
structure Holds (s : ReplayWindow) (accepted : List UInt64) : Prop where
  seen : s.rxSeqSeen = true
  top : s.rxSeqHigh ∈ accepted
  below : ∀ n ∈ accepted, n ≤ s.rxSeqHigh
  stands : Stands s.rxSeqHigh.toNat s.rxSeqWindow {n | ∃ m ∈ accepted, m.toNat = n}

variable {s : ReplayWindow} {accepted : List UInt64} {seq : UInt64}

/-- A number that is not above the top is in the window when it is less than 64 below it, and its
bit tells whether it was accepted. -/
theorem Holds.bit_iff (holds : Holds s accepted) (low : seq ≤ s.rxSeqHigh) (near : s.rxSeqHigh - seq < 64) :
    s.rxSeqWindow.getLsbD (s.rxSeqHigh - seq).toNat = true ↔ seq ∈ accepted := by
  have back : (s.rxSeqHigh - seq).toNat = s.rxSeqHigh.toNat - seq.toNat := UInt64.toNat_sub_of_le _ _ low
  have inside : (s.rxSeqHigh - seq).toNat < 64 := near
  have order : seq.toNat ≤ s.rxSeqHigh.toNat := low
  rw [holds.stands _ inside, back]
  constructor
  · rintro ⟨_, m, member, same⟩
    have equal : m.toNat = seq.toNat := by omega
    exact UInt64.toNat_inj.mp equal ▸ member
  · intro member
    exact ⟨by omega, seq, member, by omega⟩

theorem Holds.accepts_iff (holds : Holds s accepted) :
    (s.checkRxSeq seq).1 = true ↔
      seq ∉ accepted ∧ (s.rxSeqHigh < seq ∨ seq ≤ s.rxSeqHigh ∧ s.rxSeqHigh - seq < 64) := by
  unfold checkRxSeq
  rw [holds.seen]
  simp only [Bool.not_true, Bool.false_eq_true, if_false]
  split
  · rename_i above
    have new : seq ∉ accepted := fun member => absurd above (UInt64.not_lt.mpr (holds.below seq member))
    simp only [new, true_iff, not_false_eq_true, true_and]
    exact .inl above
  · rename_i notAbove
    have low : seq ≤ s.rxSeqHigh := UInt64.not_lt.mp notAbove
    split
    · rename_i far
      have out : ¬s.rxSeqHigh - seq < 64 := UInt64.not_lt.mpr far
      simp [notAbove, out]
    · rename_i close
      have near : s.rxSeqHigh - seq < 64 := UInt64.not_le.mp close
      have bit := holds.bit_iff low near
      rw [← mask_ne_zero] at bit
      split
      · rename_i present
        simp [bit.mp present]
      · rename_i absent
        simp only [true_iff]
        exact ⟨fun member => absent (bit.mpr member), .inr ⟨low, near⟩⟩

theorem stands_insert {top : Nat} {bits : BitVec 64}
    (stands : Stands top bits (insert seq.toNat {n | ∃ m ∈ accepted, m.toNat = n})) :
    Stands top bits {n | ∃ m ∈ accepted ++ [seq], m.toNat = n} := by
  have same : insert seq.toNat {n | ∃ m ∈ accepted, m.toNat = n} = {n | ∃ m ∈ accepted ++ [seq], m.toNat = n} := by
    ext n
    simp only [Set.mem_insert_iff, Set.mem_ofPred_eq, List.mem_append, List.mem_singleton]
    constructor
    · rintro (rfl | ⟨m, member, rfl⟩)
      · exact ⟨seq, .inr rfl, rfl⟩
      · exact ⟨m, .inl member, rfl⟩
    · rintro ⟨m, member | rfl, rfl⟩
      · exact .inr ⟨m, member, rfl⟩
      · exact .inl rfl
  exact same ▸ stands

theorem Holds.step (holds : Holds s accepted) :
    Holds (s.checkRxSeq seq).2 (if (s.checkRxSeq seq).1 then accepted ++ [seq] else accepted) := by
  unfold checkRxSeq
  rw [holds.seen]
  simp only [Bool.not_true, Bool.false_eq_true, if_false]
  split
  · rename_i above
    have sub : (seq - s.rxSeqHigh).toNat = seq.toNat - s.rxSeqHigh.toNat :=
      UInt64.toNat_sub_of_le _ _ (UInt64.le_of_lt above)
    have order : s.rxSeqHigh.toNat < seq.toNat := above
    have sum : s.rxSeqHigh.toNat + (seq - s.rxSeqHigh).toNat = seq.toNat := by omega
    have shifted : (if seq - s.rxSeqHigh ≥ 64 then 0#64 else s.rxSeqWindow <<< (seq - s.rxSeqHigh).toNat) =
        s.rxSeqWindow <<< (seq - s.rxSeqHigh).toNat := by
      split
      · rename_i far
        exact (BitVec.shiftLeft_eq_zero far).symm
      · rfl
    refine ⟨rfl, by simp, ?_, stands_insert ?_⟩
    · intro n member
      rcases List.mem_append.mp member with old | new
      · exact UInt64.le_of_lt (UInt64.lt_of_le_of_lt (holds.below n old) above)
      · exact List.mem_singleton.mp new ▸ UInt64.le_refl _
    · have below : ∀ n ∈ {n | ∃ m ∈ accepted, m.toNat = n}, n ≤ s.rxSeqHigh.toNat := by
        rintro n ⟨m, member, rfl⟩
        exact holds.below m member
      have advanced := holds.stands.advance below (show 0 < (seq - s.rxSeqHigh).toNat by omega)
      rw [sum] at advanced
      dsimp only
      rw [shifted]
      exact advanced
  · rename_i notAbove
    have low : seq ≤ s.rxSeqHigh := UInt64.not_lt.mp notAbove
    split
    · exact holds
    · split
      · exact holds
      · refine ⟨rfl, by simp [holds.top], ?_, stands_insert ?_⟩
        · intro n member
          rcases List.mem_append.mp member with old | new
          · exact holds.below n old
          · exact List.mem_singleton.mp new ▸ low
        · have back : (s.rxSeqHigh - seq).toNat = s.rxSeqHigh.toNat - seq.toNat := UInt64.toNat_sub_of_le _ _ low
          have order : seq.toNat ≤ s.rxSeqHigh.toNat := low
          have marked := holds.stands.mark (show (s.rxSeqHigh - seq).toNat ≤ s.rxSeqHigh.toNat by omega)
          have same : s.rxSeqHigh.toNat - (s.rxSeqHigh - seq).toNat = seq.toNat := by omega
          rw [same] at marked
          exact marked

theorem holds_first (seq : UInt64) : Holds (({} : ReplayWindow).checkRxSeq seq).2 [seq] where
  seen := rfl
  top := List.mem_singleton_self seq
  below := by
    intro n member
    exact List.mem_singleton.mp member ▸ UInt64.le_refl _
  stands := by
    have same : {n | ∃ m ∈ [seq], m.toNat = n} = {seq.toNat} := by
      ext n
      simp [eq_comm]
    rw [same]
    exact stands_first (by decide)

/-- From a window that stands for distinct numbers, every further call leads to another. -/
theorem Holds.calls (holds : Holds s accepted) (distinct : accepted.Nodup) (calls : List UInt64) :
    Holds (calls.foldl call (s, accepted)).1 (calls.foldl call (s, accepted)).2 ∧
      (calls.foldl call (s, accepted)).2.Nodup := by
  induction calls generalizing s accepted with
  | nil => exact ⟨holds, distinct⟩
  | cons seq rest ih =>
    refine ih holds.step ?_
    dsimp only
    split
    · rename_i fresh
      have new := (holds.accepts_iff.mp fresh).1
      exact List.Nodup.append distinct (List.nodup_singleton seq) (List.disjoint_singleton.mpr new)
    · exact distinct

/-- After any calls from a fresh state, a number is accepted exactly when it was not accepted before
and is the first one, or above the highest accepted, or less than 64 below it; so none is accepted
twice. -/
theorem accepts_exactly (calls : List UInt64) (seq : UInt64) :
    (((run calls).1.checkRxSeq seq).1 = true ↔
      seq ∉ (run calls).2 ∧
        (calls = [] ∨ ∃ highest ∈ (run calls).2, (∀ n ∈ (run calls).2, n ≤ highest) ∧
          (highest < seq ∨ seq ≤ highest ∧ highest.toNat - seq.toNat < 64))) ∧
      (run calls).2.Nodup := by
  cases calls with
  | nil => exact ⟨⟨fun _ => ⟨List.not_mem_nil, .inl rfl⟩, fun _ => rfl⟩, List.nodup_nil⟩
  | cons first rest =>
    obtain ⟨holds, distinct⟩ := (holds_first first).calls (List.nodup_singleton first) rest
    change Holds (run (first :: rest)).1 (run (first :: rest)).2 at holds
    refine ⟨holds.accepts_iff.trans (and_congr_right fun _ => ?_), distinct⟩
    constructor
    · intro place
      refine .inr ⟨_, holds.top, holds.below, place.imp_right fun ⟨low, near⟩ => ⟨low, ?_⟩⟩
      rw [← UInt64.toNat_sub_of_le _ _ low]
      exact near
    · rintro (none | ⟨highest, member, most, place⟩)
      · cases none
      · have same : highest = (run (first :: rest)).1.rxSeqHigh :=
          UInt64.le_antisymm (holds.below highest member) (most _ holds.top)
        subst same
        refine place.imp_right fun ⟨low, near⟩ => ⟨low, ?_⟩
        rw [← UInt64.toNat_sub_of_le _ _ low] at near
        exact near

end ReplayWindow
end Fms.Rtmfp
