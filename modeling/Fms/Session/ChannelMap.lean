import Fms.Base.Transition
import Fms.Rtmp.RoundTrip
import Fms.Session.ClientSession
import Mathlib

namespace Fms
open ByteWire RtmpHeader RtmpParser

/-- The media kinds, with their slots in the block of a stream. -/
inductive DataType
  | data
  | video
  | audio
  | control
  deriving DecidableEq

def DataType.slot : DataType → UInt32
  | .data => 0
  | .video => 1
  | .audio => 2
  | .control => 4

theorem DataType.slot_le (type : DataType) : type.slot.toNat ≤ 4 := by
  cases type <;> decide

theorem DataType.slot_injective {s t : DataType} (same : s.slot = t.slot) : s = t := by
  cases s <;> cases t <;> first | rfl | exact absurd same (by decide)

namespace ChannelMap

def eProtocolControlChannel : UInt32 := 2
def eCommandChannel : UInt32 := 3
def eFirstStreamChannel : UInt32 := 4
def eChannelsPerStream : UInt32 := 5

def streamToChannel (streamId : UInt32) (type : DataType) : UInt32 :=
  if streamId = 0 then if type = .control then eCommandChannel else eProtocolControlChannel
  else
    let block := eFirstStreamChannel + (streamId - 1) * eChannelsPerStream
    block + type.slot

end ChannelMap

/-- The stream ids of a `client_session`. -/
abbrev StreamIds := Finset UInt32

namespace StreamIds
open ChannelMap ClientSession

inductive Move
  | reserve
  | claim (id : UInt32)
  | unreserve (id : UInt32)

def step (held : StreamIds) : Move → StreamIds
  | .reserve => ((reserveStreamId held).map Prod.snd).getD held
  | .claim id => (claimStreamId held id).getD held
  | .unreserve id => unreserveStreamId held id

/-- The last stream all of whose channels the basic header can name. -/
def lastStream : Nat := 13119

/-- A stream that the peer names is one of those. -/
def Move.Within : Move → Prop
  | .claim id => id.toNat ≤ lastStream
  | _ => True

/-- Distinct streams and kinds have distinct chunk streams, all of which have a name. -/
def Lossless (held : StreamIds) : Prop :=
  ∀ a ∈ held, ∀ s, (4 ≤ (streamToChannel a s).toNat ∧ (streamToChannel a s).toNat ≤ 65599) ∧
    ∀ b ∈ held, ∀ t, streamToChannel a s = streamToChannel b t → a = b ∧ s = t

variable {held : StreamIds} {id : UInt32}

/-- The first numbers do not wrap. -/
theorem toNat_of_iterate {turns : Nat} (few : turns < 2 ^ 32) (member : id ∈ List.iterate (· + 1) 1 turns) :
    1 ≤ id.toNat ∧ id.toNat ≤ turns := by
  obtain ⟨place, before, rfl⟩ := List.mem_iterate.mp member
  have value : ((· + 1)^[place] (1 : UInt32)).toNat = place + 1 := by
    clear member
    induction place with
    | zero => rfl
    | succ place ih =>
      rw [Function.iterate_succ_apply', UInt32.toNat_add, ih (by omega), UInt32.toNat_one]
      exact Nat.mod_eq_of_lt (by omega)
  rw [value]
  omega

/-- How far the block of a stream is from the first one. -/
def offset (id : UInt32) : Nat := (id.toNat - 1) * 5 % 2 ^ 32

theorem offset_lt : offset id < 2 ^ 32 := Nat.mod_lt _ (by decide)

theorem toNat_streamToChannel (named : id ≠ 0) (type : DataType) :
    (streamToChannel id type).toNat = (4 + offset id + type.slot.toNat) % 2 ^ 32 := by
  have positive : 1 ≤ id.toNat := by
    have := mt UInt32.toNat_inj.mp named
    simp only [UInt32.toNat_zero] at this
    omega
  have one : (id - 1).toNat = id.toNat - 1 := UInt32.toNat_sub_of_le _ _ (UInt32.le_iff_toNat_le.mpr positive)
  have first : eFirstStreamChannel.toNat = 4 := rfl
  have each : eChannelsPerStream.toNat = 5 := rfl
  rw [streamToChannel, if_neg named, offset]
  simp only [UInt32.toNat_add, UInt32.toNat_mul, one, first, each]
  omega

theorem offset_small (small : id.toNat ≤ lastStream) : offset id = (id.toNat - 1) * 5 := by
  unfold lastStream at small
  exact Nat.mod_eq_of_lt (by omega)

/-- Five is invertible, so that a stream is given by the place of its block. -/
theorem offset_injective {n : Nat} (small : n < 2 ^ 32) (same : offset id = n * 5) : id.toNat - 1 = n := by
  have fits : n * 5 < 2 ^ 32 := same ▸ offset_lt
  have congruent : (id.toNat - 1) * 5 ≡ n * 5 [MOD 2 ^ 32] := same.trans (Nat.mod_eq_of_lt fits).symm
  have below := id.toNat_lt
  exact (congruent.cancel_right_of_coprime (by decide)).eq_of_lt_of_lt (by omega) small

theorem streamToChannel_small (positive : 1 ≤ id.toNat) (small : id.toNat ≤ lastStream) (type : DataType) :
    (streamToChannel id type).toNat = 4 + (id.toNat - 1) * 5 + type.slot.toNat := by
  have named : id ≠ 0 := by
    rintro rfl
    cases positive
  have slot := type.slot_le
  rw [toNat_streamToChannel named, offset_small small]
  unfold lastStream at small
  omega

/-- The streams up to the last one have blocks of their own. -/
theorem lossless_of_small (small : ∀ id ∈ held, 1 ≤ id.toNat ∧ id.toNat ≤ lastStream) : held.Lossless := by
  intro a first s
  obtain ⟨positive, last⟩ := small a first
  have channel := streamToChannel_small positive last s
  have slot := s.slot_le
  refine ⟨?_, fun b second t same => ?_⟩
  · unfold lastStream at last
    omega
  · obtain ⟨positive', last'⟩ := small b second
    have channel' := streamToChannel_small positive' last' t
    have slot' := t.slot_le
    have equal := congrArg UInt32.toNat same
    have streams : a.toNat = b.toNat := by omega
    exact ⟨UInt32.toNat_inj.mp streams, DataType.slot_injective (UInt32.toNat_inj.mp (by omega))⟩

theorem small_step {move : Move} (within : move.Within) (small : ∀ id ∈ held, 1 ≤ id.toNat ∧ id.toNat ≤ lastStream) :
    ∀ id ∈ held.step move, 1 ≤ id.toNat ∧ id.toNat ≤ lastStream := by
  have grow {new : UInt32} (positive : 1 ≤ new.toNat) (last : new.toNat ≤ lastStream) :
      ∀ id ∈ insert new held, 1 ≤ id.toNat ∧ id.toNat ≤ lastStream := by
    intro id member
    rcases Finset.mem_insert.mp member with rfl | before
    · exact ⟨positive, last⟩
    · exact small id before
  cases move with
  | reserve =>
    show ∀ other ∈ ((reserveStreamId held).map Prod.snd).getD held, _
    cases reserved : reserveStreamId held with
    | none => exact small
    | some taken =>
      obtain ⟨few, first, _, grown⟩ := reserveStreamId_eq_some reserved
      unfold eMaxStreams at few
      obtain ⟨least, most⟩ := toNat_of_iterate (by omega) first
      rw [Option.map_some, Option.getD_some, grown]
      exact grow least (by unfold lastStream; omega)
  | claim id =>
    show ∀ other ∈ (claimStreamId held id).getD held, _
    cases claimed : claimStreamId held id with
    | none => exact small
    | some next =>
      obtain ⟨named, rfl⟩ := claimStreamId_eq_some claimed
      have positive := mt UInt32.toNat_inj.mp named
      simp only [UInt32.toNat_zero] at positive
      exact grow (by omega) within
  | unreserve id => exact fun other member => small other (Finset.mem_of_mem_erase member)

/-- A block that ends beyond the last channel has one without a name. -/
theorem unnamed_of_offset (named : id ≠ 0) (far : 65591 < offset id) :
    ∃ type, ¬(4 ≤ (streamToChannel id type).toNat ∧ (streamToChannel id type).toNat ≤ 65599) := by
  have bound : offset id < 2 ^ 32 := offset_lt
  have control := toNat_streamToChannel named .control
  have data := toNat_streamToChannel named .data
  have four : DataType.control.slot.toNat = 4 := rfl
  have zero : DataType.data.slot.toNat = 0 := rfl
  by_cases wraps : offset id + 8 < 2 ^ 32
  · exact ⟨.control, by omega⟩
  · exact ⟨.data, by omega⟩

/-- A late stream whose block is among the first ones starts inside that of an early stream. -/
theorem shared_of_offset (late : lastStream < id.toNat) (near : offset id ≤ 65591) :
    ∃ other s t, other ≠ 0 ∧ other ≠ id ∧ streamToChannel other s = streamToChannel id t := by
  have named : id ≠ 0 := by
    rintro rfl
    cases late
  unfold lastStream at late
  have value : (UInt32.ofNat (offset id / 5 + 1)).toNat = offset id / 5 + 1 := toNat_word (by omega)
  generalize UInt32.ofNat (offset id / 5 + 1) = other at value
  have other_named : other ≠ 0 := by
    rintro rfl
    cases value
  have apart : other ≠ id := by
    rintro rfl
    omega
  have inside : offset id % 5 ≠ 0 := by
    intro multiple
    have same : id.toNat - 1 = offset id / 5 := offset_injective (by omega) (by omega)
    omega
  have channel := toNat_streamToChannel named
  have channel' : ∀ type : DataType, (streamToChannel other type).toNat = 4 + (other.toNat - 1) * 5 +
      type.slot.toNat :=
    streamToChannel_small (by omega) (by unfold lastStream; omega)
  have meet {s t : DataType} (slots : offset id % 5 + t.slot.toNat = s.slot.toNat) :
      streamToChannel other s = streamToChannel id t := by
    have upper := s.slot_le
    refine UInt32.toNat_inj.mp ?_
    rw [channel, channel']
    omega
  have places : offset id % 5 = 1 ∨ offset id % 5 = 2 ∨ offset id % 5 = 3 ∨ offset id % 5 = 4 := by omega
  rcases places with one | two | three | four
  · exact ⟨other, .video, .data, other_named, apart, meet (by rw [one]; rfl)⟩
  · exact ⟨other, .audio, .data, other_named, apart, meet (by rw [two]; rfl)⟩
  · exact ⟨other, .control, .video, other_named, apart, meet (by rw [three]; rfl)⟩
  · exact ⟨other, .control, .data, other_named, apart, meet (by rw [four]; rfl)⟩

theorem claim_first (named : id ≠ 0) : step ∅ (.claim id) = {id} := by
  simp [step, claimStreamId, named, eMaxStreams]

theorem claim_second {other : UInt32} (named : other ≠ 0) (apart : other ≠ id) :
    step {id} (.claim other) = {other, id} := by
  simp [step, claimStreamId, named, apart, eMaxStreams]

/-- While the peer names no stream beyond the last one, the streams a session holds have
chunk streams of their own, which the basic header gives back. Any later stream can come to
be held by a session of which this is not true. -/
theorem channels_lossless_iff (held : StreamIds) (id : UInt32) :
    (Transition.Reach step (fun _ move => move.Within) ∅ held →
      Lossless held ∧ ∀ id ∈ held, ∀ type format rest,
        peekChannelId (basicHeader format (streamToChannel id type) ++ rest) = some (streamToChannel id type)) ∧
    (lastStream < id.toNat →
      ∃ held, Transition.Reach step (fun _ _ => True) ∅ held ∧ id ∈ held ∧ ¬Lossless held) := by
  constructor
  · intro reach
    have small := reach.invariant (I := fun held => ∀ id ∈ held, 1 ≤ id.toNat ∧ id.toNat ≤ lastStream)
      (fun id member => absurd member (Finset.notMem_empty id)) small_step
    have lossless := lossless_of_small small
    refine ⟨lossless, fun id member type format rest => peekChannelId_basicHeader format ?_ rest⟩
    obtain ⟨⟨least, most⟩, _⟩ := lossless id member type
    exact ⟨by omega, most⟩
  · intro late
    have named : id ≠ 0 := by
      rintro rfl
      cases late
    have first : Transition.Reach step (fun _ _ => True) ∅ {id} := by
      rw [← claim_first named]
      exact .next .start _ trivial
    by_cases near : offset id ≤ 65591
    · obtain ⟨other, s, t, other_named, apart, same⟩ := shared_of_offset late near
      have both : Transition.Reach step (fun _ _ => True) ∅ {other, id} := by
        rw [← claim_second other_named apart]
        exact first.next _ trivial
      refine ⟨_, both, by simp, fun lossless => apart ?_⟩
      exact ((lossless other (by simp) s).2 id (by simp) t same).1
    · obtain ⟨type, unnamed⟩ := unnamed_of_offset named (by omega)
      exact ⟨_, first, by simp, fun lossless => unnamed (lossless id (by simp) type).1⟩

def twoAndLast : StreamIds := List.foldl step ∅ [.reserve, .claim 13119, .reserve]

theorem channels_lossless_last : twoAndLast = {2, 13119, 1} ∧ Lossless twoAndLast := by
  have reach : Transition.Reach step (fun _ move => move.Within) ∅ twoAndLast :=
    Transition.Reach.start.along ⟨trivial, Nat.le_refl 13119, trivial, trivial⟩
  exact ⟨by decide, ((channels_lossless_iff _ 0).1 reach).1⟩

/-- The next stream: its video goes out under the name of another chunk stream. A far one
shares a chunk stream with the first. -/
theorem channels_lost :
    13120 ∈ step ∅ (.claim 13120) ∧ streamToChannel 13120 .video = 65600 ∧
      peekChannelId (basicHeader .headerNew (streamToChannel 13120 .video)) = some 64 ∧
      (1 ∈ List.foldl step ∅ [.reserve, .claim 0xCCCCCCCE] ∧
        0xCCCCCCCE ∈ List.foldl step ∅ [.reserve, .claim 0xCCCCCCCE]) ∧
      streamToChannel 1 .video = streamToChannel 0xCCCCCCCE .data := by
  decide

end StreamIds
end Fms
