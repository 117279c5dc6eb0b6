import Fms.Rtmfp.Framing
import Fms.Rtmfp.RangeAcks

namespace Fms
open ByteWire

variable {ranges : List (Nat × Nat)}

namespace Rtmfp

def rangeBytes (ranges : List (Nat × Nat)) : Bytes := ranges.flatMap fun range => writeVlu range.1 ++ writeVlu range.2

/-- The body of a `range_ack_chunk`. -/
def rangeAckBody (flowId buffBlocksAvailable cumulativeAck : Nat) (ranges : List (Nat × Nat)) : Bytes :=
  writeVlu flowId ++ writeVlu buffBlocksAvailable ++ writeVlu cumulativeAck ++ rangeBytes ranges

/-- `serialize_chunk_header`: the type and the low 16 bits of the length, before the body. -/
def serializeChunk (type : UInt8) (body : Bytes) : Bytes := type :: (beBytes 2 (body.length % 2 ^ 16) ++ body)

/-- `range_ack_chunk::serialize`. -/
def serializeRangeAck (flowId buffBlocksAvailable cumulativeAck : Nat) (ranges : List (Nat × Nat)) : Bytes :=
  serializeChunk 0x51 (rangeAckBody flowId buffBlocksAvailable cumulativeAck ranges)

/-- A chunk as the reader of packets takes it: the type, the length and what it says. -/
def deserializeWhole (raw : Bytes) : Option (Chunk × Bytes) := do
  let (type, r) ← tryU8 raw
  let (len, r) ← takeBytes 2 r
  let type ← ChunkType.ofByte type
  deserialize type r (beNat len)

/-- A chunk with the header that `serialize_chunk_header` writes is read by its type, from its
body on and by its length. -/
theorem deserializeWhole_serializeChunk {type : UInt8} {kind : ChunkType} (known : ChunkType.ofByte type = some kind)
    {body : Bytes} (short : body.length < 2 ^ 16) (rest : Bytes) :
    deserializeWhole (serializeChunk type body ++ rest) = deserialize kind (body ++ rest) body.length := by
  have length : beNat (beBytes 2 (body.length % 2 ^ 16)) = body.length := by
    rw [beNat_beBytes]
    omega
  rw [deserializeWhole, serializeChunk, List.cons_append, List.append_assoc]
  simp only [tryU8, Option.bind_eq_bind, Option.bind_some, takeBytes_append (length_beBytes 2 _), length, known]

theorem writeVlu_length_pos (v : Nat) : 1 ≤ (writeVlu v).length := by
  rw [length_writeVlu]
  exact vluSizeFrom_pos 9 v

theorem readRanges_write (small : ∀ range ∈ ranges, range.1 < 2 ^ 64 ∧ range.2 < 2 ^ 64) {fuel cursor : Nat}
    (enough : (rangeBytes ranges).length ≤ fuel) :
    readRanges 0 fuel cursor (rangeBytes ranges) = some (absoluteRanges cursor ranges, []) := by
  induction ranges generalizing fuel cursor with
  | nil => exact readRanges_done fuel cursor (Nat.le_refl 0)
  | cons range ranges ih =>
    obtain ⟨first, second⟩ := small range List.mem_cons_self
    have bytes : rangeBytes (range :: ranges) = writeVlu range.1 ++ (writeVlu range.2 ++ rangeBytes ranges) := by
      rw [rangeBytes, List.flatMap_cons, List.append_assoc]
      rfl
    have some := writeVlu_length_pos range.1
    rw [bytes, List.length_append, List.length_append] at enough
    cases fuel with
    | zero => omega
    | succ fuel =>
      have later : readRanges 0 fuel (absoluteRange cursor range.1 range.2).2 (rangeBytes ranges) = _ :=
        ih (fun other member => small other (List.mem_cons_of_mem _ member)) (by omega)
      have more : (writeVlu range.1 ++ (writeVlu range.2 ++ rangeBytes ranges)).length > 0 := by
        rw [List.length_append]
        omega
      rw [bytes, readRanges, if_pos more]
      simp only [readVlu_writeVlu first, readVlu_writeVlu second, Option.bind_eq_bind, Option.bind_some, later,
        Option.pure_def]
      rfl

theorem readRangeAck_write {flowId buffBlocksAvailable cumulativeAck : Nat} (flow : flowId < 2 ^ 64)
    (available : buffBlocksAvailable < 2 ^ 64) (cumulative : cumulativeAck < 2 ^ 64)
    (small : ∀ range ∈ ranges, range.1 < 2 ^ 64 ∧ range.2 < 2 ^ 64) :
    readRangeAck (rangeAckBody flowId buffBlocksAvailable cumulativeAck ranges)
        (rangeAckBody flowId buffBlocksAvailable cumulativeAck ranges).length =
      some (.rangeAck flowId buffBlocksAvailable cumulativeAck (absoluteRanges cumulativeAck ranges), []) := by
  have fields : rangeAckFields (rangeAckBody flowId buffBlocksAvailable cumulativeAck ranges) =
      some ((flowId, buffBlocksAvailable, cumulativeAck), rangeBytes ranges) := by
    rw [rangeAckBody, List.append_assoc, List.append_assoc]
    simp only [rangeAckFields, readVlu_writeVlu flow, readVlu_writeVlu available, readVlu_writeVlu cumulative,
      Option.bind_eq_bind, Option.bind_some, Option.pure_def]
  rw [readRangeAck, fields]
  simp only [Option.bind_eq_bind, Option.bind_some, Nat.sub_self, readRanges_write small (Nat.le_refl _),
    Option.pure_def]

/-- A bound for the bytes of the ranges, by their number and their extent. -/
theorem length_rangeBytes (small : ∀ range ∈ ranges, range.1 < 2 ^ 32 ∧ range.2 < 2 ^ 32) :
    (rangeBytes ranges).length ≤ 6 * ranges.length + (ranges.map fun range => range.1 + range.2).sum / 2 ^ 21 := by
  induction ranges with
  | nil => exact Nat.zero_le _
  | cons range ranges ih =>
    obtain ⟨first, second⟩ := small range List.mem_cons_self
    have later := ih fun other member => small other (List.mem_cons_of_mem _ member)
    have left := length_writeVlu_le first
    have right := length_writeVlu_le second
    rw [rangeBytes] at later
    simp only [rangeBytes, List.flatMap_cons, List.length_append, List.length_cons, List.map_cons, List.sum_cons]
    omega

theorem length_writeVlu_ten {v : Nat} (fits : v < 2 ^ 64) : (writeVlu v).length ≤ 10 := by
  rw [length_writeVlu]
  exact vluSizeFrom_le (by omega)

theorem deserializeWhole_rangeAck {flowId buffBlocksAvailable cumulativeAck : Nat} (flow : flowId < 2 ^ 64)
    (available : buffBlocksAvailable < 2 ^ 64) (cumulative : cumulativeAck < 2 ^ 64)
    (small : ∀ range ∈ ranges, range.1 < 2 ^ 32 ∧ range.2 < 2 ^ 32)
    (short : 6 * ranges.length + (ranges.map fun range => range.1 + range.2).sum / 2 ^ 21 ≤ 60000) :
    deserializeWhole (serializeRangeAck flowId buffBlocksAvailable cumulativeAck ranges) =
      some (.rangeAck flowId buffBlocksAvailable cumulativeAck (absoluteRanges cumulativeAck ranges), []) := by
  have first := length_writeVlu_ten flow
  have second := length_writeVlu_ten available
  have third := length_writeVlu_ten cumulative
  have body := length_rangeBytes small
  have kind : ChunkType.ofByte 0x51 = some .dataAcknowledgementRanges := by decide
  rw [serializeRangeAck, ← List.append_nil (serializeChunk _ _), deserializeWhole_serializeChunk kind,
    List.append_nil]
  · refine readRangeAck_write flow available cumulative fun range member => ?_
    obtain ⟨left, right⟩ := small range member
    exact ⟨by omega, by omega⟩
  · simp only [rangeAckBody, List.length_append]
    omega

def Acknowledges (cumulativeAck : Nat) (ranges : List (Nat × Nat)) (n : Nat) : Prop :=
  (1 ≤ n ∧ n ≤ cumulativeAck) ∨ SeqManager.InRanges ranges n

end Rtmfp

namespace SeqManager
open Rtmfp

variable {s : SeqManager} {prev a cursor : Nat} {list : List Nat}

/-- The numbers of the ranges lie behind each other below the greatest sequence number. -/
theorem At.countSequences_extent (here : s.At prev a cursor list) (holes : s.Holes) :
    cursor + ((countSequences s.sequences prev a list).map fun range => range.1 + range.2).sum +
        2 * (countSequences s.sequences prev a list).length ≤ eMaxCsn ∧
      (countSequences s.sequences prev a list).length ≤ list.length + 1 ∧
      ∀ range ∈ countSequences s.sequences prev a list, range.1 ≤ eMaxCsn ∧ range.2 ≤ eMaxCsn := by
  induction list generalizing prev a cursor with
  | nil =>
    obtain ⟨above, absent, m, received, less⟩ := (holes.holes prev).mp (here.missing prev List.mem_cons_self)
    have covered : prev + 1 + receivedRun s.sequences s.sequences.size (prev + 1) ∈ s.sequences := by
      by_cases zero : receivedRun s.sequences s.sequences.size (prev + 1) = 0
      · rw [zero]
        exact here.last holes (Nat.lt_succ_self prev) received less
      · exact receivedRun_mem (by omega) (Nat.le_refl _)
    have limit := (holes.inside _ covered).2
    have run := here.run
    simp only [countSequences, List.map_cons, List.map_nil, List.sum_cons, List.sum_nil, List.length_cons,
      List.length_nil, List.mem_singleton]
    refine ⟨by omega, by omega, ?_⟩
    rintro range rfl
    exact ⟨by omega, by omega⟩
  | cons i list ih =>
    have below := (List.pairwise_cons.mp here.sorted).1 i List.mem_cons_self
    have run := here.run
    unfold countSequences
    split
    · rename_i direct
      obtain ⟨extent, count, each⟩ := ih (here.direct direct)
      exact ⟨extent, by rw [List.length_cons]; omega, each⟩
    · rename_i apart
      obtain ⟨extent, count, each⟩ := ih here.apart
      simp only [List.map_cons, List.sum_cons, List.length_cons]
      refine ⟨by omega, by omega, fun range member => ?_⟩
      rcases List.mem_cons.mp member with rfl | later
      · exact ⟨by omega, by omega⟩
      · exact each range later

/-- What has been received above the cumulative number and what is missing are together the
numbers up to the greatest received one. -/
structure Partition (s : SeqManager) : Prop where
  cumulative : s.csn < 2 ^ 32
  small : ∀ n ∈ s.sequences, n < 2 ^ 32
  disjoint : ∀ n ∈ s.sequences, n ∉ s.missing
  together : ∀ n, n ∈ s.sequences ∨ n ∈ s.missing ↔ s.csn < n ∧ ∃ m ∈ s.sequences, n ≤ m

theorem Partition.holes (partition : s.Partition) : s.Holes where
  inside n received := by
    have small := partition.small n received
    exact ⟨((partition.together n).mp (.inl received)).1, by unfold eMaxCsn; omega⟩
  holes n := by
    constructor
    · intro hole
      obtain ⟨above, m, received, less⟩ := (partition.together n).mp (.inr hole)
      have absent : n ∉ s.sequences := fun received => partition.disjoint n received hole
      have different : n ≠ m := fun same => absent (same ▸ received)
      exact ⟨above, absent, m, received, by omega⟩
    · rintro ⟨above, absent, m, received, less⟩
      exact ((partition.together n).mpr ⟨above, m, received, less.le⟩).resolve_left absent

/-- The acknowledgement that is read back speaks of exactly the numbers that have been received,
as long as no more are missing than the tracker allows. -/
theorem range_ack_exact (partition : s.Partition) (gaps : s.missing.elems = [] → s.sequences.elems = [])
    (few : s.missing.size ≤ eMaxMissing) {flowId buffBlocksAvailable : Nat} (flow : flowId < 2 ^ 64)
    (available : buffBlocksAvailable < 2 ^ 64) :
    ∃ ranges, deserializeWhole (serializeRangeAck flowId buffBlocksAvailable s.getRangeAck.1 s.getRangeAck.2) =
        some (.rangeAck flowId buffBlocksAvailable s.getRangeAck.1 ranges, []) ∧
      ∀ n, Acknowledges s.getRangeAck.1 ranges n ↔ (1 ≤ n ∧ n ≤ s.csn) ∨ n ∈ s.sequences := by
  have holes := partition.holes
  have cumulative := partition.cumulative
  cases listed : s.missing.elems with
  | nil =>
    have ack : s.getRangeAck = (s.csn, []) := by rw [getRangeAck, listed]
    have nothing (n : Nat) : n ∉ s.sequences := by
      show n ∉ s.sequences.elems
      rw [gaps listed]
      exact List.not_mem_nil
    rw [ack]
    refine ⟨[], deserializeWhole_rangeAck flow available (by omega) (fun _ none => absurd none List.not_mem_nil)
      (by simp), fun n => ?_⟩
    simp [Acknowledges, InRanges, nothing]
  | cons first rest =>
    obtain ⟨ack, above, m, received, less⟩ := holes.getRangeAck_eq listed
    have limit := partition.small m received
    have here := at_first listed (by omega)
    obtain ⟨extent, count, each⟩ := here.countSequences_extent holes
    have size : rest.length + 1 ≤ 8192 := by
      rw [OrdSet.size, listed, List.length_cons] at few
      exact few
    unfold eMaxCsn at extent each
    rw [ack]
    dsimp only
    refine ⟨_, deserializeWhole_rangeAck flow available (by omega) (fun range member => ?_) (by omega), fun n => ?_⟩
    · obtain ⟨left, right⟩ := each range member
      exact ⟨by omega, by omega⟩
    · rw [Acknowledges, here.countSequences_exact holes]
      constructor
      · rintro (⟨positive, below⟩ | ⟨found, _⟩)
        · by_cases low : n ≤ s.csn
          · exact .inl ⟨positive, low⟩
          · refine .inr (holes.received_of_not_missing (by omega) received (by omega) fun missing => ?_)
            have later := here.rest_le listed missing
            omega
        · exact .inr found
      · rintro (⟨positive, below⟩ | found)
        · exact .inl ⟨positive, by omega⟩
        · have absent := ((holes.holes first).mp (here.missing first List.mem_cons_self)).2.1
          have different : n ≠ first := fun same => absent (same ▸ found)
          have inside := (holes.inside n found).1
          by_cases low : n < first
          · exact .inl ⟨by omega, by omega⟩
          · exact .inr ⟨found, by omega⟩

def twoHoles : SeqManager where
  csn := 2
  sequences := ⟨[4, 5, 8], by decide⟩
  missing := ⟨[3, 6, 7], by decide⟩

theorem range_ack_exact_twoHoles :
    twoHoles.getRangeAck = (2, [(0, 1), (1, 0)]) ∧
      ∃ ranges, deserializeWhole (serializeRangeAck 7 100 2 [(0, 1), (1, 0)]) = some (.rangeAck 7 100 2 ranges, []) ∧
        ∀ n, Acknowledges 2 ranges n ↔ (1 ≤ n ∧ n ≤ 2) ∨ n ∈ twoHoles.sequences := by
  have partition : twoHoles.Partition := by
    have received (n : Nat) : n ∈ twoHoles.sequences ↔ n = 4 ∨ n = 5 ∨ n = 8 := by
      show n ∈ [4, 5, 8] ↔ _
      simp
    have missing (n : Nat) : n ∈ twoHoles.missing ↔ n = 3 ∨ n = 6 ∨ n = 7 := by
      show n ∈ [3, 6, 7] ↔ _
      simp
    refine ⟨by decide, fun n => ?_, fun n => ?_, fun n => ?_⟩
    · rw [received]
      omega
    · rw [received, missing]
      omega
    · rw [received, missing]
      constructor
      · intro either
        exact ⟨by show 2 < n; omega, 8, (received 8).mpr (by simp), by omega⟩
      · rintro ⟨above, m, inside, below⟩
        rw [received] at inside
        have above : 2 < n := above
        omega
  exact ⟨by decide, range_ack_exact partition nofun (by decide) (by decide) (by decide)⟩

/-- A number that follows the cumulative one directly and was not taken over by it. -/
def notAbsorbed : SeqManager where
  sequences := ⟨[1], by decide⟩

/-- With nothing missing only the cumulative number is sent. -/
theorem range_ack_not_absorbed :
    notAbsorbed.Partition ∧ 1 ∈ notAbsorbed.sequences ∧
      deserializeWhole (serializeRangeAck 7 100 notAbsorbed.getRangeAck.1 notAbsorbed.getRangeAck.2) =
        some (.rangeAck 7 100 0 [], []) ∧ ¬Acknowledges 0 [] 1 := by
  have received (n : Nat) : n ∈ notAbsorbed.sequences ↔ n = 1 := by
    show n ∈ [1] ↔ _
    simp
  refine ⟨⟨by decide, fun n => ?_, fun n _ => OrdSet.notMem_empty n, fun n => ?_⟩, by decide, by decide, ?_⟩
  · rw [received]
    omega
  · have missing : n ∉ notAbsorbed.missing := OrdSet.notMem_empty n
    have start : notAbsorbed.csn = 0 := rfl
    rw [received, start]
    constructor
    · rintro (rfl | hole)
      · exact ⟨by omega, 1, (received 1).mpr rfl, by omega⟩
      · exact absurd hole missing
    · rintro ⟨above, m, inside, below⟩
      rw [received] at inside
      exact .inl (by omega)
  · rintro (⟨_, below⟩ | ⟨r, none, _⟩)
    · exact absurd below (by decide)
    · cases none

end SeqManager
end Fms
