import Fms.Rtmfp.Network
import Fms.Rtmfp.SeqTracking

namespace Fms
open ByteWire Rtmfp

variable {sequences : OrdSet Nat} {m n first : Nat} {rest : List Nat}

namespace SeqManager

theorem receivedRun_mem {fuel prev k : Nat} (lower : 1 ≤ k) (upper : k ≤ receivedRun sequences fuel prev) :
    prev + k ∈ sequences := by
  induction fuel generalizing prev k with
  | zero =>
    simp only [receivedRun] at upper
    omega
  | succ fuel ih =>
    simp only [receivedRun] at upper
    split at upper
    · rename_i next
      by_cases direct : k = 1
      · rwa [direct]
      · have later : prev + 1 + (k - 1) ∈ sequences := ih (by omega) (by omega)
        rwa [show prev + 1 + (k - 1) = prev + k by omega] at later
    · omega

/-- The run is not cut short while there are as many turns left as numbers in it. -/
theorem le_receivedRun {fuel prev : Nat} (enough : m ≤ fuel) (received : ∀ k, 1 ≤ k → k ≤ m → prev + k ∈ sequences) :
    m ≤ receivedRun sequences fuel prev := by
  induction fuel generalizing prev m with
  | zero => exact enough
  | succ fuel ih =>
    cases m with
    | zero => exact Nat.zero_le _
    | succ m =>
      rw [receivedRun, if_pos (received 1 (Nat.le_refl 1) (by omega))]
      refine Nat.succ_le_succ (ih (by omega) fun k lower upper => ?_)
      have next := received (k + 1) (by omega) (by omega)
      rwa [show prev + 1 + k = prev + (k + 1) by omega]

theorem run_le_size {prev : Nat} (received : ∀ k, 1 ≤ k → k ≤ m → prev + k ∈ sequences) : m ≤ sequences.size := by
  have inside : List.range' (prev + 1) m ⊆ sequences.elems := by
    intro n member
    obtain ⟨lower, upper⟩ := List.mem_range'_1.mp member
    have found : prev + (n - prev) ∈ sequences := received (n - prev) (by omega) (by omega)
    rwa [show prev + (n - prev) = n by omega] at found
  have fits := (List.subperm_of_subset List.nodup_range' inside).length_le
  rwa [List.length_range'] at fits

/-- What the ranges need of a state: the missing numbers are the holes below what has been
received. -/
structure Holes (s : SeqManager) : Prop where
  inside : ∀ n ∈ s.sequences, s.csn < n ∧ n ≤ eMaxCsn
  holes : ∀ n, n ∈ s.missing ↔ s.csn < n ∧ n ∉ s.sequences ∧ ∃ m ∈ s.sequences, n < m

variable {s : SeqManager} {R : Set Nat}

theorem Drifts.toHoles {extra : Nat} (drifts : Drifts s R extra) : s.Holes := ⟨drifts.inside, drifts.holes⟩

/-- Between a hole and something received there are only holes and received numbers. -/
theorem Holes.received_of_not_missing (holes : s.Holes) (above : s.csn < n) (received : m ∈ s.sequences)
    (less : n ≤ m) (found : n ∉ s.missing) : n ∈ s.sequences := by
  by_contra absent
  have different : n ≠ m := fun same => absent (same ▸ received)
  exact found ((holes.holes n).mpr ⟨above, absent, m, received, by omega⟩)

theorem absoluteRange_eq {cursor a b prev : Nat} (run : cursor + 1 + a = prev) (bound : prev + 1 + b ≤ eMaxCsn) :
    absoluteRange cursor a b = (prev + 1, prev + 1 + b) := by
  have small (n : Nat) (le : n ≤ eMaxCsn) : wrap64 n = n := Nat.mod_eq_of_lt (by unfold eMaxCsn at le; omega)
  have first : wrap64 (a + (cursor + 1 + 1)) = prev + 1 := by
    rw [small _ (by omega)]
    omega
  simp only [absoluteRange, first, small (b + (prev + 1)) (by omega), Prod.mk.injEq, true_and]
  omega

def InRanges (ranges : List (Nat × Nat)) (n : Nat) : Prop := ∃ r ∈ ranges, r.1 ≤ n ∧ n ≤ r.2

theorem inRanges_cons {r : Nat × Nat} {ranges : List (Nat × Nat)} :
    InRanges (r :: ranges) n ↔ (r.1 ≤ n ∧ n ≤ r.2) ∨ InRanges ranges n := by
  simp [InRanges]

/-- The place in the list of missing numbers that `count_sequence` has come to: `prev` with
`a` holes directly before it, and those that are left. -/
structure At (s : SeqManager) (prev a cursor : Nat) (list : List Nat) : Prop where
  run : cursor + 1 + a = prev
  sorted : (prev :: list).Pairwise (· < ·)
  missing : ∀ n ∈ prev :: list, n ∈ s.missing
  rest : ∀ n ∈ s.missing, prev < n → n ∈ list

section At
variable {prev a cursor i : Nat} {list : List Nat}

theorem At.next {a' cursor' : Nat} (here : s.At prev a cursor (i :: list)) (run : cursor' + 1 + a' = i) :
    s.At i a' cursor' list := by
  have below := (List.pairwise_cons.mp here.sorted).1 i List.mem_cons_self
  refine ⟨run, (List.pairwise_cons.mp here.sorted).2, fun n member =>
    here.missing n (List.mem_cons_of_mem _ member), fun n hole past => ?_⟩
  exact (List.mem_cons.mp (here.rest n hole (by omega))).resolve_left (by omega)

theorem At.direct (here : s.At prev a cursor (i :: list)) (direct : i = prev + 1) :
    s.At (prev + 1) (a + 1) cursor list := by
  have run := here.run
  exact direct ▸ here.next (by omega)

theorem At.apart (here : s.At prev a cursor (i :: list)) : s.At i 0 (i - 1) list := by
  have below := (List.pairwise_cons.mp here.sorted).1 i List.mem_cons_self
  exact here.next (by omega)

theorem At.last (here : s.At prev a cursor []) (holes : s.Holes) (past : prev < n) (received : m ∈ s.sequences)
    (less : n ≤ m) :
    n ∈ s.sequences := by
  have above := ((holes.holes prev).mp (here.missing prev List.mem_cons_self)).1
  exact holes.received_of_not_missing (by omega) received less fun hole => List.not_mem_nil (here.rest n hole past)

theorem At.countSequences_exact (here : s.At prev a cursor list) (holes : s.Holes) (n : Nat) :
    InRanges (absoluteRanges cursor (countSequences s.sequences prev a list)) n ↔ n ∈ s.sequences ∧ prev < n := by
  induction list generalizing prev a cursor with
  | nil =>
    obtain ⟨above, absent, m, received, less⟩ := (holes.holes prev).mp (here.missing prev List.mem_cons_self)
    have next : prev + 1 ∈ s.sequences := here.last holes (Nat.lt_succ_self prev) received less
    have covered (k : Nat) (within : k ≤ receivedRun s.sequences s.sequences.size (prev + 1)) :
        prev + 1 + k ∈ s.sequences := by
      by_cases zero : k = 0
      · rwa [zero]
      · exact receivedRun_mem (by omega) within
    have range := absoluteRange_eq here.run (holes.inside _ (covered _ (Nat.le_refl _))).2
    simp only [countSequences, absoluteRanges, range, inRanges_cons]
    constructor
    · rintro (⟨lower, upper⟩ | ⟨r, none, _⟩)
      · have found := covered (n - (prev + 1)) (by omega)
        rw [show prev + 1 + (n - (prev + 1)) = n by omega] at found
        exact ⟨found, by omega⟩
      · cases none
    · rintro ⟨found, past⟩
      have all (k : Nat) (lower : 1 ≤ k) (upper : k ≤ n - (prev + 1)) : prev + 1 + k ∈ s.sequences :=
        here.last holes (by omega) found (by omega)
      have reaches := le_receivedRun (run_le_size all) all
      exact .inl ⟨past, by omega⟩
  | cons i list ih =>
    have below := (List.pairwise_cons.mp here.sorted).1 i List.mem_cons_self
    unfold countSequences
    split
    · rename_i direct
      rw [ih (here.direct direct)]
      have absent := ((holes.holes i).mp (here.missing i (by simp))).2.1
      constructor
      · exact fun ⟨found, past⟩ => ⟨found, by omega⟩
      · refine fun ⟨found, past⟩ => ⟨found, ?_⟩
        have different : n ≠ i := fun same => absent (same ▸ found)
        omega
    · rename_i apart
      obtain ⟨_, absent, m, received, less⟩ := (holes.holes i).mp (here.missing i (by simp))
      have above := ((holes.holes prev).mp (here.missing prev List.mem_cons_self)).1
      have limit := (holes.inside m received).2
      have range := absoluteRange_eq here.run (by omega : prev + 1 + (i - 1 - (prev + 1)) ≤ eMaxCsn)
      have last : prev + 1 + (i - 1 - (prev + 1)) = i - 1 := by omega
      simp only [absoluteRanges, range, inRanges_cons, last, ih here.apart]
      constructor
      · rintro (⟨lower, upper⟩ | ⟨found, past⟩)
        · refine ⟨holes.received_of_not_missing (by omega) received (by omega) fun hole => ?_, by omega⟩
          rcases List.mem_cons.mp (here.rest n hole (by omega)) with same | tail
          · omega
          · have later := (List.pairwise_cons.mp (List.pairwise_cons.mp here.sorted).2).1 n tail
            omega
        · exact ⟨found, by omega⟩
      · rintro ⟨found, past⟩
        have different : n ≠ i := fun same => absent (same ▸ found)
        by_cases inside : n ≤ i - 1
        · exact .inl ⟨past, inside⟩
        · exact .inr ⟨found, by omega⟩

theorem At.rest_le (here : s.At first 0 (first - 1) rest) (listed : s.missing.elems = first :: rest)
    (missing : n ∈ s.missing) :
    first ≤ n := by
  have member : n ∈ first :: rest := listed ▸ missing
  rcases List.mem_cons.mp member with same | tail
  · omega
  · exact ((List.pairwise_cons.mp here.sorted).1 n tail).le

theorem at_first (listed : s.missing.elems = first :: rest)
    (positive : 1 ≤ first) : s.At first 0 (first - 1) rest := by
  have sorted := s.missing.sorted
  rw [listed] at sorted
  have member (n : Nat) : n ∈ s.missing ↔ n ∈ first :: rest := by
    show n ∈ s.missing.elems ↔ _
    rw [listed]
  exact ⟨by omega, sorted, fun n inside => (member n).mpr inside,
    fun n hole past => (List.mem_cons.mp ((member n).mp hole)).resolve_left (by omega)⟩

end At

/-- With holes the acknowledgement is that of the first hole and of what lies behind it. -/
theorem Holes.getRangeAck_eq (holes : s.Holes) (listed : s.missing.elems = first :: rest) :
    s.getRangeAck = (first - 1, countSequences s.sequences first 0 rest) ∧ s.csn < first ∧
      ∃ m ∈ s.sequences, first < m := by
  have hole : first ∈ s.missing := by
    show first ∈ s.missing.elems
    simp [listed]
  obtain ⟨above, _, m, received, less⟩ := (holes.holes first).mp hole
  refine ⟨?_, above, m, received, less⟩
  rw [getRangeAck, listed]
  exact if_neg (by simpa using List.ne_nil_of_mem received)

theorem Holes.csn_le_getRangeAck (holes : s.Holes) : s.csn ≤ s.getRangeAck.1 := by
  cases listed : s.missing.elems with
  | nil =>
    rw [getRangeAck, listed]
  | cons first rest =>
    obtain ⟨ack, above, _⟩ := holes.getRangeAck_eq listed
    rw [ack]
    exact Nat.le_sub_one_of_lt above

/-- An acknowledgement speaks only of numbers that have been received. -/
theorem Drifts.getRangeAck_covers {extra : Nat} (drifts : Drifts s R extra) :
    (∀ n, 1 ≤ n → n ≤ s.getRangeAck.1 → n ∈ R) ∧
      ∀ r ∈ absoluteRanges s.getRangeAck.1 s.getRangeAck.2, ∀ n, r.1 ≤ n → n ≤ r.2 → n ∈ R := by
  have holes := drifts.toHoles
  have kept {n : Nat} (received : n ∈ s.sequences) : n ∈ R :=
    (drifts.above n (drifts.inside n received).1).mpr received
  cases listed : s.missing.elems with
  | nil =>
    rw [getRangeAck, listed]
    refine ⟨drifts.below, fun r member => ?_⟩
    cases member
  | cons first rest =>
    obtain ⟨ack, above, m, received, less⟩ := holes.getRangeAck_eq listed
    have here := at_first listed (by omega)
    rw [ack]
    refine ⟨fun n lower upper => ?_, fun r inside n lower upper => ?_⟩
    · by_cases low : n ≤ s.csn
      · exact drifts.below n lower low
      · refine kept (holes.received_of_not_missing (by omega) received (by omega) fun hole => ?_)
        have := here.rest_le listed hole
        omega
    · exact kept ((here.countSequences_exact holes n).mp ⟨r, inside, lower, upper⟩).1

end SeqManager
end Fms
