import Fms.Base.Triangle
import Fms.Rtmfp.SeqManager
import Mathlib.Order.Bounds.Defs
import Mathlib.Data.Set.Insert

namespace Fms.SeqManager
open Triangle ByteWire

variable {n c sum : Nat} {l : List Nat}

/-- The manager holds exactly the received numbers, and its sum is ahead of them by `extra`: a
forward jump counts the missing numbers that it leaves, which count again when they arrive. -/
structure Drifts (s : SeqManager) (R : Set Nat) (extra : Nat) : Prop where
  limit : s.csn ≤ eMaxCsn
  inside : ∀ n ∈ s.sequences, s.csn < n ∧ n ≤ eMaxCsn
  next : extra = 0 → s.csn + 1 ∉ s.sequences
  sum : s.sum = tri s.csn + s.sequences.elems.sum + extra
  bound : extra ≤ tri eMaxCsn
  below : ∀ n, 1 ≤ n → n ≤ s.csn → n ∈ R
  above : ∀ n, s.csn < n → (n ∈ R ↔ n ∈ s.sequences)
  holes : ∀ n, n ∈ s.missing ↔ s.csn < n ∧ n ∉ s.sequences ∧ ∃ m ∈ s.sequences, n < m

/-- The manager holds exactly the received numbers `R`: those up to `csn` are all there,
those above it are listed, and the holes between them are the missing ones. -/
abbrev Tracks (s : SeqManager) (R : Set Nat) : Prop := Drifts s R 0

theorem tracks_fresh : Tracks {} ∅ where
  limit := Nat.zero_le _
  inside n member := absurd member (OrdSet.notMem_empty n)
  next _ := OrdSet.notMem_empty _
  sum := rfl
  bound := Nat.zero_le _
  below n lower upper := by
    have : n ≤ 0 := upper
    omega
  above n _ := iff_of_false (Set.notMem_empty n) (OrdSet.notMem_empty n)
  holes n := iff_of_false (OrdSet.notMem_empty n) fun ⟨_, _, m, member, _⟩ => OrdSet.notMem_empty m member

theorem wrap64_of_twice (bound : n ≤ tri eMaxCsn + tri eMaxCsn) : wrap64 n = n := by
  have expand := two_mul_tri eMaxCsn
  have max : eMaxCsn * (eMaxCsn + 1) = 0xFFFFFFFF00000000 := rfl
  exact Nat.mod_eq_of_lt (by omega)

theorem wrap64_of_le {top : Nat} (bound : n ≤ tri top) (limit : top ≤ eMaxCsn) : wrap64 n = n := by
  have expand := two_mul_tri top
  have square : top * (top + 1) ≤ eMaxCsn * (eMaxCsn + 1) := Nat.mul_le_mul limit (by omega)
  have max : eMaxCsn * (eMaxCsn + 1) = 0xFFFFFFFF00000000 := rfl
  exact Nat.mod_eq_of_lt (by omega)

theorem wrapped_tri (limit : n ≤ eMaxCsn) : wrap64 (n * (n + 1)) / 2 = tri n := by
  have square : n * (n + 1) ≤ eMaxCsn * (eMaxCsn + 1) := Nat.mul_le_mul limit (by omega)
  have max : eMaxCsn * (eMaxCsn + 1) = 0xFFFFFFFF00000000 := rfl
  rw [wrap64, Nat.mod_eq_of_lt (by omega), tri]

variable {s : SeqManager}

theorem mem_fillMissing {val : Nat} :
    n ∈ s.fillMissing val ↔ n ∈ s.missing ∨ s.csn < n ∧ n < val ∧ n ∉ s.sequences := by
  have fold (l : List Nat) (missing : OrdSet Nat) :
      n ∈ l.foldl (fun missing i => if i ∈ s.sequences then missing else missing.insert i) missing ↔
        n ∈ missing ∨ n ∈ l ∧ n ∉ s.sequences := by
    induction l generalizing missing with
    | nil => simp
    | cons i rest ih =>
      rw [List.foldl_cons, ih]
      by_cases here : i ∈ s.sequences
      · rw [if_pos here]
        constructor
        · rintro (old | ⟨later, absent⟩)
          · exact Or.inl old
          · exact Or.inr ⟨List.mem_cons_of_mem _ later, absent⟩
        · rintro (old | ⟨member, absent⟩)
          · exact Or.inl old
          · rcases List.mem_cons.mp member with rfl | later
            · exact absurd here absent
            · exact Or.inr ⟨later, absent⟩
      · rw [if_neg here, OrdSet.mem_insert, List.mem_cons]
        constructor
        · rintro ((rfl | old) | ⟨later, absent⟩)
          · exact Or.inr ⟨Or.inl rfl, here⟩
          · exact Or.inl old
          · exact Or.inr ⟨Or.inr later, absent⟩
        · rintro (old | ⟨rfl | later, absent⟩)
          · exact Or.inl (Or.inr old)
          · exact Or.inl (Or.inl rfl)
          · exact Or.inr ⟨later, absent⟩
  rw [fillMissing, fold, List.mem_range'_1]
  constructor
  · rintro (old | ⟨range, absent⟩)
    · exact Or.inl old
    · exact Or.inr ⟨by omega, by omega, absent⟩
  · rintro (old | ⟨lower, upper, absent⟩)
    · exact Or.inl old
    · exact Or.inr ⟨by omega, absent⟩

/-- What `absorb` leaves of the numbers above `c`: it stops before the first hole and
moves what it passed from the list into the prefix. -/
structure Absorbed (c : Nat) (l : List Nat) (c' : Nat) (l' : List Nat) : Prop where
  grows : c ≤ c'
  reached : c' = c ∨ c' ∈ l
  split : ∀ n, c < n → (n ∈ l ↔ n ≤ c' ∨ n ∈ l')
  inside : ∀ n ∈ l', c' < n
  next : c' + 1 ∉ l'
  sum : tri c' + l'.sum = tri c + l.sum

theorem absorb_spec (sorted : l.Pairwise (· < ·))
    (inside : ∀ n ∈ l, c < n) : Absorbed c l (absorb c l).1 (absorb c l).2 := by
  induction l generalizing c with
  | nil => exact ⟨Nat.le_refl _, Or.inl rfl, fun n above =>
      by simp [absorb]; omega, by simp [absorb], by simp [absorb], rfl⟩
  | cons i rest ih =>
    obtain ⟨higher, later⟩ := List.pairwise_cons.mp sorted
    have first := inside i (List.mem_cons_self ..)
    unfold absorb
    split
    · rename_i direct
      subst direct
      have tail := ih later higher
      refine ⟨by have := tail.grows; omega, ?_, fun n above => ?_, tail.inside, tail.next, ?_⟩
      · rcases tail.reached with same | member
        · exact Or.inr (List.mem_cons.mpr (Or.inl same))
        · exact Or.inr (List.mem_cons_of_mem _ member)
      · have grows := tail.grows
        by_cases same : n = c + 1
        · exact iff_of_true (same ▸ List.mem_cons_self ..) (Or.inl (by omega))
        · rw [List.mem_cons, ← tail.split n (by omega)]
          exact or_iff_right same
      · rw [tail.sum, tri_succ, List.sum_cons, Nat.add_assoc]
    · rename_i hole
      refine ⟨Nat.le_refl _, Or.inl rfl, fun n above => (or_iff_right (by omega)).symm, inside, ?_, rfl⟩
      intro member
      rcases List.mem_cons.mp member with same | tail
      · exact hole same.symm
      · have := higher _ tail
        omega

section arrival
variable {s : SeqManager} {R : Set Nat} {val extra : Nat}

/-- A number that arrives for the first time, within the range the sums can hold. -/
structure Arrives (s : SeqManager) (val : Nat) : Prop where
  above : s.csn < val
  limit : val ≤ eMaxCsn
  fresh : val ∉ s.sequences

theorem Drifts.arrival_inside (drifts : Drifts s R extra) (arrives : Arrives s val) :
    ∀ n ∈ s.sequences.insert val, s.csn < n ∧ n ≤ eMaxCsn := by
  intro n member
  rcases OrdSet.mem_insert.mp member with rfl | old
  · exact ⟨arrives.above, arrives.limit⟩
  · exact drifts.inside n old

theorem Drifts.arrival_sum (drifts : Drifts s R extra) (arrives : Arrives s val) :
    wrap64 (s.sum + val) = tri s.csn + (s.sequences.insert val).elems.sum + extra := by
  have perm := (OrdSet.insert_perm arrives.fresh).sum_eq
  rw [List.sum_cons] at perm
  have bound := sum_le (s.sequences.insert val).sorted (drifts.arrival_inside arrives) drifts.limit
  have ahead := drifts.bound
  have total : s.sum + val = tri s.csn + (s.sequences.insert val).elems.sum + extra := by
    rw [drifts.sum, perm]
    omega
  rw [total]
  exact wrap64_of_twice (by omega)

theorem Drifts.sumNElements_eq (drifts : Drifts s R extra) (arrives : Arrives s val) :
    s.sumNElements = tri (s.csn + (s.sequences.insert val).size) := by
  have bound := length_le (s.sequences.insert val).sorted (drifts.arrival_inside arrives) drifts.limit
  have count := OrdSet.size_insert arrives.fresh
  rw [show (s.sequences.insert val).elems.length = (s.sequences.insert val).size from rfl, count] at bound
  have small (n : Nat) (le : n ≤ eMaxCsn + 1) : wrap64 n = n := Nat.mod_eq_of_lt (by unfold eMaxCsn at le; omega)
  have tmp : wrap64 (s.csn + s.sequences.size + 1) = s.csn + s.sequences.size + 1 := small _ (by omega)
  rw [sumNElements, count, tmp, small (s.csn + s.sequences.size + 1 + 1) (by omega), wrapped_tri (by omega),
    Nat.add_assoc]

/-- The sum test holds only for an arrival that leaves no hole, while the sum is not ahead. -/
theorem Drifts.closed_run (drifts : Drifts s R extra) (arrives : Arrives s val)
    (closed : wrap64 (s.sum + val) = s.sumNElements) :
    extra = 0 ∧ ∀ n, n ∈ s.sequences.insert val ↔ s.csn < n ∧ n ≤ s.csn + (s.sequences.insert val).size := by
  rw [drifts.arrival_sum arrives, drifts.sumNElements_eq arrives] at closed
  have above := fun n member => (drifts.arrival_inside arrives n member).1
  have least := le_sum (s.sequences.insert val).sorted above
  rw [show (s.sequences.insert val).elems.length = (s.sequences.insert val).size from rfl] at least
  refine ⟨by omega, fun n => ?_⟩
  have run := eq_range_of_sum (s.sequences.insert val).sorted above
    (show _ = tri (s.csn + (s.sequences.insert val).size) by omega)
  show n ∈ (s.sequences.insert val).elems ↔ _
  rw [run, List.mem_range'_1]
  show _ ↔ s.csn < n ∧ n ≤ s.csn + (s.sequences.insert val).elems.length
  omega

/-- The number that follows directly, with nothing above it, passes the test unless the sum is ahead. -/
theorem Drifts.closed_next (drifts : Drifts s R 0) (arrives : Arrives s (s.csn + 1)) (none : s.sequences = ∅) :
    wrap64 (s.sum + (s.csn + 1)) = s.sumNElements := by
  have one : (s.sequences.insert (s.csn + 1)).elems = [s.csn + 1] := by
    rw [none]
    rfl
  rw [drifts.arrival_sum arrives, drifts.sumNElements_eq arrives, OrdSet.size, one]
  simp only [List.sum_cons, List.sum_nil, List.length_singleton, Nat.add_zero, tri_succ]

/-- Closing the last hole, or arriving in order: everything up to the highest number
received is the new prefix. -/
theorem Drifts.close (drifts : Drifts s R extra) (arrives : Arrives s val)
    (closed : wrap64 (s.sum + val) = s.sumNElements) {missing : OrdSet Nat}
    (left : ∀ n ∈ missing, n ∈ s.missing ∧ n ≠ val) :
    Drifts (updateCsn { s with missing, sum := wrap64 (s.sum + val) } val) (insert val R) extra := by
  obtain ⟨rfl, run⟩ := drifts.closed_run arrives closed
  have total := drifts.arrival_sum arrives
  have value := drifts.sumNElements_eq arrives
  have counted := OrdSet.size_insert arrives.fresh
  have bound := length_le (s.sequences.insert val).sorted (drifts.arrival_inside arrives) drifts.limit
  rw [show (s.sequences.insert val).elems.length = (s.sequences.insert val).size from rfl] at bound
  have none : missing = ∅ := by
    refine OrdSet.eq_empty_iff.mpr (List.eq_nil_iff_forall_not_mem.mpr fun n member => ?_)
    obtain ⟨old, different⟩ := left n member
    obtain ⟨above, absent, m, received, less⟩ := (drifts.holes n).mp old
    have reach := (run m).mp (OrdSet.mem_insert.mpr (Or.inr received))
    rcases OrdSet.mem_insert.mp ((run n).mpr ⟨above, by omega⟩) with same | here
    · exact different same
    · exact absent here
  have last := (run (s.csn + (s.sequences.insert val).size)).mpr ⟨by omega, Nat.le_refl _⟩
  have first := (run (s.csn + 1)).mpr ⟨by omega, by omega⟩
  have state : updateCsn { s with missing, sum := wrap64 (s.sum + val) } val =
      ⟨s.csn + (s.sequences.insert val).size, tri (s.csn + (s.sequences.insert val).size), ∅, ∅⟩ := by
    rw [closed, value, none, updateCsn]
    cases max : s.sequences.max? with
    | none =>
      have empty := OrdSet.max?_eq_none.mp max
      rcases OrdSet.mem_insert.mp last with same | here
      · rw [same, empty]
      · exact absurd (empty ▸ here) (OrdSet.notMem_empty _)
    | some top =>
      obtain ⟨member, greatest⟩ := OrdSet.max?_spec max
      have reach := (run top).mp (OrdSet.mem_insert.mpr (Or.inr member))
      have here : top = s.csn + (s.sequences.insert val).size := by
        rcases OrdSet.mem_insert.mp last with same | here
        · rcases OrdSet.mem_insert.mp first with again | old
          · omega
          · exact absurd old (drifts.next rfl)
        · have := greatest _ here
          omega
      simp only [here]
  rw [state]
  exact {
    limit := bound
    inside := fun n member => absurd member (OrdSet.notMem_empty n)
    next := fun _ => OrdSet.notMem_empty _
    sum := rfl
    bound := drifts.bound
    below := by
      intro n lower upper
      by_cases old : n ≤ s.csn
      · exact Or.inr (drifts.below n lower old)
      · rcases OrdSet.mem_insert.mp ((run n).mpr ⟨by omega, upper⟩) with rfl | here
        · exact Or.inl rfl
        · exact Or.inr ((drifts.above n (by omega)).mpr here)
    above := by
      intro n above
      refine iff_of_false (fun member => ?_) (OrdSet.notMem_empty n)
      have absent : n ∉ s.sequences.insert val := fun here => by
        have := (run n).mp here
        have : s.csn + (s.sequences.insert val).size < n := above
        omega
      rcases member with rfl | old
      · exact absent (OrdSet.mem_insert.mpr (Or.inl rfl))
      · have beyond : s.csn < n := Nat.lt_of_le_of_lt (Nat.le_add_right _ _) above
        exact absent (OrdSet.mem_insert.mpr (Or.inr ((drifts.above n beyond).mp old)))
    holes := fun n => iff_of_false (OrdSet.notMem_empty n) fun ⟨_, _, m, member, _⟩ => OrdSet.notMem_empty m member }

/-- The hole directly above `csn` is filled while others remain. -/
theorem Drifts.advance (drifts : Drifts s R extra) (hole : s.csn + 1 ∈ s.missing) :
    Drifts ⟨(absorb (s.csn + 1) s.sequences.elems).1, wrap64 (s.sum + (s.csn + 1)),
      s.sequences.restrict _ (absorb_sublist (s.csn + 1) s.sequences.elems), s.missing.erase (s.csn + 1)⟩
      (insert (s.csn + 1) R) extra := by
  obtain ⟨_, absent, m, received, less⟩ := (drifts.holes _).mp hole
  have limit : s.csn + 1 ≤ eMaxCsn := Nat.le_trans less.le (drifts.inside m received).2
  have arrives : Arrives s (s.csn + 1) := ⟨Nat.lt_succ_self _, limit, absent⟩
  have higher : ∀ n ∈ s.sequences.elems, s.csn + 1 < n := by
    intro n member
    have := (drifts.inside n member).1
    have different : n ≠ s.csn + 1 := fun same => absent (same ▸ member)
    omega
  have spec := absorb_spec s.sequences.sorted higher
  have grows := spec.grows
  have total := drifts.arrival_sum arrives
  have perm := (OrdSet.insert_perm absent).sum_eq
  rw [List.sum_cons] at perm
  have kept {n : Nat} (member : n ∈ (absorb (s.csn + 1) s.sequences.elems).2) : n ∈ s.sequences :=
    (absorb_sublist _ _).subset member
  exact {
    limit := by
      rcases spec.reached with same | member
      · exact Nat.le_trans (Nat.le_of_eq same) limit
      · exact (drifts.inside _ member).2
    inside := fun n member => ⟨spec.inside n member, (drifts.inside n (kept member)).2⟩
    next := fun _ => spec.next
    sum := by
      show wrap64 (s.sum + (s.csn + 1)) = tri (absorb (s.csn + 1) s.sequences.elems).1 +
        (absorb (s.csn + 1) s.sequences.elems).2.sum + extra
      rw [spec.sum, total, perm, tri_succ]
      omega
    bound := drifts.bound
    below := by
      intro n lower upper
      by_cases old : n ≤ s.csn
      · exact Or.inr (drifts.below n lower old)
      · by_cases same : n = s.csn + 1
        · exact Or.inl same
        · have member := (spec.split n (by omega)).mpr (Or.inl upper)
          exact Or.inr ((drifts.above n (by omega)).mpr member)
    above := by
      intro n above
      have beyond : s.csn + 1 < n := Nat.lt_of_le_of_lt grows above
      have same : n ∈ insert (s.csn + 1) R ↔ n ∈ R := or_iff_right (by omega)
      rw [same, drifts.above n (by omega)]
      exact (spec.split n beyond).trans (or_iff_right (Nat.not_le.mpr above))
    holes := by
      intro n
      rw [OrdSet.mem_erase, drifts.holes]
      constructor
      · rintro ⟨different, above, absent, m, received, less⟩
        have outside := (spec.split n (by omega)).not.mp absent
        have beyond : (absorb (s.csn + 1) s.sequences.elems).1 < n := by omega
        refine ⟨beyond, fun here => outside (Or.inr here), m, ?_, less⟩
        exact ((spec.split m (by omega)).mp received).resolve_left (by omega)
      · rintro ⟨above, absent, m, received, less⟩
        have beyond : (absorb (s.csn + 1) s.sequences.elems).1 < n := above
        refine ⟨by omega, by omega, fun here => ?_, m, kept received, less⟩
        rcases (spec.split n (by omega)).mp here with low | high
        · omega
        · exact absent high }

theorem Drifts.keep (drifts : Drifts s R extra) (arrives : Arrives s val) (ahead : extra = 0 → val ≠ s.csn + 1)
    {missing : OrdSet Nat} (holes : ∀ n, n ∈ missing ↔
      s.csn < n ∧ n ∉ s.sequences.insert val ∧ ∃ m ∈ s.sequences.insert val, n < m) :
    Drifts ⟨s.csn, wrap64 (s.sum + val), s.sequences.insert val, missing⟩ (insert val R) extra where
  limit := drifts.limit
  inside := drifts.arrival_inside arrives
  next exact member := (OrdSet.mem_insert.mp member).elim (fun same => ahead exact same.symm) (drifts.next exact)
  sum := drifts.arrival_sum arrives
  bound := drifts.bound
  below n lower upper := Or.inr (drifts.below n lower upper)
  above n above := by
    rw [OrdSet.mem_insert, ← drifts.above n above]
    rfl
  holes := holes

theorem Drifts.addSeq (drifts : Drifts s R extra) (val : Nat) :
    ((s.addSeq val).2 = .duplicate ∧ (s.addSeq val).1 = s) ∨
      ((s.addSeq val).2 ≠ .duplicate ∧ Drifts (s.addSeq val).1 (insert val R) extra) := by
  unfold SeqManager.addSeq
  split
  · exact Or.inl ⟨rfl, rfl⟩
  · rename_i accepted
    simp only [not_or, Nat.not_le, Nat.not_lt, gt_iff_lt] at accepted
    obtain ⟨above, _, limit, fresh⟩ := accepted
    have arrives : Arrives s val := ⟨above, limit, fresh⟩
    split
    · exact Or.inl ⟨rfl, rfl⟩
    · split
      · rename_i hole
        obtain ⟨_, _, m, received, less⟩ := (drifts.holes val).mp hole
        dsimp only
        split
        · rename_i closed
          refine Or.inr ⟨by simp, drifts.close arrives closed fun n member => ?_⟩
          exact (OrdSet.mem_erase.mp member).symm
        · split
          · rename_i _ direct
            subst direct
            exact Or.inr ⟨by simp, drifts.advance hole⟩
          · rename_i _ ahead
            refine Or.inr ⟨by simp, drifts.keep arrives (fun _ => ahead) fun n => ?_⟩
            rw [OrdSet.mem_erase, drifts.holes, OrdSet.mem_insert, not_or]
            constructor
            · rintro ⟨different, lower, absent, k, member, upper⟩
              exact ⟨lower, ⟨different, absent⟩, k, OrdSet.mem_insert.mpr (Or.inr member), upper⟩
            · rintro ⟨lower, ⟨different, absent⟩, k, member, upper⟩
              refine ⟨different, lower, absent, ?_⟩
              rcases OrdSet.mem_insert.mp member with rfl | old
              · exact ⟨m, received, upper.trans less⟩
              · exact ⟨k, old, upper⟩
      · rename_i noHole
        have ordered : ∀ m ∈ s.sequences, m < val := by
          intro m member
          by_contra above'
          have different : m ≠ val := fun same => fresh (same ▸ member)
          exact noHole ((drifts.holes val).mpr ⟨above, fresh, m, member, by omega⟩)
        dsimp only
        split
        · rename_i closed
          refine Or.inr ⟨by simp, drifts.close arrives closed fun n member => ⟨member, ?_⟩⟩
          rintro rfl
          exact noHole member
        · rename_i notClosed
          have ahead : extra = 0 → val ≠ s.csn + 1 := by
            rintro rfl rfl
            refine notClosed (drifts.closed_next arrives ?_)
            refine OrdSet.eq_empty_iff.mpr (List.eq_nil_iff_forall_not_mem.mpr fun m member => ?_)
            have := (drifts.inside m member).1
            have := ordered m member
            omega
          refine Or.inr ⟨by simp, drifts.keep arrives ahead fun n => ?_⟩
          rw [mem_fillMissing, drifts.holes]
          dsimp only
          constructor
          · rintro (⟨lower, absent, k, member, upper⟩ | ⟨lower, upper, absent⟩)
            · have less := ordered k member
              refine ⟨lower, fun here => ?_, k, OrdSet.mem_insert.mpr (Or.inr member), upper⟩
              rcases OrdSet.mem_insert.mp here with same | old
              · omega
              · exact absent old
            · exact ⟨lower, absent, val, OrdSet.mem_insert.mpr (Or.inl rfl), upper⟩
          · rintro ⟨lower, absent, k, member, upper⟩
            refine Or.inr ⟨lower, ?_, absent⟩
            rcases OrdSet.mem_insert.mp member with rfl | old
            · exact upper
            · exact upper.trans (ordered k old)

end arrival

section jump
variable {s : SeqManager} {R : Set Nat} {val : Nat}

theorem mem_dropWhile_le (sorted : l.Pairwise (· < ·)) : n ∈ l.dropWhile (· ≤ c) ↔ n ∈ l ∧ c < n := by
  induction l with
  | nil => simp
  | cons i rest ih =>
    obtain ⟨higher, later⟩ := List.pairwise_cons.mp sorted
    by_cases low : i ≤ c
    · rw [List.dropWhile_cons_of_pos (by simpa using low), ih later, List.mem_cons]
      constructor
      · rintro ⟨member, above⟩
        exact ⟨Or.inr member, above⟩
      · rintro ⟨rfl | member, above⟩
        · omega
        · exact ⟨member, above⟩
    · rw [List.dropWhile_cons_of_neg (by simpa using low)]
      refine (and_iff_left_of_imp fun member => ?_).symm
      rcases List.mem_cons.mp member with rfl | tail
      · omega
      · have := higher n tail
        omega

/-- Nothing behind a hole can follow `csn` directly, so the walk over the rest only
sums. -/
theorem sumSequences_beyond (sum : Nat) (beyond : ∀ n ∈ l, c + 1 < n) :
    (sumSequences c sum l).1 = c ∧ (sumSequences c sum l).2.2 = l := by
  induction l generalizing sum with
  | nil => exact ⟨rfl, rfl⟩
  | cons i rest ih =>
    have ahead : i ≠ c + 1 := by
      have := beyond i (List.mem_cons_self ..)
      omega
    obtain ⟨csn, left⟩ := ih (wrap64 (sum + i)) fun n member => beyond n (List.mem_cons_of_mem _ member)
    simp only [sumSequences, ahead, if_false, csn, left, and_self]

theorem sumSequences_eq (sum : Nat) (sorted : l.Pairwise (· < ·)) (inside : ∀ n ∈ l, c < n) :
    (sumSequences c sum l).1 = (absorb c l).1 ∧ (sumSequences c sum l).2.2 = (absorb c l).2 := by
  induction l generalizing c sum with
  | nil => exact ⟨rfl, rfl⟩
  | cons i rest ih =>
    obtain ⟨higher, later⟩ := List.pairwise_cons.mp sorted
    by_cases direct : i = c + 1
    · subst direct
      simp only [sumSequences, absorb, if_true]
      exact ih _ later higher
    · have beyond : ∀ n ∈ i :: rest, c + 1 < n := by
        intro n member
        have first := inside i (List.mem_cons_self ..)
        rcases List.mem_cons.mp member with rfl | tail
        · omega
        · have := higher n tail
          omega
      have walk := sumSequences_beyond sum beyond
      simpa only [absorb, direct, if_false] using walk

theorem wrap64_add_wrap64 (a b : Nat) : wrap64 (wrap64 a + b) = wrap64 (a + b) := Nat.mod_add_mod a (2 ^ 64) b

theorem sumSequences_sum : wrap64 (sumSequences c sum l).2.1 = wrap64 (sum + l.sum) := by
  induction l generalizing c sum with
  | nil => rfl
  | cons i rest ih =>
    unfold sumSequences
    split
    · rw [ih, wrap64_add_wrap64, List.sum_cons, Nat.add_assoc]
    · dsimp only
      rw [ih, wrap64_add_wrap64, List.sum_cons, Nat.add_assoc]

theorem sumSequences_wrapped (start : wrap64 sum = sum) :
    wrap64 (sumSequences c sum l).2.1 = (sumSequences c sum l).2.1 := by
  have again (n : Nat) : wrap64 (wrap64 n) = wrap64 n := Nat.mod_mod _ _
  induction l generalizing c sum with
  | nil => exact start
  | cons i rest ih =>
    unfold sumSequences
    split
    · exact ih (again _)
    · exact ih (again _)

theorem foldl_wrap64 (bound : sum + l.sum ≤ tri eMaxCsn + tri eMaxCsn) :
    l.foldl (fun sum i => wrap64 (sum + i)) sum = sum + l.sum := by
  induction l generalizing sum with
  | nil => rfl
  | cons i rest ih =>
    rw [List.sum_cons, ← Nat.add_assoc] at bound
    rw [List.foldl_cons, wrap64_of_twice (by omega), ih bound, List.sum_cons, Nat.add_assoc]

/-- The numbers kept that a jump does not pass. -/
def beyond (s : SeqManager) (val : Nat) : List Nat := s.sequences.elems.dropWhile (· ≤ val)

theorem mem_beyond : n ∈ s.beyond val ↔ n ∈ s.sequences ∧ val < n := mem_dropWhile_le s.sequences.sorted

theorem beyond_sorted : (s.beyond val).Pairwise (· < ·) := s.sequences.sorted.sublist (List.dropWhile_sublist _)

/-- What a forward jump leaves. It goes on through the numbers that follow directly, keeps what lies
behind them, and counts the missing numbers that it leaves. -/
structure Jumped (s : SeqManager) (val : Nat) (t : SeqManager) : Prop where
  grows : val ≤ t.csn
  limit : t.csn ≤ eMaxCsn
  inside : ∀ n ∈ t.sequences, t.csn < n
  next : t.csn + 1 ∉ t.sequences
  sum : t.sum = tri t.csn + t.sequences.elems.sum + t.missing.elems.sum
  bound : t.missing.elems.sum ≤ tri eMaxCsn
  passed : ∀ n, val < n → n ≤ t.csn → n ∈ s.sequences
  stays : ∀ n, t.csn < n → (n ∈ t.sequences ↔ n ∈ s.sequences)
  missing : ∀ n, n ∈ t.missing ↔ n ∈ s.missing ∧ t.csn < n

theorem sumSequences_jump (limit : val ≤ eMaxCsn) (inside : ∀ n ∈ s.sequences, n ≤ eMaxCsn) :
    sumSequences val (wrap64 (val * (val + 1)) / 2) (s.beyond val) =
        ((absorb val (s.beyond val)).1, tri val + (s.beyond val).sum, (absorb val (s.beyond val)).2) ∧
      tri val + (s.beyond val).sum ≤ tri eMaxCsn := by
  have above : ∀ n ∈ s.beyond val, val < n := fun n member => (mem_beyond.mp member).2
  have bound := sum_le beyond_sorted (fun n member => ⟨above n member, inside n (mem_beyond.mp member).1⟩) limit
  have start : wrap64 (tri val) = tri val := wrap64_of_le (Nat.le_refl _) limit
  obtain ⟨csn, left⟩ := sumSequences_eq (tri val) beyond_sorted above
  have total : wrap64 (sumSequences val (tri val) (s.beyond val)).2.1 = _ := sumSequences_sum
  rw [sumSequences_wrapped start, wrap64_of_le bound (Nat.le_refl _)] at total
  rw [wrapped_tri limit]
  exact ⟨Prod.ext csn (Prod.ext total left), bound⟩

theorem Drifts.jumped {extra : Nat} (drifts : Drifts s R extra) (ahead : s.csn < val) (limit : val ≤ eMaxCsn)
    (near : val - s.csn ≤ eMaxGap) : Jumped s val (s.addSequencesUntil val) := by
  have above : ∀ n ∈ s.beyond val, val < n := fun n member => (mem_beyond.mp member).2
  have spec := absorb_spec beyond_sorted above
  obtain ⟨walk, counted⟩ := sumSequences_jump limit fun n member => (drifts.inside n member).2
  have reaches : (absorb val (s.beyond val)).1 ≤ eMaxCsn := by
    rcases spec.reached with same | reached
    · exact Nat.le_trans (Nat.le_of_eq same) limit
    · exact (drifts.inside _ (mem_beyond.mp reached).1).2
  have hole {n : Nat} : n ∈ s.missing.elems.dropWhile (· ≤ (absorb val (s.beyond val)).1) ↔ _ :=
    mem_dropWhile_le s.missing.sorted
  have left := sum_le (s.missing.sorted.sublist (List.dropWhile_sublist _)) (fun n member => by
    obtain ⟨old, above⟩ := hole.mp member
    obtain ⟨_, _, m, received, less⟩ := (drifts.holes n).mp old
    exact ⟨above, less.le.trans (drifts.inside m received).2⟩) reaches
  have state : (s.addSequencesUntil val).csn = (absorb val (s.beyond val)).1 ∧
      (s.addSequencesUntil val).sequences.elems = (absorb val (s.beyond val)).2 ∧
      (s.addSequencesUntil val).missing.elems = s.missing.elems.dropWhile (· ≤ (absorb val (s.beyond val)).1) ∧
      (s.addSequencesUntil val).sum =
        tri val + (s.beyond val).sum + (s.addSequencesUntil val).missing.elems.sum := by
    have carried : ¬(val - s.csn > eMaxGap ∨ val > eMaxCsn) := by omega
    unfold beyond at walk counted left ⊢
    rw [addSequencesUntil, if_pos ahead, if_neg carried]
    simp only [OrdSet.restrict, walk, true_and]
    exact foldl_wrap64 (by omega)
  obtain ⟨csn, sequences, missing, sum⟩ := state
  have member {n : Nat} : n ∈ (s.addSequencesUntil val).sequences ↔ n ∈ (absorb val (s.beyond val)).2 := by
    rw [← sequences]
    rfl
  refine ⟨csn ▸ spec.grows, csn ▸ reaches, fun n here => csn ▸ spec.inside n (member.mp here), ?_, ?_, ?_,
    fun n above upto => ?_, fun n above => ?_, fun n => ?_⟩
  · rw [csn, member]
    exact spec.next
  · rw [sum, csn, sequences, spec.sum]
  · rw [missing]
    omega
  · exact (mem_beyond.mp ((spec.split n above).mpr (.inl (csn ▸ upto)))).1
  · have grows := spec.grows
    rw [csn] at above
    have split := spec.split n (by omega)
    rw [mem_beyond, or_iff_right (by omega)] at split
    rw [member, ← split]
    exact and_iff_left (by omega)
  · show n ∈ (s.addSequencesUntil val).missing.elems ↔ _
    rw [missing, csn]
    exact hole

/-- A forward jump: the manager then holds the numbers it jumped over as well, and the missing
numbers that it leaves are ahead in its sum. -/
theorem Drifts.jump {extra : Nat} (drifts : Drifts s R extra) (ahead : s.csn < val) (limit : val ≤ eMaxCsn)
    (near : val - s.csn ≤ eMaxGap) :
    ∃ left, Drifts (s.addSequencesUntil val) (R ∪ {n | n ≤ val}) left ∧ ((∀ m ∈ s.missing, m ≤ val) → left = 0) := by
  have jumped := drifts.jumped ahead limit near
  have grows := jumped.grows
  have old {n : Nat} (here : n ∈ (s.addSequencesUntil val).sequences) : n ∈ s.sequences :=
    (jumped.stays n (jumped.inside n here)).mp here
  refine ⟨(s.addSequencesUntil val).missing.elems.sum, ?_, fun passed => ?_⟩
  · exact {
      limit := jumped.limit
      inside := fun n here => ⟨jumped.inside n here, (drifts.inside n (old here)).2⟩
      next := fun _ => jumped.next
      sum := jumped.sum
      bound := jumped.bound
      below := by
        intro n lower upper
        by_cases low : n ≤ val
        · exact Or.inr low
        · exact Or.inl ((drifts.above n (by omega)).mpr (jumped.passed n (by omega) upper))
      above := by
        intro n above
        have only : n ∈ R ∪ {n | n ≤ val} ↔ n ∈ R := or_iff_left fun low : n ≤ val => by omega
        rw [jumped.stays n above, only, drifts.above n (by omega)]
      holes := by
        intro n
        rw [jumped.missing, drifts.holes]
        constructor
        · rintro ⟨⟨_, absent, m, received, less⟩, above⟩
          refine ⟨above, (jumped.stays n above).not.mpr absent, m, ?_, less⟩
          exact (jumped.stays m (above.trans less)).mpr received
        · rintro ⟨above, absent, m, received, less⟩
          exact ⟨⟨by omega, (jumped.stays n above).not.mp absent, m, old received, less⟩, above⟩ }
  · have none : (s.addSequencesUntil val).missing.elems = [] := by
      refine List.eq_nil_iff_forall_not_mem.mpr fun m inside => ?_
      obtain ⟨there, above⟩ := (jumped.missing m).mp inside
      have := passed m there
      omega
    rw [none]
    rfl

end jump
/-- The calls a flow makes on its manager. -/
inductive Call
  | addSeq (val : Nat)
  | addSequencesUntil (val : Nat)

def call (s : SeqManager) : Call → SeqManager
  | .addSeq val => (s.addSeq val).1
  | .addSequencesUntil val => s.addSequencesUntil val

/-- The numbers a call adds to what has been received: an accepted arrival, or everything
up to a forward jump that is not refused. -/
def admitted (s : SeqManager) : Call → Set Nat
  | .addSeq val => {n | n = val ∧ (s.addSeq val).2 ≠ .duplicate}
  | .addSequencesUntil val => {n | n ≤ val ∧ val ≤ s.csn + eMaxGap ∧ val ≤ eMaxCsn}

/-- The states and received sets that sequences of calls lead to, each call meeting
`allowed` in the state it is made in. -/
inductive Run (allowed : SeqManager → Call → Prop) : SeqManager → Set Nat → Prop
  | fresh : Run allowed {} ∅
  | next {s R c} : Run allowed s R → allowed s c → Run allowed (s.call c) (R ∪ s.admitted c)

/-- What `csn` and `has_gaps` are meant to say about the received numbers. -/
def Reports (s : SeqManager) (R : Set Nat) : Prop :=
  IsGreatest {n | ∀ k, 1 ≤ k → k ≤ n → k ∈ R} s.csn ∧ (s.hasGaps = true ↔ ∃ n ∈ R, s.csn < n)

/-- No forward jump that is carried out stops short of a missing number. -/
def JumpsClear (s : SeqManager) : Call → Prop
  | .addSeq _ => True
  | .addSequencesUntil val => s.csn < val ∧ val ≤ s.csn + eMaxGap ∧ val ≤ eMaxCsn → ∀ m ∈ s.missing, m ≤ val

variable {R : Set Nat}

theorem Tracks.reports (tracks : Tracks s R) : Reports s R := by
  refine ⟨⟨tracks.below, fun n reaches => ?_⟩, ?_⟩
  · by_contra beyond
    have received := reaches (s.csn + 1) (by omega) (by omega)
    exact tracks.next rfl ((tracks.above _ (Nat.lt_succ_self _)).mp received)
  · have gaps : s.hasGaps = true ↔ ∃ m, m ∈ s.missing := by
      unfold hasGaps
      cases listed : s.missing.elems with
      | nil =>
        refine iff_of_false (by simp) ?_
        rintro ⟨m, member⟩
        have inList : m ∈ s.missing.elems := member
        rw [listed] at inList
        cases inList
      | cons m rest =>
        refine iff_of_true (by simp) ⟨m, ?_⟩
        show m ∈ s.missing.elems
        simp [listed]
    rw [gaps]
    constructor
    · rintro ⟨m, hole⟩
      obtain ⟨above, _, k, received, less⟩ := (tracks.holes m).mp hole
      exact ⟨k, (tracks.above k (by omega)).mpr received, by omega⟩
    · rintro ⟨n, received, above⟩
      have member := (tracks.above n above).mp received
      have different : n ≠ s.csn + 1 := fun same => tracks.next rfl (same ▸ member)
      exact ⟨s.csn + 1, (tracks.holes _).mpr ⟨Nat.lt_succ_self _, tracks.next rfl, n, member, by omega⟩⟩

theorem Drifts.congr {R R' : Set Nat} {extra : Nat} (drifts : Drifts s R extra)
    (same : ∀ n, 1 ≤ n → (n ∈ R' ↔ n ∈ R)) : Drifts s R' extra :=
  { drifts with
    below := fun n lower upper => (same n lower).mpr (drifts.below n lower upper)
    above := fun n above => (same n (by omega)).trans (drifts.above n above) }

/-- Every call keeps what has been received; only a jump that stops short of a missing number puts
the sum ahead. -/
theorem Drifts.call {extra : Nat} (drifts : Drifts s R extra) (c : Call) :
    ∃ left, Drifts (s.call c) (R ∪ s.admitted c) left ∧ (JumpsClear s c → extra = 0 → left = 0) := by
  cases c with
  | addSeq val =>
    refine ⟨extra, ?_, fun _ exact => exact⟩
    rcases drifts.addSeq val with ⟨duplicate, same⟩ | ⟨accepted, next⟩
    · show Drifts (s.addSeq val).1 _ _
      rw [same]
      exact drifts.congr fun n _ => or_iff_left fun admitted => admitted.2 duplicate
    · refine next.congr fun n _ => ?_
      constructor
      · rintro (old | ⟨rfl, _⟩)
        · exact Or.inr old
        · exact Or.inl rfl
      · rintro (rfl | old)
        · exact Or.inr ⟨rfl, accepted⟩
        · exact Or.inl old
  | addSequencesUntil val =>
    show ∃ left, Drifts (s.addSequencesUntil val) _ left ∧ _
    by_cases ahead : s.csn < val
    · by_cases refused : val - s.csn > eMaxGap ∨ val > eMaxCsn
      · rw [addSequencesUntil, if_pos ahead, if_pos refused]
        refine ⟨extra, drifts.congr fun n _ => or_iff_left ?_, fun _ exact => exact⟩
        rintro ⟨_, near, limit⟩
        omega
      · obtain ⟨left, jumped, clear⟩ := drifts.jump ahead (by omega) (by omega)
        refine ⟨left, jumped.congr fun n _ => or_congr_right ?_, fun clears _ =>
          clear (clears ⟨ahead, by omega, by omega⟩)⟩
        exact ⟨fun admitted => admitted.1, fun low => ⟨low, by omega, by omega⟩⟩
    · rw [addSequencesUntil, if_neg ahead]
      refine ⟨extra, drifts.congr fun n lower => or_iff_left_of_imp ?_, fun _ exact => exact⟩
      rintro ⟨low, _⟩
      exact drifts.below n lower (by omega)

theorem Tracks.call (tracks : Tracks s R) {c : Call} (clear : JumpsClear s c) :
    Tracks (s.call c) (R ∪ s.admitted c) := by
  obtain ⟨left, drifts, exact⟩ := Drifts.call tracks c
  obtain rfl := exact clear rfl
  exact drifts

theorem Run.tracks (run : Run JumpsClear s R) : Tracks s R := by
  induction run with
  | fresh => exact tracks_fresh
  | next _ clear ih => exact ih.call clear

/-- As long as no forward jump that is carried out stops short of a missing number, `csn` is the end
of the contiguous prefix and `has_gaps` tells whether anything lies beyond it. -/
theorem reports_of_clear_jumps (run : Run JumpsClear s R) : Reports s R :=
  run.tracks.reports

/-- A jump over all holes: 3 and 6 arrive, then everything up to 5 is given up. -/
theorem reports_after_clear_jump : ∃ s R, Run JumpsClear s R ∧ s.csn = 6 ∧ Reports s R := by
  have clear : JumpsClear ((call {} (.addSeq 3)).call (.addSeq 6)) (.addSequencesUntil 5) := by
    intro _
    decide
  have run :=
    (((Run.fresh : Run JumpsClear {} ∅).next (c := .addSeq 3) trivial).next (c := .addSeq 6) trivial).next clear
  exact ⟨_, _, run, by decide, reports_of_clear_jumps run⟩

/-- After a jump that stops short of a missing number the sum no longer matches, and `csn`
stays behind for good: 3 arrives, everything up to 1 is given up, then 2 and 4
arrive; all of 1 to 4 is there, but `csn` is 3 and no gap is reported. -/
theorem not_reports_after_short_jump :
    ∃ s R, Run (fun _ _ => True) s R ∧ (∀ k, 1 ≤ k → k ≤ 4 → k ∈ R) ∧ s.csn = 3 ∧ s.hasGaps = false ∧
      ¬Reports s R := by
  have run := ((((Run.fresh : Run (fun _ _ => True) {} ∅).next (c := .addSeq 3) trivial).next
    (c := .addSequencesUntil 1) trivial).next (c := .addSeq 2) trivial).next (c := .addSeq 4) trivial
  have received : ∀ k, 1 ≤ k → k ≤ 4 → k ∈ ∅ ∪ admitted {} (.addSeq 3) ∪
      admitted (call {} (.addSeq 3)) (.addSequencesUntil 1) ∪
      admitted ((call {} (.addSeq 3)).call (.addSequencesUntil 1)) (.addSeq 2) ∪
      admitted (((call {} (.addSeq 3)).call (.addSequencesUntil 1)).call (.addSeq 2)) (.addSeq 4) := by
    intro k lower upper
    obtain rfl | rfl | rfl | rfl : k = 1 ∨ k = 2 ∨ k = 3 ∨ k = 4 := by omega
    · exact Or.inl (Or.inl (Or.inr ⟨by decide, by decide, by decide⟩))
    · exact Or.inl (Or.inr ⟨rfl, by decide⟩)
    · exact Or.inl (Or.inl (Or.inl (Or.inr ⟨rfl, by decide⟩)))
    · exact Or.inr ⟨rfl, by decide⟩
  refine ⟨_, _, run, received, by decide, by decide, fun reports => ?_⟩
  have behind := reports.1.2 received
  exact absurd behind (by decide)

/-- The numbers kept lie above the cumulative one. -/
def Ordered (s : SeqManager) : Prop := ∀ n ∈ s.sequences, s.csn < n

theorem updateCsn_ordered (ordered : Ordered s) {val : Nat} (above : s.csn < val) :
    Ordered (s.updateCsn val) ∧ s.csn ≤ (s.updateCsn val).csn := by
  unfold updateCsn
  split
  · rename_i top max
    exact ⟨fun n member => absurd member (OrdSet.notMem_empty n), (ordered top (OrdSet.max?_spec max).1).le⟩
  · rename_i none
    have empty := OrdSet.max?_eq_none.mp none
    exact ⟨fun n member => absurd (empty ▸ member) (OrdSet.notMem_empty n), above.le⟩

theorem insert_ordered (ordered : Ordered s) {val : Nat} (above : s.csn < val) :
    ∀ n ∈ s.sequences.insert val, s.csn < n := by
  intro n member
  rcases OrdSet.mem_insert.mp member with rfl | old
  · exact above
  · exact ordered n old

/-- An arrival never moves the cumulative number back, and one that is not refused lies
above it. -/
theorem addSeq_ordered (ordered : Ordered s) (val : Nat) :
    Ordered (s.addSeq val).1 ∧ s.csn ≤ (s.addSeq val).1.csn ∧ ((s.addSeq val).2 ≠ .duplicate → s.csn < val) := by
  unfold addSeq
  split
  · exact ⟨ordered, Nat.le_refl _, fun accepted => absurd rfl accepted⟩
  · rename_i accepted
    simp only [not_or, Nat.not_le, Nat.not_lt, gt_iff_lt] at accepted
    obtain ⟨above, _, _, fresh⟩ := accepted
    split
    · exact ⟨ordered, Nat.le_refl _, fun accepted => absurd rfl accepted⟩
    · split
      · dsimp only
        split
        · obtain ⟨kept, grows⟩ := updateCsn_ordered
            (s := { s with missing := s.missing.erase val, sum := wrap64 (s.sum + val) }) ordered above
          exact ⟨kept, grows, fun _ => above⟩
        · split
          · rename_i direct
            have higher : ∀ n ∈ s.sequences.elems, s.csn + 1 < n := by
              intro n member
              have := ordered n member
              have : n ≠ s.csn + 1 := fun same => fresh (direct ▸ same ▸ member)
              omega
            have spec := absorb_spec s.sequences.sorted higher
            exact ⟨spec.inside, Nat.le_of_succ_le spec.grows, fun _ => above⟩
          · exact ⟨insert_ordered ordered above, Nat.le_refl _, fun _ => above⟩
      · dsimp only
        split
        · obtain ⟨kept, grows⟩ := updateCsn_ordered (s := { s with sum := wrap64 (s.sum + val) }) ordered above
          exact ⟨kept, grows, fun _ => above⟩
        · exact ⟨insert_ordered ordered above, Nat.le_refl _, fun _ => above⟩

theorem addSequencesUntil_ordered (ordered : Ordered s) (val : Nat) :
    Ordered (s.addSequencesUntil val) ∧ s.csn ≤ (s.addSequencesUntil val).csn := by
  unfold addSequencesUntil
  split
  · rename_i ahead
    split
    · exact ⟨ordered, Nat.le_refl _⟩
    · have sorted := s.sequences.sorted.sublist (List.dropWhile_sublist (· ≤ val))
      have higher : ∀ n ∈ s.sequences.elems.dropWhile (· ≤ val), val < n :=
        fun n member => ((mem_dropWhile_le s.sequences.sorted).mp member).2
      have spec := absorb_spec sorted higher
      have walk := sumSequences_eq (wrap64 (val * (val + 1)) / 2) sorted higher
      refine ⟨fun n member => ?_, ?_⟩
      · have inside := spec.inside n
        rw [← walk.1, ← walk.2] at inside
        exact inside member
      · have grows := spec.grows
        rw [← walk.1] at grows
        exact Nat.le_trans (Nat.le_of_lt ahead) grows
  · exact ⟨ordered, Nat.le_refl _⟩

end Fms.SeqManager
