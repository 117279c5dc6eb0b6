import Fms.Base.Bytes
import Fms.Base.OrdSet

namespace Fms
open ByteWire

/-- `seq_manager`: the numbers received so far as a contiguous prefix `1..csn`, the ones
above it and the holes between them. `sum` is a 64-bit running sum; the other
numbers stay below `2 ^ 32`, so they are not wrapped. -/
structure SeqManager where
  csn : Nat := 0
  sum : Nat := 0
  sequences : OrdSet Nat := ∅
  missing : OrdSet Nat := ∅
  deriving DecidableEq

namespace SeqManager

inductive Result
  | ok
  | duplicate
  | gapClosed
  | producesGap
  | gapStillPresent
  deriving DecidableEq, Repr

def eMaxGap : Nat := 0x10000
def eMaxCsn : Nat := 0xFFFFFFFF
def eMaxMissing : Nat := 8192

def sumNElements (s : SeqManager) : Nat :=
  let tmp := wrap64 (s.csn + s.sequences.size + 1)
  wrap64 (tmp * wrap64 (tmp + 1)) / 2

def updateCsn (s : SeqManager) (val : Nat) : SeqManager :=
  match s.sequences.max? with
  | some top => { s with csn := top, sequences := ∅ }
  | none => { s with csn := val }

/-- Move `csn` over the numbers that follow it directly, taking them off the front. -/
def absorb (csn : Nat) : List Nat → Nat × List Nat
  | [] => (csn, [])
  | i :: rest => if i = csn + 1 then absorb (csn + 1) rest else (csn, i :: rest)

theorem absorb_sublist (csn : Nat) (l : List Nat) : (absorb csn l).2.Sublist l := by
  induction l generalizing csn with
  | nil => exact .slnil
  | cons i rest ih =>
    unfold absorb
    split
    · exact (ih (csn + 1)).cons i
    · exact .refl _

/-- The gap-fill loop of `add_seq`: every number between `csn` and `val` that has not
arrived is missing. -/
def fillMissing (s : SeqManager) (val : Nat) : OrdSet Nat :=
  (List.range' (s.csn + 1) (val - (s.csn + 1))).foldl
    (fun missing i => if i ∈ s.sequences then missing else missing.insert i) s.missing

def addSeq (s : SeqManager) (val : Nat) : SeqManager × Result :=
  if val ≤ s.csn ∨ val - s.csn > eMaxGap ∨ val > eMaxCsn ∨ val ∈ s.sequences then (s, .duplicate)
  else if s.missing.size + (val - s.csn) > eMaxMissing then (s, .duplicate)
  else if val ∈ s.missing then
    let s := { s with missing := s.missing.erase val, sum := wrap64 (s.sum + val) }
    if s.sum = s.sumNElements then (s.updateCsn val, .gapClosed)
    else if val = s.csn + 1 then
      let sequences := s.sequences.restrict _ (absorb_sublist (s.csn + 1) s.sequences.elems)
      ({ s with csn := (absorb (s.csn + 1) s.sequences.elems).1, sequences }, .gapStillPresent)
    else ({ s with sequences := s.sequences.insert val }, .gapStillPresent)
  else
    let s := { s with sum := wrap64 (s.sum + val) }
    if s.sum = s.sumNElements then (s.updateCsn val, .ok)
    else
      let s := { s with sequences := s.sequences.insert val }
      ({ s with missing := s.fillMissing val }, .producesGap)

/-- The loop of `add_sequences_until` over the numbers above the new `csn`: all of them go
into the sum, and those that follow `csn` directly are erased. -/
def sumSequences (csn sum : Nat) : List Nat → Nat × Nat × List Nat
  | [] => (csn, sum, [])
  | i :: rest =>
    if i = csn + 1 then sumSequences (csn + 1) (wrap64 (sum + i)) rest
    else
      let (csn, sum, rest) := sumSequences csn (wrap64 (sum + i)) rest
      (csn, sum, i :: rest)

theorem sumSequences_sublist (csn sum : Nat) (l : List Nat) : (sumSequences csn sum l).2.2.Sublist l := by
  induction l generalizing csn sum with
  | nil => exact .slnil
  | cons i rest ih =>
    unfold sumSequences
    split
    · exact (ih _ _).cons i
    · exact (ih _ _).cons_cons i

def addSequencesUntil (s : SeqManager) (val : Nat) : SeqManager :=
  if val > s.csn then
    if val - s.csn > eMaxGap ∨ val > eMaxCsn then s
    else
      let above := s.sequences.elems.dropWhile (· ≤ val)
      let scan := sumSequences val (wrap64 (val * (val + 1)) / 2) above
      let missing := s.missing.elems.dropWhile (· ≤ scan.1)
      { csn := scan.1
        sum := missing.foldl (fun sum i => wrap64 (sum + i)) scan.2.1
        sequences := s.sequences.restrict scan.2.2 ((sumSequences_sublist _ _ _).trans (List.dropWhile_sublist _))
        missing := s.missing.restrict missing (List.dropWhile_sublist _) }
  else s

def hasGaps (s : SeqManager) : Bool := !s.missing.elems.isEmpty

/-- How many numbers directly above `prev` are in a set; the set holds no more than
`fuel` of them. -/
def receivedRun (sequences : OrdSet Nat) : Nat → Nat → Nat
  | 0, _ => 0
  | fuel + 1, prev => if prev + 1 ∈ sequences then receivedRun sequences fuel (prev + 1) + 1 else 0

/-- `count_sequence` for the run of missing numbers that has come to `prev`, `a` numbers
behind its first, and for the runs after it: one less than how many are missing,
and one less than how many have arrived behind them. -/
def countSequences (sequences : OrdSet Nat) (prev a : Nat) : List Nat → List (Nat × Nat)
  | [] => [(a, receivedRun sequences sequences.size (prev + 1))]
  | i :: rest =>
    if i = prev + 1 then countSequences sequences (prev + 1) (a + 1) rest
    else (a, i - 1 - (prev + 1)) :: countSequences sequences i 0 rest

/-- `get_range_ack`: the cumulative acknowledgement and the ranges behind it. -/
def getRangeAck (s : SeqManager) : Nat × List (Nat × Nat) :=
  match s.missing.elems with
  | [] => (s.csn, [])
  | first :: rest =>
    if s.sequences.elems.isEmpty then (0, []) else (first - 1, countSequences s.sequences first 0 rest)

end SeqManager
end Fms
