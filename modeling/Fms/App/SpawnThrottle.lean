import Fms.Base.Dict
import Fms.Base.OrdSet
import Fms.Base.Transition
import Mathlib

namespace Fms
open Transition

/-- `spawn_throttle`: the targets spawned for of late, the tracked helpers, and the permissions whose helper is not
known yet, the oldest first. Times are in nanoseconds. -/
structure SpawnThrottle where
  recent : Dict (List UInt8) Int := ∅
  live : OrdSet Nat := ∅
  pending : List Int := []

namespace SpawnThrottle

def eCooldown : Int := 10 * 10 ^ 9
def eMaxInFlight : Nat := 64
def eMaxPerWindow : Nat := 64

/-- Without the entries that have expired. -/
def prune (t : SpawnThrottle) (now : Int) : SpawnThrottle :=
  { t with
    recent := t.recent.filterMap fun _ at_ => if now - at_ ≥ eCooldown then none else some at_
    pending := t.pending.filter fun at_ => ¬now - at_ ≥ eCooldown }

def allow (t : SpawnThrottle) (key : List UInt8) (now : Int) : Bool × SpawnThrottle :=
  let t := t.prune now
  if key ∈ t.recent then (false, t)
  else if t.recent.size ≥ eMaxPerWindow then (false, t)
  else if t.live.size + t.pending.length ≥ eMaxInFlight then (false, t)
  else (true, { t with recent := t.recent.insert key now, pending := t.pending.orderedInsert (· ≤ ·) now })

/-- The oldest reservation goes, whoever made it. -/
def consumePending (t : SpawnThrottle) : SpawnThrottle := { t with pending := t.pending.tail }

def noteSpawned (t : SpawnThrottle) (pid : Nat) : SpawnThrottle :=
  { t.consumePending with live := t.live.insert pid }

def noteSpawnFailed (t : SpawnThrottle) : SpawnThrottle := t.consumePending

/-- `note_exited`, and what `reap` does with each helper that has exited. -/
def noteExited (t : SpawnThrottle) (pid : Nat) : SpawnThrottle := { t with live := t.live.erase pid }

end SpawnThrottle

/-- The throttle, the times of the permissions whose spawn has not reported, and the helpers that
have reported and whose processes have not ended. -/
structure Spawning where
  throttle : SpawnThrottle := {}
  running : List Int := []
  helpers : OrdSet Nat := ∅

namespace Spawning

inductive Event
  | allow (key : List UInt8) (now : Int)
  | spawned (index pid : Nat)
  | failed (index : Nat)
  | ended (pid : Nat)
  | exited (pid : Nat)

/-- The throttle sees the end of a process only when it waits for it. -/
def step (s : Spawning) : Event → Spawning
  | .allow key now =>
    let (permitted, t) := s.throttle.allow key now
    { s with throttle := t, running := if permitted then now :: s.running else s.running }
  | .spawned index pid =>
    { throttle := s.throttle.noteSpawned pid, running := s.running.eraseIdx index, helpers := s.helpers.insert pid }
  | .failed index => { s with throttle := s.throttle.noteSpawnFailed, running := s.running.eraseIdx index }
  | .ended pid => { s with helpers := s.helpers.erase pid }
  | .exited pid => { s with throttle := s.throttle.noteExited pid }

/-- A spawn reports before any `allow` whose clock is a cooldown or more past its permission. What reports is a
running spawn, a helper's pid is not that of another, and one whose process has not ended is not waited for. -/
def Timely (s : Spawning) : Event → Prop
  | .allow _ now => ∀ at_ ∈ s.running, now - at_ < SpawnThrottle.eCooldown
  | .spawned index pid => index < s.running.length ∧ pid ∉ s.throttle.live
  | .failed index => index < s.running.length
  | .ended _ => True
  | .exited pid => pid ∉ s.helpers

instance (s : Spawning) : DecidablePred s.Timely
  | .allow _ now => inferInstanceAs (Decidable (∀ at_ ∈ s.running, now - at_ < SpawnThrottle.eCooldown))
  | .spawned index pid => inferInstanceAs (Decidable (index < s.running.length ∧ pid ∉ s.throttle.live))
  | .failed index => inferInstanceAs (Decidable (index < s.running.length))
  | .ended _ => inferInstanceAs (Decidable True)
  | .exited pid => inferInstanceAs (Decidable (pid ∉ s.helpers))

/-- There are as many reservations as running spawns, and as many from any time on. -/
structure Covered (pending running : List Int) : Prop where
  sorted : pending.Pairwise (· ≤ ·)
  from_ : ∀ at_, running.countP (at_ ≤ ·) ≤ pending.countP (at_ ≤ ·)
  enough : running.length ≤ pending.length

variable {pending running : List Int} {now : Int} {s : Spawning}

/-- None of the reservations that the running spawns rely on has expired. -/
theorem Covered.prune (covered : Covered pending running)
    (timely : ∀ at_ ∈ running, now - at_ < SpawnThrottle.eCooldown) :
    Covered (pending.filter fun at_ => ¬now - at_ ≥ SpawnThrottle.eCooldown) running := by
  have recent : running.countP (now - SpawnThrottle.eCooldown + 1 ≤ ·) = running.length := by
    refine List.countP_eq_length.mpr fun at_ member => decide_eq_true ?_
    have := timely at_ member
    omega
  refine ⟨covered.sorted.filter _, fun at_ => ?_, ?_⟩
  · -- a threshold that has expired is no weaker than the first one that has not
    have first := covered.from_ (max at_ (now - SpawnThrottle.eCooldown + 1))
    rw [List.countP_filter]
    refine le_trans (le_trans (List.countP_mono_left fun x member above => ?_) first)
      (List.countP_mono_left fun x member above => ?_)
    · have := timely x member
      simp only [decide_eq_true_eq] at above ⊢
      omega
    · simp only [decide_eq_true_eq, Bool.and_eq_true] at above ⊢
      omega
  · rw [← recent, ← List.countP_eq_length_filter]
    refine (covered.from_ _).trans (List.countP_mono_left fun x _ above => ?_)
    simp only [decide_eq_true_eq] at above ⊢
    omega

theorem Covered.permit (covered : Covered pending running) :
    Covered (pending.orderedInsert (· ≤ ·) now) (now :: running) := by
  have perm := List.perm_orderedInsert (· ≤ ·) now pending
  refine ⟨covered.sorted.orderedInsert now pending, fun at_ => ?_, ?_⟩
  · rw [perm.countP_eq, List.countP_cons, List.countP_cons]
    exact Nat.add_le_add_right (covered.from_ at_) _
  · rw [perm.length_eq]
    exact Nat.succ_le_succ covered.enough

/-- A spawn that reports takes the oldest reservation, not its own. -/
theorem Covered.report (covered : Covered pending running) {index : Nat} (known : index < running.length) :
    Covered pending.tail (running.eraseIdx index) ∧ pending.tail.length + 1 = pending.length := by
  have fewer : (running.eraseIdx index).length + 1 = running.length := by
    rw [List.length_eraseIdx_of_lt known]
    omega
  cases pending with
  | nil =>
    have := covered.enough
    rw [List.length_nil] at this
    omega
  | cons oldest rest =>
    obtain ⟨least, sorted⟩ := List.pairwise_cons.mp covered.sorted
    have enough := covered.enough
    rw [List.length_cons] at enough
    refine ⟨⟨sorted, fun at_ => ?_, ?_⟩, rfl⟩
    · by_cases before : at_ ≤ oldest
      · -- all that is left is at least as late
        have all : rest.countP (at_ ≤ ·) = rest.length :=
          List.countP_eq_length.mpr fun x member => decide_eq_true (before.trans (least x member))
        have some := List.countP_le_length (p := (at_ ≤ ·)) (l := running.eraseIdx index)
        show _ ≤ rest.countP _
        omega
      · have counted := covered.from_ at_
        rw [List.countP_cons_of_neg (by simpa using before)] at counted
        exact ((List.eraseIdx_sublist running index).countP_le).trans counted
    · show _ ≤ rest.length
      omega

/-- The bound on what is tracked or reserved; every helper is tracked. -/
structure Capped (s : Spawning) : Prop where
  tracked : ∀ pid ∈ s.helpers, pid ∈ s.throttle.live
  covered : Covered s.throttle.pending s.running
  bound : s.throttle.live.size + s.throttle.pending.length ≤ SpawnThrottle.eMaxInFlight

theorem Capped.step {event : Event} (capped : s.Capped) (timely : s.Timely event) : (s.step event).Capped := by
  cases event with
  | allow key now =>
    have pruned := capped.covered.prune timely
    have fewer := List.length_filter_le (fun at_ => decide ¬now - at_ ≥ SpawnThrottle.eCooldown) s.throttle.pending
    have bound := capped.bound
    have refused : Capped { s with throttle := s.throttle.prune now } :=
      ⟨capped.tracked, pruned, by show s.throttle.live.size + (List.filter _ _).length ≤ _; omega⟩
    unfold Spawning.step SpawnThrottle.allow
    dsimp only
    split
    · exact refused
    · split
      · exact refused
      · split
        · exact refused
        · rename_i room
          refine ⟨capped.tracked, pruned.permit, ?_⟩
          show (s.throttle.prune now).live.size + (List.orderedInsert _ now (s.throttle.prune now).pending).length ≤ _
          rw [List.orderedInsert_length]
          omega
  | spawned index pid =>
    obtain ⟨covered, one⟩ := capped.covered.report timely.1
    have bound := capped.bound
    refine ⟨fun helper member => ?_, covered, ?_⟩
    · show helper ∈ s.throttle.live.insert pid
      rcases OrdSet.mem_insert.mp member with rfl | before
      · exact OrdSet.mem_insert.mpr (.inl rfl)
      · exact OrdSet.mem_insert.mpr (.inr (capped.tracked helper before))
    show (s.throttle.live.insert pid).size + s.throttle.pending.tail.length ≤ _
    rw [OrdSet.size_insert timely.2]
    omega
  | failed index =>
    obtain ⟨covered, one⟩ := capped.covered.report timely
    have bound := capped.bound
    refine ⟨capped.tracked, covered, ?_⟩
    show s.throttle.live.size + s.throttle.pending.tail.length ≤ _
    omega
  | ended pid =>
    exact ⟨fun helper member => capped.tracked helper (OrdSet.mem_erase.mp member).2, capped.covered, capped.bound⟩
  | exited pid =>
    refine ⟨fun helper member => ?_, capped.covered, le_trans (Nat.add_le_add_right ?_ _) capped.bound⟩
    · refine OrdSet.mem_erase.mpr ⟨?_, capped.tracked helper member⟩
      rintro rfl
      exact timely member
    · exact List.length_erase_le

/-- The helpers that run are tracked, and those that are tracked and the permitted spawns that have
not reported are never more than the limit. -/
theorem helpers_capped (events : List Event) (timely : Along step Timely {} events) :
    (events.foldl step {}).helpers.size ≤ (events.foldl step {}).throttle.live.size ∧
      (events.foldl step {}).throttle.live.size + (events.foldl step {}).running.length ≤
        SpawnThrottle.eMaxInFlight := by
  have reach := Reach.start.along timely
  have none : Capped {} := ⟨fun _ member => member, ⟨.nil, fun _ => le_rfl, le_rfl⟩, Nat.zero_le _⟩
  have capped := reach.invariant (I := Capped) none fun timely capped => capped.step timely
  exact ⟨OrdSet.size_le_of_subset capped.tracked,
    (Nat.add_le_add_left capped.covered.enough _).trans capped.bound⟩

/-- The second spawn is permitted with an earlier clock and reports first; its helper ends before
the throttle waits for it, and meanwhile the other reports. -/
def crossing : List Event :=
  [.allow [1] 5, .allow [2] 3, .spawned 0 7, .ended 7, .spawned 0 8, .exited 7, .allow [3] 4]

theorem helpers_capped_crossing :
    (crossing.foldl step {}).helpers.elems = [8] ∧ (crossing.foldl step {}).running = [4] ∧
      (crossing.foldl step {}).throttle.live.size + 1 ≤ 64 :=
  ⟨by decide, by decide, (helpers_capped crossing
    ⟨by decide, by decide, by decide, by decide, by decide, by decide, by decide, trivial⟩).2⟩

end Spawning
end Fms
