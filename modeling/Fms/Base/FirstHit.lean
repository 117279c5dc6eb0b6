import Mathlib.Tactic.Common

/-! The first of its kind in a log, from the start and from every mark on. -/

namespace FirstHit
variable {α : Type} (marks hits good : α → Bool)

/-- Whether the first hit is still to come. -/
def next (waiting : Bool) (a : α) : Bool := marks a || (waiting && !hits a)

def after (waiting : Bool) (log : List α) : Bool := log.foldl (next marks hits) waiting

/-- A hit that is waited for is a good one. -/
def Ok : Bool → List α → Prop
  | _, [] => True
  | waiting, a :: rest => (waiting = true → hits a = true → good a = true) ∧ Ok (next marks hits waiting a) rest

variable {marks hits good} {waiting : Bool} {log more between : List α} {a mark : α}

theorem after_append : after marks hits waiting (log ++ more) = after marks hits
    (after marks hits waiting log) more :=
  List.foldl_append

theorem ok_append : Ok marks hits good waiting (log ++ more) ↔
    Ok marks hits good waiting log ∧ Ok marks hits good (after marks hits waiting log) more := by
  induction log generalizing waiting with
  | nil => exact ⟨fun ok => ⟨trivial, ok⟩, And.right⟩
  | cons a log ih =>
    rw [List.cons_append, Ok, Ok, ih, and_assoc]
    rfl

theorem after_of_free (free : ∀ a ∈ more, marks a = false ∧ hits a = false) :
    after marks hits waiting more = waiting := by
  induction more with
  | nil => rfl
  | cons a more ih =>
    obtain ⟨unmarked, miss⟩ := free a List.mem_cons_self
    have same : next marks hits waiting a = waiting := by simp [next, unmarked, miss]
    show after marks hits (next marks hits waiting a) more = waiting
    rw [same]
    exact ih fun b later => free b (List.mem_cons_of_mem _ later)

theorem ok_of_free (free : ∀ a ∈ more, hits a = false) : Ok marks hits good waiting more := by
  induction more generalizing waiting with
  | nil => trivial
  | cons a more ih =>
    have miss := free a List.mem_cons_self
    exact ⟨fun _ hit => absurd (miss.symm.trans hit) Bool.false_ne_true, ih fun b later =>
      free b (List.mem_cons_of_mem _ later)⟩

theorem spent_of_unmarked (unmarked : ∀ a ∈ more, marks a = false) :
    Ok marks hits good false more ∧ after marks hits false more = false := by
  induction more with
  | nil => exact ⟨trivial, rfl⟩
  | cons a more ih =>
    have same : next marks hits false a = false := by simp [next, unmarked a List.mem_cons_self]
    have later := ih fun b later => unmarked b (List.mem_cons_of_mem _ later)
    refine ⟨⟨nofun, ?_⟩, ?_⟩
    · rw [same]
      exact later.1
    · show after marks hits (next marks hits false a) more = false
      rw [same]
      exact later.2

theorem ok_of_good (free : ∀ b ∈ between, marks b = false ∧ hits b = false) (hit : hits a = true)
    (isGood : good a = true) (unmarked : ∀ b ∈ a :: more, marks b = false) :
    Ok marks hits good waiting (between ++ a :: more) ∧ after marks hits waiting (between ++ a :: more) = false := by
  have same : next marks hits waiting a = false := by simp [next, unmarked a List.mem_cons_self, hit]
  have later : Ok marks hits good false more ∧ after marks hits false more = false :=
    spent_of_unmarked fun b later => unmarked b (List.mem_cons_of_mem a later)
  rw [ok_append, after_append, after_of_free free]
  refine ⟨⟨ok_of_free fun b before => (free b before).2, fun _ _ => isGood, ?_⟩, ?_⟩
  · rw [same]
    exact later.1
  · show after marks hits (next marks hits waiting a) more = false
    rw [same]
    exact later.2

theorem after_of_misses (misses : ∀ b ∈ between, hits b = false) : after marks hits true between = true := by
  induction between with
  | nil => rfl
  | cons b between ih =>
    have same : next marks hits true b = true := by simp [next, misses b List.mem_cons_self]
    show after marks hits (next marks hits true b) between = true
    rw [same]
    exact ih fun c later => misses c (List.mem_cons_of_mem _ later)

theorem Ok.first {before rest : List α} (ok : Ok marks hits good waiting (before ++ mark :: (between ++ a :: rest)))
    (marked : marks mark = true) (misses : ∀ b ∈ between, hits b = false) (hit : hits a = true) : good a = true := by
  have behind := (ok_append.mp (ok_append.mp ok).2.2).2
  have start : next marks hits (after marks hits waiting before) mark = true := by simp [next, marked]
  rw [start, after_of_misses misses] at behind
  exact behind.1 rfl hit

end FirstHit
