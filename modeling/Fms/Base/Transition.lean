import Mathlib.Data.List.Induction
import Mathlib.Tactic.Common

/-! Runs of a system under a condition on its steps. -/

namespace Transition

/-- The states that steps lead to, each taken in a state that allows it. -/
inductive Reach {σ ι : Type} (step : σ → ι → σ) (allowed : σ → ι → Prop) (start : σ) : σ → Prop
  | start : Reach step allowed start start
  | next {s} : Reach step allowed start s → (i : ι) → allowed s i → Reach step allowed start (step s i)

variable {σ ι : Type} {step : σ → ι → σ} {allowed : σ → ι → Prop} {start s : σ}

/-- What holds at the start and is kept by every allowed step holds throughout. -/
theorem Reach.invariant {I : σ → Prop} (initial : I start) (keeps : ∀ {s i}, allowed s i → I s → I (step s i))
    (reach : Reach step allowed start s) : I s := by
  induction reach with
  | start => exact initial
  | next _ _ allow ih => exact keeps allow ih

variable (step allowed) in
/-- Each step of the list is allowed in the state it is taken in. -/
def Along : σ → List ι → Prop
  | _, [] => True
  | s, i :: rest => allowed s i ∧ Along (step s i) rest

variable {l : List ι}

theorem Reach.along (reach : Reach step allowed start s) (each : Along step allowed s l) :
    Reach step allowed start (l.foldl step s) := by
  induction l generalizing s with
  | nil => exact reach
  | cons i l ih => exact ih (reach.next i each.1) each.2

theorem Along.last {i : ι} (each : Along step allowed s (l ++ [i])) : allowed (l.foldl step s) i := by
  induction l generalizing s with
  | nil => exact each.1
  | cons _ l ih => exact ih each.2

theorem Along.of_free (free : ∀ s, ∀ i ∈ l, allowed s i) : Along step allowed s l := by
  induction l generalizing s with
  | nil => trivial
  | cons i l ih =>
    exact ⟨free s i (List.mem_cons_self ..), ih fun s j later => free s j (List.mem_cons_of_mem i later)⟩

theorem Reach.foldl (free : ∀ s, ∀ i ∈ l, allowed s i) (reach : Reach step allowed start s) :
    Reach step allowed start (l.foldl step s) :=
  reach.along (.of_free free)

/-- A mark that some steps set and some take away stands at the end of a run where a step set it
and no later one took it away. -/
theorem marked_iff {marked : σ → Prop} {sets clears : σ → ι → Prop} (initially : ¬marked start)
    (turn : ∀ s i, marked (step s i) ↔ sets s i ∨ marked s ∧ ¬clears s i) (l : List ι) :
    marked (l.foldl step start) ↔ ∃ before i after, l = before ++ i :: after ∧ sets (before.foldl step start) i ∧
      ∀ mid j rest, after = mid ++ j :: rest → ¬clears ((before ++ i :: mid).foldl step start) j := by
  induction l using List.reverseRecOn with
  | nil =>
    constructor
    · exact fun marked => absurd marked initially
    · rintro ⟨before, i, after, split, _⟩
      cases before <;> cases split
  | append_singleton l last ih =>
    rw [List.foldl_append, List.foldl_cons, List.foldl_nil, turn, ih]
    constructor
    · rintro (sets | ⟨⟨before, i, after, rfl, sets, keeps⟩, kept⟩)
      · refine ⟨l, last, [], rfl, sets, fun mid j rest split => ?_⟩
        cases mid <;> cases split
      · refine ⟨before, i, after ++ [last], by simp, sets, fun mid j rest split => ?_⟩
        -- the step that clears is the last one or an earlier one
        rcases List.eq_nil_or_concat rest with rfl | ⟨shorter, final, rfl⟩
        · obtain ⟨rfl, same⟩ := List.append_inj' split rfl
          cases same
          exact kept
        · have parts : after ++ [last] = (mid ++ j :: shorter) ++ [final] := by simpa using split
          exact keeps mid j shorter (List.append_inj' parts rfl).1
    · rintro ⟨before, i, after, split, sets, keeps⟩
      rcases List.eq_nil_or_concat after with rfl | ⟨shorter, final, rfl⟩
      · obtain ⟨rfl, same⟩ := List.append_inj' split rfl
        cases same
        exact .inl sets
      · have parts : l ++ [last] = (before ++ i :: shorter) ++ [final] := by simpa using split
        obtain ⟨rfl, same⟩ := List.append_inj' parts rfl
        cases same
        refine .inr ⟨⟨before, i, shorter, rfl, sets, fun mid j rest split => ?_⟩, ?_⟩
        · exact keeps mid j (rest ++ [last]) (by simp [split])
        · exact keeps shorter last [] (by simp)

end Transition
