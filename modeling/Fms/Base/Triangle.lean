import Mathlib.Algebra.BigOperators.Group.List.Basic
import Mathlib.Tactic.Ring

/-! Ascending runs of numbers, told apart from other ascending lists by their sum. -/

namespace Triangle

/-- The sum of `1, …, n`. -/
def tri (n : Nat) : Nat := n * (n + 1) / 2

theorem two_mul_tri (n : Nat) : 2 * tri n = n * (n + 1) :=
  Nat.mul_div_cancel' (Nat.even_mul_succ_self n).two_dvd

theorem tri_succ (n : Nat) : tri (n + 1) = tri n + (n + 1) := by
  have now := two_mul_tri n
  have next := two_mul_tri (n + 1)
  have expand : (n + 1) * (n + 1 + 1) = n * (n + 1) + 2 * (n + 1) := by ring
  omega

theorem tri_add_le {c n : Nat} (below : c < n) : tri c + n ≤ tri n := by
  induction n with
  | zero => omega
  | succ n ih =>
    rw [tri_succ]
    rcases Nat.lt_succ_iff_lt_or_eq.mp below with less | rfl
    · have := ih less
      omega
    · omega

variable {l : List Nat} {c : Nat}

theorem length_le {top : Nat} (sorted : l.Pairwise (· < ·)) (inside : ∀ n ∈ l, c < n ∧ n ≤ top) (room : c ≤ top) :
    c + l.length ≤ top := by
  induction l generalizing c with
  | nil => simpa using room
  | cons x xs ih =>
    obtain ⟨above, later⟩ := List.pairwise_cons.mp sorted
    obtain ⟨lower, upper⟩ := inside x (List.mem_cons_self ..)
    have rest := ih later (fun n member => ⟨above n member, (inside n (List.mem_cons_of_mem _ member)).2⟩) upper
    simp only [List.length_cons]
    omega

theorem sum_le {top : Nat} (sorted : l.Pairwise (· < ·)) (inside : ∀ n ∈ l, c < n ∧ n ≤ top) (room : c ≤ top) :
    tri c + l.sum ≤ tri top := by
  induction l generalizing c with
  | nil =>
    rcases Nat.eq_or_lt_of_le room with rfl | less
    · simp
    · have := tri_add_le less
      simp
      omega
  | cons x xs ih =>
    obtain ⟨above, later⟩ := List.pairwise_cons.mp sorted
    obtain ⟨lower, upper⟩ := inside x (List.mem_cons_self ..)
    have rest := ih later (fun n member => ⟨above n member, (inside n (List.mem_cons_of_mem _ member)).2⟩) upper
    have step := tri_add_le lower
    simp only [List.sum_cons]
    omega

theorem le_sum (sorted : l.Pairwise (· < ·)) (inside : ∀ n ∈ l, c < n) : tri (c + l.length) ≤ tri c + l.sum := by
  induction l generalizing c with
  | nil => simp
  | cons x xs ih =>
    obtain ⟨above, later⟩ := List.pairwise_cons.mp sorted
    have lower := inside x (List.mem_cons_self ..)
    have rest := ih (c := c + 1) later fun n member => by
      have := above n member
      omega
    rw [tri_succ] at rest
    simp only [List.length_cons, List.sum_cons]
    rw [show c + (xs.length + 1) = c + 1 + xs.length by omega]
    omega

/-- An ascending list above `c` whose sum is the least possible is the run that starts
directly above `c`. -/
theorem eq_range_of_sum (sorted : l.Pairwise (· < ·)) (inside : ∀ n ∈ l, c < n)
    (least : tri c + l.sum = tri (c + l.length)) : l = List.range' (c + 1) l.length := by
  induction l generalizing c with
  | nil => rfl
  | cons x xs ih =>
    obtain ⟨above, later⟩ := List.pairwise_cons.mp sorted
    have lower := inside x (List.mem_cons_self ..)
    have higher : ∀ n ∈ xs, c + 1 < n := fun n member => by
      have := above n member
      omega
    have rest := le_sum later higher
    rw [tri_succ] at rest
    simp only [List.length_cons, List.sum_cons] at least ⊢
    rw [show c + (xs.length + 1) = c + 1 + xs.length by omega] at least
    have first : x = c + 1 := by omega
    have tail := ih later higher (by rw [tri_succ]; omega)
    rw [List.range'_succ, ← tail, first]

end Triangle
