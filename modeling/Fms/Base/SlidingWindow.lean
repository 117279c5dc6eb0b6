import Mathlib.Data.Set.Insert
import Mathlib.Tactic.Common

/-! A window of bits below a moving maximum, for the set of numbers seen near it. -/

namespace SlidingWindow
variable {w top shift back : Nat} {bits : BitVec w} {seen : Set Nat}

/-- Bit `k` stands for the number `k` below the top. -/
def Stands (top : Nat) (bits : BitVec w) (seen : Set Nat) : Prop :=
  ∀ k < w, bits.getLsbD k = true ↔ k ≤ top ∧ top - k ∈ seen

theorem stands_first (wide : 0 < w) : Stands top (1#w) {top} := by
  intro k _
  rw [BitVec.getLsbD_one, Set.mem_singleton_iff]
  simp only [wide, decide_true, Bool.true_and, decide_eq_true_eq]
  omega

/-- A number above the top becomes the top. The bits move away from it, and out of the window
where they move too far. -/
theorem Stands.advance (stands : Stands top bits seen) (below : ∀ n ∈ seen, n ≤ top) (above : 0 < shift) :
    Stands (top + shift) (bits <<< shift ||| 1#w) (insert (top + shift) seen) := by
  intro k inside
  have wide : 0 < w := by omega
  rw [BitVec.getLsbD_or, BitVec.getLsbD_shiftLeft, BitVec.getLsbD_one, Set.mem_insert_iff]
  simp only [inside, wide, decide_true, Bool.true_and, Bool.or_eq_true, Bool.and_eq_true, Bool.not_eq_true',
    decide_eq_false_iff_not, decide_eq_true_eq]
  by_cases first : k = 0
  · simp [first]
  · by_cases passed : k < shift
    · have out : top + shift - k ∉ seen := by
        intro member
        have := below _ member
        omega
      have apart : top + shift - k ≠ top + shift := by omega
      simp [first, passed, out, apart]
    · have same : top + shift - k = top - (k - shift) := by omega
      have apart : top - (k - shift) ≠ top + shift := by omega
      rw [stands (k - shift) (by omega), same]
      simp only [passed, first, apart, not_false_eq_true, true_and, or_false, false_or]
      have bound : k - shift ≤ top ↔ k ≤ top + shift := by omega
      rw [bound]

theorem Stands.mark (stands : Stands top bits seen) (low : back ≤ top) :
    Stands top (bits ||| 1#w <<< back) (insert (top - back) seen) := by
  intro k within
  rw [BitVec.getLsbD_or, BitVec.getLsbD_shiftLeft, BitVec.getLsbD_one, Set.mem_insert_iff, Bool.or_eq_true,
    stands k within]
  simp only [within, decide_true, Bool.true_and, Bool.and_eq_true, Bool.not_eq_true', decide_eq_false_iff_not,
    decide_eq_true_eq]
  constructor
  · rintro (⟨bound, member⟩ | ⟨_, _, _⟩)
    · exact ⟨bound, .inr member⟩
    · have same : k = back := by omega
      exact ⟨same ▸ low, .inl (by rw [same])⟩
  · rintro ⟨bound, same | member⟩
    · exact .inr ⟨by omega, by omega, by omega⟩
    · exact .inl ⟨bound, member⟩

theorem getLsbD_mask {k : Nat} : (bits &&& 1#w <<< back).getLsbD k = true ↔ k = back ∧ bits.getLsbD k = true := by
  rw [BitVec.getLsbD_and, BitVec.getLsbD_shiftLeft, BitVec.getLsbD_one]
  simp only [Bool.and_eq_true, Bool.not_eq_true', decide_eq_false_iff_not, decide_eq_true_eq]
  constructor
  · rintro ⟨present, ⟨_, _⟩, _, _⟩
    exact ⟨by omega, present⟩
  · rintro ⟨rfl, present⟩
    have inside := BitVec.lt_of_getLsbD present
    exact ⟨present, ⟨inside, by omega⟩, by omega, by omega⟩

theorem mask_ne_zero : bits &&& 1#w <<< back ≠ 0#w ↔ bits.getLsbD back = true := by
  constructor
  · intro nonzero
    by_contra absent
    refine nonzero (BitVec.eq_of_getLsbD_eq fun k _ => ?_)
    rw [BitVec.getLsbD_zero, Bool.eq_false_iff, Ne, getLsbD_mask]
    rintro ⟨rfl, present⟩
    exact absent present
  · intro present zero
    have masked := getLsbD_mask.mpr ⟨rfl, present⟩
    rw [zero, BitVec.getLsbD_zero] at masked
    cases masked

end SlidingWindow
