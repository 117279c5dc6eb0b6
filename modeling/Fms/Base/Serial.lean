import Mathlib.Tactic.Common

/-! Times on the circle of 32-bit numbers. -/

namespace Serial

/-- The signed difference is not negative: the second time is not behind the first. -/
def Forward (a b : UInt32) : Prop := b - a < 0x80000000

instance (a b : UInt32) : Decidable (Forward a b) := inferInstanceAs (Decidable (_ < _))

theorem Forward.refl (a : UInt32) : Forward a a := by
  rw [Forward, UInt32.sub_self]
  decide

theorem forward_add {a t : UInt32} (short : t < 0x80000000) : Forward a (a + t) := by
  rwa [Forward, UInt32.add_comm, UInt32.add_sub_cancel]

end Serial
