import Mathlib

/-! A counter of one's own beside a counter that is shared, both in machine words. -/

/-- `clean` tells that no release has taken more from a counter than it held. -/
structure Ledger where
  own : Nat := 0
  shared : Nat := 0
  clean : Bool := true

namespace Ledger

/-- The counters are kept in 64 bits. -/
def word : Nat := 2 ^ 64

def charge (l : Ledger) (n : Nat) : Ledger :=
  { l with own := (l.own + n) % word, shared := (l.shared + n) % word }

def release (l : Ledger) (n : Nat) : Ledger where
  own := (l.own + word - n) % word
  shared := (l.shared + word - n) % word
  clean := l.clean && (n ≤ l.own && n ≤ l.shared)

def releaseEach (l : Ledger) (amounts : List Nat) : Ledger := amounts.foldl release l

/-- The ledger's own counter stands at `held`, the others' part of the shared one is `rest`, and
together they stay within the limit. -/
structure Holds (limit : Nat) (l : Ledger) (held rest : Nat) : Prop where
  own : l.own = held
  shared : l.shared = rest + held
  clean : l.clean = true
  within : rest + held ≤ limit

variable {limit held rest n : Nat} {l : Ledger}

theorem Holds.charge (holds : l.Holds limit held rest) (small : limit < word) (room : rest + held + n ≤ limit) :
    (l.charge n).Holds limit (held + n) rest where
  own := by
    rw [Ledger.charge, holds.own]
    exact Nat.mod_eq_of_lt (by omega)
  shared := by
    rw [Ledger.charge, holds.shared, ← Nat.add_assoc]
    exact Nat.mod_eq_of_lt (by omega)
  clean := holds.clean
  within := by omega

theorem Holds.release (holds : l.Holds limit held rest) (small : limit < word) (there : n ≤ held) :
    (l.release n).Holds limit (held - n) rest where
  own := by
    have within := holds.within
    rw [Ledger.release, holds.own]
    show (held + word - n) % word = held - n
    rw [show held + word - n = held - n + word by omega, Nat.add_mod_right, Nat.mod_eq_of_lt (by omega)]
  shared := by
    have within := holds.within
    rw [Ledger.release, holds.shared]
    show (rest + held + word - n) % word = rest + (held - n)
    rw [show rest + held + word - n = rest + (held - n) + word by omega, Nat.add_mod_right,
      Nat.mod_eq_of_lt (by omega)]
  clean := by
    have enough : n ≤ rest + held := by omega
    simp [Ledger.release, holds.own, holds.shared, holds.clean, there, enough]
  within := by
    have within := holds.within
    omega

theorem Holds.releaseEach (holds : l.Holds limit held rest) (small : limit < word) (amounts : List Nat)
    (there : amounts.sum ≤ held) : (l.releaseEach amounts).Holds limit (held - amounts.sum) rest := by
  induction amounts generalizing l held with
  | nil => exact holds
  | cons n amounts ih =>
    rw [List.sum_cons] at there ⊢
    rw [← Nat.sub_sub]
    exact ih (holds.release small (by omega)) (by omega)

/-- The whole of one's own counter can always be given back. -/
theorem Holds.releaseAll (holds : l.Holds limit held rest) (small : limit < word) :
    (l.release l.own).Holds limit 0 rest := by
  rw [holds.own]
  have given := holds.release small (Nat.le_refl held)
  rwa [Nat.sub_self] at given

end Ledger
