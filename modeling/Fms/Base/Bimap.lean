import Fms.Base.Dict

/-! Finite one-to-one relations, looked up from either side. -/

structure Bimap (α β : Type) [DecidableEq α] where
  left : Dict α β := ∅
  injective : ∀ {a a' b}, left.lookup a = some b → left.lookup a' = some b → a = a'

namespace Bimap
variable {α β : Type} [DecidableEq α]

instance : EmptyCollection (Bimap α β) := ⟨⟨∅, fun found => by cases found⟩⟩

def lookup (m : Bimap α β) (a : α) : Option β := m.left.lookup a

def eraseLeft (m : Bimap α β) (a : α) : Bimap α β where
  left := m.left.erase a
  injective := by
    intro x y b one other
    rw [Dict.lookup_erase_if] at one other
    split at one
    · cases one
    · split at other
      · cases other
      · exact m.injective one other

variable {m : Bimap α β}

theorem lookup_eraseLeft {a x : α} : (m.eraseLeft a).lookup x = if x = a then none else m.lookup x :=
  Dict.lookup_erase_if

theorem eq_empty (nothing : ∀ a, m.lookup a = none) : m = ∅ := by
  obtain ⟨left, injective⟩ := m
  obtain rfl : left = ∅ := Dict.eq_empty nothing
  rfl

variable [DecidableEq β]

def lookupRight (m : Bimap α β) (b : β) : Option α := (m.left.entries.find? fun entry => entry.2 = b).map Sigma.fst

theorem lookupRight_eq_some {a : α} {b : β} : m.lookupRight b = some a ↔ m.lookup a = some b := by
  constructor
  · intro found
    obtain ⟨⟨x, y⟩, hit, rfl⟩ := Option.map_eq_some_iff.mp found
    have same : y = b := by simpa using List.find?_some hit
    exact AList.mem_lookup_iff.mpr (same ▸ List.mem_of_find?_eq_some hit)
  · intro there
    have member : Sigma.mk a b ∈ m.left.entries := AList.mem_lookup_iff.mp there
    cases found : m.left.entries.find? fun entry => entry.2 = b with
    | none => exact absurd (decide_eq_true rfl) (List.find?_eq_none.mp found _ member)
    | some entry =>
      obtain ⟨x, y⟩ := entry
      have same : y = b := by simpa using List.find?_some found
      have other : m.left.lookup x = some b := AList.mem_lookup_iff.mpr (same ▸ List.mem_of_find?_eq_some found)
      show (m.left.entries.find? fun entry => entry.2 = b).map Sigma.fst = some a
      rw [found, m.injective there other]
      rfl

theorem lookupRight_eq_none {b : β} : m.lookupRight b = none ↔ ∀ a, m.lookup a ≠ some b := by
  rw [Option.eq_none_iff_forall_ne_some]
  exact forall_congr' fun a => not_congr lookupRight_eq_some

/-- Nothing is changed where either side is there already. -/
def insert (m : Bimap α β) (a : α) (b : β) : Bimap α β :=
  if fresh : m.lookup a = none ∧ m.lookupRight b = none then
    { left := m.left.insert a b
      injective := by
        have absent := lookupRight_eq_none.mp fresh.2
        intro x y c one other
        rw [Dict.lookup_insert_if] at one other
        split at one
        · rename_i first
          split at other
          · rename_i second
            exact first.trans second.symm
          · cases one
            exact absurd other (absent y)
        · split at other
          · cases other
            exact absurd one (absent x)
          · exact m.injective one other }
  else m

theorem lookup_insert {a x : α} {b : β} (new : m.lookup a = none) (free : m.lookupRight b = none) :
    (m.insert a b).lookup x = if x = a then some b else m.lookup x := by
  unfold insert
  rw [dif_pos ⟨new, free⟩]
  exact Dict.lookup_insert_if

end Bimap
