import Mathlib.Tactic.Common

/-! Items decided on in one place and handed over in another: each decision leaves a list of
items to hand over in its order, and the lists may be worked off in any order. -/

namespace Handoff
variable {α β : Type} (g : α → List β)

/-- What has been handed over and then what is still owed, oldest decision first. -/
def due (made : List α) (owed : List (List α)) : List β := made.flatMap g ++ owed.flatten.flatMap g

theorem due_decide (made items : List α) (owed : List (List α)) :
    due g made (owed ++ [items]) = due g made owed ++ items.flatMap g := by
  simp [due]

variable {g}

/-- Handing an item over changes nothing as long as nothing older is owed beside it. -/
theorem due_hand {made rest : List α} {owed : List (List α)} {a : α} {i : Nat} (next : owed[i]? = some (a :: rest))
    (first : g a = [] ∨ ∀ older ∈ (owed.take i).flatten, g older = []) :
    due g (made ++ [a]) (owed.set i rest) = due g made owed := by
  obtain ⟨within, at_⟩ := List.getElem?_eq_some_iff.mp next
  have before : owed = owed.take i ++ (a :: rest) :: owed.drop (i + 1) := by
    rw [← at_, List.getElem_cons_drop within, List.take_append_drop]
  have after : owed.set i rest = owed.take i ++ rest :: owed.drop (i + 1) := List.set_eq_take_append_cons_drop.trans
    (if_pos within)
  have swap : g a ++ (owed.take i).flatten.flatMap g = (owed.take i).flatten.flatMap g ++ g a := by
    rcases first with nothing | nothing
    · rw [nothing, List.nil_append, List.append_nil]
    · rw [List.flatMap_eq_nil_iff.mpr nothing, List.nil_append, List.append_nil]
  have parts : due g made owed = made.flatMap g ++ ((owed.take i).flatten.flatMap g ++ g a) ++
      (rest.flatMap g ++ (owed.drop (i + 1)).flatten.flatMap g) := by
    unfold due
    conv_lhs => rw [before]
    simp
  rw [parts, ← swap, due, after]
  simp

/-- What has been handed over is a beginning of what is due, and all of it once nothing is owed. -/
theorem made_prefix {made : List α} {owed : List (List α)} {all : List β} (kept : due g made owed = all) :
    made.flatMap g <+: all ∧ ((∀ items ∈ owed, items = []) → made.flatMap g = all) := by
  refine ⟨⟨_, kept⟩, fun settled => ?_⟩
  have none : owed.flatten = [] := List.flatten_eq_nil_iff.mpr settled
  rw [← kept, due, none, List.flatMap_nil, List.append_nil]

end Handoff
