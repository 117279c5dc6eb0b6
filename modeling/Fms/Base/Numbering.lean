import Mathlib.Data.List.Sort

/-! Items numbered as they come in, some of which get lost on the way. -/

namespace Numbering
variable {α : Type} {number : α → Nat} {count : Nat} {lost more : List Nat} {line front back kept : List α} {x : α}

/-- All items that came in, apart from the lost ones, are in the line in the order of their
numbers. -/
structure InLine (number : α → Nat) (count : Nat) (lost : List Nat) (line : List α) : Prop where
  increasing : (line.map number).Pairwise (· < ·)
  members : ∀ n, n ∈ line.map number ↔ n < count ∧ n ∉ lost
  lost : ∀ n ∈ lost, n < count

theorem InLine.numbers (inLine : InLine number count lost line) :
    line.map number = (List.range count).filter (· ∉ lost) := by
  refine inLine.increasing.eq_of_mem_iff (List.pairwise_lt_range.filter _) fun n => ?_
  rw [inLine.members, List.mem_filter, List.mem_range, decide_eq_true_iff]

theorem InLine.empty : InLine number 0 [] [] := ⟨.nil, by simp, nofun⟩

theorem InLine.congr (inLine : InLine number count lost line) (same : ∀ n, n ∈ more ↔ n ∈ lost) :
    InLine number count more line := by
  refine ⟨inLine.increasing, fun n => ?_, fun n member => inLine.lost n ((same n).mp member)⟩
  rw [inLine.members, same]

theorem InLine.join (inLine : InLine number count lost line) (next : number x = count) :
    InLine number (count + 1) lost (line ++ [x]) := by
  have fresh : count ∉ lost := fun member => lt_irrefl _ (inLine.lost count member)
  refine ⟨?_, fun n => ?_, fun n member => Nat.lt_succ_of_lt (inLine.lost n member)⟩
  · rw [List.map_append, List.pairwise_append]
    refine ⟨inLine.increasing, List.pairwise_singleton .., fun n before m last => ?_⟩
    rw [List.map_singleton, next, List.mem_singleton] at last
    rw [last]
    exact ((inLine.members n).mp before).1
  · rw [List.map_append, List.mem_append, inLine.members, List.map_singleton, next, List.mem_singleton]
    constructor
    · rintro (⟨less, kept⟩ | rfl)
      · exact ⟨Nat.lt_succ_of_lt less, kept⟩
      · exact ⟨Nat.lt_succ_self _, fresh⟩
    · rintro ⟨less, kept⟩
      exact (Nat.lt_succ_iff_lt_or_eq.mp less).imp_left fun less => ⟨less, kept⟩

theorem InLine.lose (inLine : InLine number count lost (front ++ back)) (sub : kept.Sublist back) :
    InLine number count (lost ++ (back.map number).filter (· ∉ kept.map number)) (front ++ kept) := by
  have increasing := inLine.increasing
  rw [List.map_append] at increasing
  have apart := (List.pairwise_append.mp increasing).2.2
  have members := inLine.members
  simp only [List.map_append, List.mem_append] at members
  refine ⟨?_, fun n => ?_, fun n member => ?_⟩
  · rw [List.map_append]
    exact increasing.sublist ((List.Sublist.refl _).append (sub.map number))
  · simp only [List.map_append, List.mem_append, List.mem_filter, decide_eq_true_iff]
    constructor
    · rintro (first | last)
      · obtain ⟨less, here⟩ := (members n).mp (.inl first)
        refine ⟨less, not_or.mpr ⟨here, fun ⟨also, _⟩ => ?_⟩⟩
        exact lt_irrefl n (apart n first n also)
      · obtain ⟨less, here⟩ := (members n).mp (.inr ((sub.map number).subset last))
        exact ⟨less, not_or.mpr ⟨here, fun ⟨_, gone⟩ => gone last⟩⟩
    · rintro ⟨less, here⟩
      obtain ⟨before, now⟩ := not_or.mp here
      refine ((members n).mpr ⟨less, before⟩).imp_right fun last => ?_
      exact not_not.mp fun gone => now ⟨last, gone⟩
  · rcases List.mem_append.mp member with before | now
    · exact inLine.lost n before
    · exact ((members n).mp (.inr (List.mem_of_mem_filter now))).1

/-- What was kept of a line and what was lost of it are the whole line. -/
theorem perm_lost (sub : kept.Sublist back) (distinct : (back.map number).Nodup) :
    (kept ++ back.filter fun x => number x ∉ kept.map number).Perm back := by
  have nodup : back.Nodup := distinct.of_map number
  have front : kept.Perm (back.filter fun x => number x ∈ kept.map number) := by
    refine (List.perm_ext_iff_of_nodup (sub.nodup nodup) (nodup.filter _)).mpr fun x => ?_
    rw [List.mem_filter, decide_eq_true_iff]
    refine ⟨fun here => ⟨sub.subset here, List.mem_map_of_mem here⟩, fun ⟨inside, named⟩ => ?_⟩
    obtain ⟨y, here, same⟩ := List.mem_map.mp named
    exact List.inj_on_of_nodup_map distinct (sub.subset here) inside same ▸ here
  refine (front.append_right _).trans ?_
  simp only [decide_not]
  exact List.filter_append_perm ..

/-- An item joins a line of which some are lost: all that came in are still there. -/
theorem perm_join {before waits entered lost shed posts : List α}
    (whole : (before ++ waits ++ shed).Perm posts) (joins : entered.Perm (waits ++ [x]))
    (parts : (kept ++ lost).Perm entered) : (before ++ kept ++ (shed ++ lost)).Perm (posts ++ [x]) := by
  calc before ++ kept ++ (shed ++ lost)
    _ = before ++ (kept ++ (shed ++ lost)) := List.append_assoc ..
    List.Perm _ (before ++ (kept ++ (lost ++ shed))) := (List.perm_append_comm.append_left kept).append_left before
    _ = before ++ (kept ++ lost ++ shed) := by rw [List.append_assoc]
    List.Perm _ (before ++ (waits ++ [x] ++ shed)) := ((parts.trans joins).append_right shed).append_left before
    _ = before ++ waits ++ ([x] ++ shed) := by simp only [List.append_assoc]
    List.Perm _ (before ++ waits ++ (shed ++ [x])) := List.perm_append_comm.append_left _
    _ = before ++ waits ++ shed ++ [x] := (List.append_assoc ..).symm
    List.Perm _ (posts ++ [x]) := whole.append_right [x]

/-- What stands before an item is all that came before it. -/
theorem InLine.cut (inLine : InLine number count lost (front ++ x :: back)) :
    front.map number = (List.range (number x)).filter (· ∉ lost) ∧ number x < count ∧
      ∀ y ∈ back, number x < number y := by
  have increasing := inLine.increasing
  have members := inLine.members
  rw [List.map_append, List.map_cons] at increasing
  simp only [List.map_append, List.map_cons, List.mem_append, List.mem_cons] at members
  obtain ⟨ofFront, ofRest, apart⟩ := List.pairwise_append.mp increasing
  obtain ⟨above, _⟩ := List.pairwise_cons.mp ofRest
  have below := ((members (number x)).mp (.inr (.inl rfl))).1
  refine ⟨ofFront.eq_of_mem_iff (List.pairwise_lt_range.filter _) fun n => ?_, below, fun y later => ?_⟩
  · rw [List.mem_filter, List.mem_range, decide_eq_true_iff]
    constructor
    · intro first
      exact ⟨apart n first _ List.mem_cons_self, ((members n).mp (.inl first)).2⟩
    · rintro ⟨less, here⟩
      rcases (members n).mpr ⟨less.trans below, here⟩ with first | rfl | last
      · exact first
      · exact absurd less (lt_irrefl _)
      · exact absurd (less.trans (above n last)) (lt_irrefl _)
  · exact above _ (List.mem_map_of_mem later)

end Numbering
