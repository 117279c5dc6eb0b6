import Mathlib.Data.List.Basic
import Mathlib.Logic.Relation
import Mathlib.Order.Basic
import Mathlib.Data.Set.Insert
import Mathlib.Tactic.Common

/-! Objects that are built in place: a heap is the list of the objects allocated, an address
an index into it. -/

namespace Heap
variable {ν : Type}

/-- The object at `a` points to the one at `b`. -/
def Link (links : ν → List Nat) (heap : List ν) (a b : Nat) : Prop := ∃ node, heap[a]? = some node ∧ b ∈ links node

/-- A chain of that many objects starts at `a`. -/
inductive Path (links : ν → List Nat) (heap : List ν) : Nat → Nat → Prop
  | single (a : Nat) : Path links heap 1 a
  | step {a b levels : Nat} : Link links heap a b → Path links heap levels b → Path links heap (levels + 1) a

/-- Whether every chain from `a` has at most that many objects. -/
def fits (links : ν → List Nat) (heap : List ν) : Nat → Nat → Bool
  | 0, _ => false
  | levels + 1, a => (heap[a]?.elim [] links).all (fits links heap levels)

/-- The objects at `base` and above while those in `opens` are being filled: each is as
`good` says, none points below `base` or to one that is being filled, and none reaches
itself. -/
structure Sound (links : ν → List Nat) (good : ν → Prop) (base : Nat) (opens : Set Nat) (heap : List ν) : Prop where
  reserved : base ≤ heap.length
  allocated : ∀ a ∈ opens, base ≤ a ∧ a < heap.length
  good : ∀ a node, base ≤ a → heap[a]? = some node → good node
  inside : ∀ a b, base ≤ a → Link links heap a b → base ≤ b ∧ b < heap.length ∧ b ∉ opens
  ranked : ∃ rank : Nat → Nat, ∀ a b, base ≤ a → Link links heap a b → rank b < rank a

/-- An object that is there in full. -/
def Closed (base : Nat) (opens : Set Nat) (heap : List ν) (a : Nat) : Prop :=
  base ≤ a ∧ a < heap.length ∧ a ∉ opens

/-- The second list is no shorter and the same at the indices of the first, those in `skip`
apart. -/
def Beyond {α : Type} (skip : Set Nat) (l l' : List α) : Prop :=
  l.length ≤ l'.length ∧ ∀ i < l.length, i ∉ skip → l'[i]? = l[i]?

namespace Beyond
variable {α : Type} {skip skip' : Set Nat} {l l' l'' : List α}

theorem refl (skip : Set Nat) (l : List α) : Beyond skip l l := ⟨Nat.le_refl _, fun _ _ _ => rfl⟩

theorem trans (first : Beyond skip l l') (second : Beyond skip l' l'') : Beyond skip l l'' :=
  ⟨first.1.trans second.1, fun i below out => (second.2 i (below.trans_le first.1) out).trans (first.2 i below out)⟩

theorem mono (beyond : Beyond skip l l') (more : skip ⊆ skip') : Beyond skip' l l' :=
  ⟨beyond.1, fun i below out => beyond.2 i below fun inside => out (more inside)⟩

theorem append (skip : Set Nat) (l rest : List α) : Beyond skip l (l ++ rest) :=
  ⟨by simp, fun _ below _ => List.getElem?_append_left below⟩

theorem modify {i : Nat} (inside : i ∈ skip) (l : List α) (change : α → α) : Beyond skip l (l.modify i change) := by
  refine ⟨by simp, fun j _ out => ?_⟩
  have apart : i ≠ j := fun same => out (same ▸ inside)
  simp [apart]

end Beyond

variable {links : ν → List Nat} {good : ν → Prop} {base : Nat} {opens : Set Nat} {heap heap' : List ν}

theorem all_links {p : Nat → Bool} {a : Nat} :
    (heap[a]?.elim [] links).all p = true ↔ ∀ b, Link links heap a b → p b = true := by
  cases found : heap[a]? with
  | none => simp [Link, found]
  | some node => simp [Link, found]

theorem fits_iff {levels a : Nat} (some : 0 < levels) :
    fits links heap levels a = true ↔ ∀ n, Path links heap n a → n ≤ levels := by
  induction levels generalizing a with
  | zero => omega
  | succ levels ih =>
    rw [fits, all_links]
    constructor
    · intro below n path
      cases path with
      | single => omega
      | @step _ b k link rest =>
        cases levels with
        | zero => cases below b link
        | succ levels => exact Nat.succ_le_succ ((ih (Nat.succ_pos _)).mp (below b link) k rest)
    · intro bound b link
      cases levels with
      | zero =>
        have two := bound 2 (.step link (.single b))
        omega
      | succ levels =>
        exact (ih (Nat.succ_pos _)).mpr fun n path => Nat.le_of_succ_le_succ (bound (n + 1) (.step link path))

theorem link_congr {a b : Nat} (same : heap'[a]? = heap[a]?) : Link links heap' a b ↔ Link links heap a b := by
  rw [Link, Link, same]

theorem exists_above (rank : Nat → Nat) (n : Nat) : ∃ top, ∀ b < n, rank b < top := by
  induction n with
  | zero => exact ⟨0, fun b below => absurd below (Nat.not_lt_zero b)⟩
  | succ n ih =>
    obtain ⟨top, higher⟩ := ih
    refine ⟨top + rank n + 1, fun b below => ?_⟩
    rcases Nat.lt_succ_iff_lt_or_eq.mp below with earlier | rfl
    · have := higher b earlier
      omega
    · omega

namespace Sound

theorem closed_of_link (sound : Sound links good base opens heap) {a b : Nat} (closed : Closed base opens heap a)
    (link : Link links heap a b) : Closed base opens heap b :=
  sound.inside a b closed.1 link

/-- What stands at a closed address does not depend on the objects that are being filled. -/
theorem fits_stable (sound : Sound links good base opens heap) (beyond : Beyond opens heap heap') {levels a : Nat}
    (closed : Closed base opens heap a) :
    fits links heap' levels a = fits links heap levels a := by
  induction levels generalizing a with
  | zero => rfl
  | succ levels ih =>
    have here := beyond.2 a closed.2.1 closed.2.2
    rw [Bool.eq_iff_iff, fits, fits, all_links, all_links]
    constructor
    · intro below b link
      rw [← ih (sound.closed_of_link closed link)]
      exact below b ((link_congr here).mpr link)
    · intro below b link
      have old := (link_congr here).mp link
      rw [ih (sound.closed_of_link closed old)]
      exact below b old

/-- A new object may point to closed ones. -/
theorem alloc (sound : Sound links good base opens heap) {node : ν} (isGood : good node)
    (closed : ∀ b ∈ links node, Closed base opens heap b) : Sound links good base opens (heap ++ [node]) := by
  have old {a b : Nat} (link : Link links (heap ++ [node]) a b) :
      Link links heap a b ∨ a = heap.length ∧ b ∈ links node := by
    obtain ⟨n, found, member⟩ := link
    rcases Nat.lt_or_ge a heap.length with below | above
    · rw [List.getElem?_append_left below] at found
      exact .inl ⟨n, found, member⟩
    · rw [List.getElem?_append_right above, List.getElem?_singleton] at found
      split at found
      · cases found
        exact .inr ⟨by omega, member⟩
      · cases found
  have grown : heap.length < (heap ++ [node]).length := by simp
  refine ⟨sound.reserved.trans grown.le, fun a member => ?_, ?_, ?_, ?_⟩
  · exact ⟨(sound.allocated a member).1, (sound.allocated a member).2.trans grown⟩
  · intro a n above found
    rcases Nat.lt_or_ge a heap.length with below | beyond
    · rw [List.getElem?_append_left below] at found
      exact sound.good a n above found
    · rw [List.getElem?_append_right beyond, List.getElem?_singleton] at found
      split at found
      · cases found
        exact isGood
      · cases found
  · intro a b above link
    rcases old link with link | ⟨_, member⟩
    · obtain ⟨low, high, shut⟩ := sound.inside a b above link
      exact ⟨low, high.trans grown, shut⟩
    · obtain ⟨low, high, shut⟩ := closed b member
      exact ⟨low, high.trans grown, shut⟩
  · obtain ⟨rank, falls⟩ := sound.ranked
    obtain ⟨top, highest⟩ := exists_above rank heap.length
    -- the new object ranks above all others, and nothing points to it yet
    refine ⟨fun a => if a = heap.length then top else rank a, fun a b above link => ?_⟩
    show (if b = heap.length then top else rank b) < if a = heap.length then top else rank a
    have target : b < heap.length := by
      rcases old link with link | ⟨_, member⟩
      · exact (sound.inside a b above link).2.1
      · exact (closed b member).2.1
    rw [if_neg target.ne]
    split
    · exact highest b target
    · rename_i elsewhere
      rcases old link with link | ⟨here, _⟩
      · exact falls a b above link
      · exact absurd here elsewhere

/-- Nothing points to a new object yet, so it can be one to fill. -/
theorem opening (sound : Sound links good base opens heap) {node : ν} (isGood : good node) (empty : links node = []) :
    Sound links good base (insert heap.length opens) (heap ++ [node]) := by
  have grown := sound.alloc isGood fun b member => by rw [empty] at member; cases member
  refine ⟨grown.reserved, fun a member => ?_, grown.good, fun a b above link => ?_, grown.ranked⟩
  · rcases Set.mem_insert_iff.mp member with rfl | old
    · exact ⟨sound.reserved, by simp⟩
    · exact grown.allocated a old
  · obtain ⟨low, high, shut⟩ := grown.inside a b above link
    refine ⟨low, high, fun member => ?_⟩
    rcases Set.mem_insert_iff.mp member with rfl | old
    · obtain ⟨n, found, member⟩ := link
      rcases Nat.lt_or_ge a heap.length with below | beyond
      · rw [List.getElem?_append_left below] at found
        exact absurd (sound.inside a heap.length above ⟨n, found, member⟩).2.1 (Nat.lt_irrefl _)
      · rw [List.getElem?_append_right beyond, List.getElem?_singleton] at found
        split at found
        · cases found
          rw [empty] at member
          cases member
        · cases found
    · exact shut old

theorem closing (sound : Sound links good base opens heap) (a : Nat) : Sound links good base (opens \ {a}) heap where
  reserved := sound.reserved
  allocated b member := sound.allocated b member.1
  good := sound.good
  inside b c above link :=
    have ⟨low, high, shut⟩ := sound.inside b c above link
    ⟨low, high, fun member => shut member.1⟩
  ranked := sound.ranked

/-- An object that is being filled may take pointers to closed ones: nothing points to it. -/
theorem fill (sound : Sound links good base opens heap) {a : Nat} (isOpen : a ∈ opens) {change : ν → ν}
    (keeps : ∀ node, heap[a]? = some node → good node → good (change node))
    (closed : ∀ node, heap[a]? = some node → ∀ b ∈ links (change node), b ∈ links node ∨ Closed base opens heap b) :
    Sound links good base opens (heap.modify a change) := by
  have length : (heap.modify a change).length = heap.length := List.length_modify ..
  have cases {i b : Nat} (link : Link links (heap.modify a change) i b) :
      Link links heap i b ∨ i = a ∧ Closed base opens heap b := by
    obtain ⟨n, found, member⟩ := link
    rw [List.getElem?_modify] at found
    obtain ⟨old, there, same⟩ := Option.map_eq_some_iff.mp found
    by_cases here : a = i
    · subst here
      rw [if_pos rfl] at same
      subst same
      rcases closed old there b member with kept | new
      · exact .inl ⟨old, there, kept⟩
      · exact .inr ⟨rfl, new⟩
    · rw [if_neg here] at same
      subst same
      exact .inl ⟨old, there, member⟩
  refine ⟨length ▸ sound.reserved, fun b member => length ▸ sound.allocated b member, ?_, ?_, ?_⟩
  · intro i n above found
    rw [List.getElem?_modify] at found
    obtain ⟨old, there, same⟩ := Option.map_eq_some_iff.mp found
    have wasGood := sound.good i old above there
    split at same
    · rename_i here
      subst here
      exact same ▸ keeps old there wasGood
    · exact same ▸ wasGood
  · intro i b above link
    rw [length]
    rcases cases link with link | ⟨_, new⟩
    · exact sound.inside i b above link
    · exact new
  · obtain ⟨rank, falls⟩ := sound.ranked
    obtain ⟨top, highest⟩ := exists_above rank heap.length
    -- the object being filled moves above everything, which no pointer to it contradicts
    refine ⟨fun i => if i = a then top else rank i, fun i b above link => ?_⟩
    show (if b = a then top else rank b) < if i = a then top else rank i
    have target : Closed base opens heap b := by
      rcases cases link with link | ⟨_, new⟩
      · exact sound.inside i b above link
      · exact new
    have other : b ≠ a := fun same => target.2.2 (same ▸ isOpen)
    rw [if_neg other]
    split
    · exact highest b target.2.1
    · rename_i elsewhere
      rcases cases link with link | ⟨here, _⟩
      · exact falls i b above link
      · exact absurd here elsewhere

theorem empty_above (heap : List ν) : Sound links good heap.length ∅ heap where
  reserved := Nat.le_refl _
  allocated _ member := absurd member (Set.notMem_empty _)
  good _ _ above found := absurd (List.getElem?_eq_some_iff.mp found).1 (Nat.not_lt.mpr above)
  inside _ _ above := fun ⟨_, found, _⟩ => absurd (List.getElem?_eq_some_iff.mp found).1 (Nat.not_lt.mpr above)
  ranked := ⟨id, fun _ _ above ⟨_, found, _⟩ =>
    absurd (List.getElem?_eq_some_iff.mp found).1 (Nat.not_lt.mpr above)⟩

theorem reach (sound : Sound links good base opens heap) {a b : Nat} (closed : Closed base opens heap a)
    (path : Relation.ReflTransGen (Link links heap) a b) : Closed base opens heap b := by
  induction path with
  | refl => exact closed
  | tail _ link ih => exact sound.closed_of_link ih link

theorem acyclic (sound : Sound links good base opens heap) {a : Nat} (above : base ≤ a) :
    ¬ Relation.TransGen (Link links heap) a a := by
  obtain ⟨rank, falls⟩ := sound.ranked
  have descends {b : Nat} (path : Relation.TransGen (Link links heap) a b) : base ≤ b ∧ rank b < rank a := by
    induction path with
    | single link => exact ⟨(sound.inside _ _ above link).1, falls _ _ above link⟩
    | tail _ link ih => exact ⟨(sound.inside _ _ ih.1 link).1, (falls _ _ ih.1 link).trans ih.2⟩
  intro cycle
  exact Nat.lt_irrefl _ (descends cycle).2

end Sound
end Heap
