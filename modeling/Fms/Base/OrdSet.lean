import Mathlib.Data.List.Sort
import Mathlib.Tactic.Common

/-- A finite set kept in ascending order, so that its least and greatest elements and the
runs inside it can be read off. -/
structure OrdSet (α : Type) [LinearOrder α] where
  elems : List α
  sorted : elems.Pairwise (· < ·)
  deriving DecidableEq

namespace OrdSet
variable {α : Type} [LinearOrder α]

instance : EmptyCollection (OrdSet α) := ⟨⟨[], .nil⟩⟩

instance : Membership α (OrdSet α) := ⟨fun s a => a ∈ s.elems⟩

instance (a : α) (s : OrdSet α) : Decidable (a ∈ s) := inferInstanceAs (Decidable (a ∈ s.elems))

def size (s : OrdSet α) : Nat := s.elems.length

def max? (s : OrdSet α) : Option α := s.elems.getLast?

/-- The part of a set that a sublist of its elements makes up. -/
def restrict (s : OrdSet α) (part : List α) (sub : part.Sublist s.elems) : OrdSet α := ⟨part, s.sorted.sublist sub⟩

def erase (s : OrdSet α) (a : α) : OrdSet α := s.restrict (s.elems.erase a) List.erase_sublist

/-- Put an element at its place in an ascending list. -/
def place (a : α) : List α → List α
  | [] => [a]
  | b :: rest => if a < b then a :: b :: rest else if a = b then b :: rest else b :: place a rest

theorem mem_place {a b : α} {l : List α} : b ∈ place a l ↔ b = a ∨ b ∈ l := by
  induction l with
  | nil => simp [place]
  | cons c rest ih =>
    unfold place
    split
    · simp
    · split
      · rename_i same
        subst same
        simp
      · simp only [List.mem_cons, ih]
        tauto

theorem place_sorted {a : α} {l : List α} (sorted : l.Pairwise (· < ·)) : (place a l).Pairwise (· < ·) := by
  induction l with
  | nil => simp [place]
  | cons c rest ih =>
    obtain ⟨above, later⟩ := List.pairwise_cons.mp sorted
    unfold place
    split
    · rename_i below
      refine List.pairwise_cons.mpr ⟨fun b member => ?_, sorted⟩
      rcases List.mem_cons.mp member with rfl | tail
      · exact below
      · exact below.trans (above b tail)
    · rename_i notBelow
      split
      · exact sorted
      · rename_i different
        refine List.pairwise_cons.mpr ⟨fun b member => ?_, ih later⟩
        rcases mem_place.mp member with rfl | tail
        · exact lt_of_le_of_ne (not_lt.mp notBelow) (Ne.symm different)
        · exact above b tail

theorem place_perm {a : α} {l : List α} (absent : a ∉ l) : (place a l).Perm (a :: l) := by
  induction l with
  | nil => rfl
  | cons c rest ih =>
    simp only [List.mem_cons, not_or] at absent
    unfold place
    split
    · rfl
    · rw [if_neg absent.1]
      exact ((ih absent.2).cons c).trans (.swap a c rest)

def insert (s : OrdSet α) (a : α) : OrdSet α := ⟨place a s.elems, place_sorted s.sorted⟩

@[simp, grind .] theorem notMem_empty (a : α) : a ∉ (∅ : OrdSet α) := List.not_mem_nil

variable {s : OrdSet α}

@[simp, grind =] theorem mem_insert {a b : α} : b ∈ s.insert a ↔ b = a ∨ b ∈ s := mem_place

theorem nodup (s : OrdSet α) : s.elems.Nodup := s.sorted.imp ne_of_lt

@[simp, grind =] theorem mem_erase {a b : α} : b ∈ s.erase a ↔ b ≠ a ∧ b ∈ s :=
  s.nodup.mem_erase_iff

theorem insert_perm {a : α} (absent : a ∉ s) : (s.insert a).elems.Perm (a :: s.elems) :=
  place_perm absent

theorem size_insert {a : α} (absent : a ∉ s) : (s.insert a).size = s.size + 1 :=
  (insert_perm absent).length_eq

theorem size_le_of_subset {s t : OrdSet α} (subset : ∀ a ∈ s, a ∈ t) : s.size ≤ t.size :=
  (List.subperm_of_subset s.nodup subset).length_le

theorem eq_empty_iff : s = ∅ ↔ s.elems = [] := by
  constructor
  · rintro rfl
    rfl
  · intro none
    cases s
    subst none
    rfl

theorem max?_spec {top : α} (max : s.max? = some top) : top ∈ s ∧ ∀ a ∈ s, a ≤ top := by
  obtain ⟨front, split⟩ := List.getLast?_eq_some_iff.mp max
  have sorted := s.sorted
  rw [split, List.pairwise_append] at sorted
  refine ⟨?_, fun a member => ?_⟩
  · show top ∈ s.elems
    simp [split]
  · have inList : a ∈ front ++ [top] := split ▸ member
    rcases List.mem_append.mp inList with before | last
    · exact (sorted.2.2 a before top (by simp)).le
    · exact (List.mem_singleton.mp last).le

theorem max?_eq_none : s.max? = none ↔ s = ∅ := by
  rw [eq_empty_iff, max?, List.getLast?_eq_none_iff]

end OrdSet
