import Mathlib.Data.List.Sort
import Mathlib.Tactic.Common

theorem SortedBy.sorted_nil {α κ : Type} [LinearOrder κ]
    (key : α → κ) : ([] : List α).Pairwise (key · < key ·) := .nil

/-- A finite map whose entries hold their own keys, in ascending order of the keys. -/
@[ext] structure SortedBy {α κ : Type} [LinearOrder κ] (key : α → κ) where
  elems : List α := []
  sorted : elems.Pairwise (key · < key ·) := by exact SortedBy.sorted_nil _

namespace SortedBy
variable {α κ : Type} [LinearOrder κ] {key : α → κ}

instance : Membership α (SortedBy key) := ⟨fun s a => a ∈ s.elems⟩

def size (s : SortedBy key) : Nat := s.elems.length

def restrict (s : SortedBy key) (part : List α) (sub : part.Sublist s.elems) : SortedBy key :=
  ⟨part, s.sorted.sublist sub⟩

def filter (s : SortedBy key) (p : α → Bool) : SortedBy key := s.restrict (s.elems.filter p) List.filter_sublist

def relabel (s : SortedBy key) (other : List α) (same : other.map key = s.elems.map key) : SortedBy key :=
  ⟨other, by
    have keys := List.pairwise_map.mpr s.sorted
    rw [← same] at keys
    exact List.pairwise_map.mp keys⟩

def update (s : SortedBy key) (f : α → α) (same : ∀ a, key (f a) = key a) : SortedBy key :=
  s.relabel (s.elems.map f) (by simp [same])

variable (key) in
/-- Put an entry in its place, or in place of the one with its key. -/
def place (a : α) : List α → List α
  | [] => [a]
  | b :: rest =>
    if key a < key b then a :: b :: rest else if key a = key b then a :: rest else b :: place a rest

variable {l : List α}

theorem mem_place {a b : α} (sorted : l.Pairwise (key · < key ·)) :
    b ∈ place key a l ↔ b = a ∨ b ∈ l ∧ key b ≠ key a := by
  induction l with
  | nil => simp [place]
  | cons c rest ih =>
    obtain ⟨higher, later⟩ := List.pairwise_cons.mp sorted
    unfold place
    split
    · rename_i below
      have apart (b : α) (member : b ∈ c :: rest) : key b ≠ key a := by
        rcases List.mem_cons.mp member with rfl | tail
        · exact below.ne'
        · exact (below.trans (higher b tail)).ne'
      grind
    · split
      · rename_i same
        have apart (b : α) (member : b ∈ rest) : key b ≠ key a := same ▸ (higher b member).ne'
        grind
      · rename_i different
        rw [List.mem_cons, ih later, List.mem_cons]
        grind

variable {a : α}

theorem place_sorted (sorted : l.Pairwise (key · < key ·)) :
    (place key a l).Pairwise (key · < key ·) := by
  induction l with
  | nil => simp [place]
  | cons c rest ih =>
    obtain ⟨higher, later⟩ := List.pairwise_cons.mp sorted
    unfold place
    split
    · rename_i below
      refine List.pairwise_cons.mpr ⟨fun b member => ?_, sorted⟩
      rcases List.mem_cons.mp member with rfl | tail
      · exact below
      · exact below.trans (higher b tail)
    · rename_i notBelow
      split
      · rename_i same
        exact List.pairwise_cons.mpr ⟨fun b member => same ▸ higher b member, later⟩
      · rename_i different
        refine List.pairwise_cons.mpr ⟨fun b member => ?_, ih later⟩
        rcases (mem_place later).mp member with rfl | ⟨tail, _⟩
        · exact lt_of_le_of_ne (not_lt.mp notBelow) (Ne.symm different)
        · exact higher b tail

def assign (s : SortedBy key) (a : α) : SortedBy key := ⟨place key a s.elems, place_sorted s.sorted⟩

theorem place_last (below : ∀ b ∈ l, key b < key a) : place key a l = l ++ [a] := by
  induction l with
  | nil => rfl
  | cons c rest ih =>
    have less := below c (List.mem_cons_self ..)
    rw [place, if_neg less.asymm, if_neg less.ne', ih fun b member => below b (List.mem_cons_of_mem _ member),
      List.cons_append]

variable {s : SortedBy key}

theorem mem_filter {p : α → Bool} : a ∈ s.filter p ↔ a ∈ s ∧ p a = true :=
  List.mem_filter

theorem mem_update {f : α → α} (same : ∀ a, key (f a) = key a) {b : α} :
    b ∈ s.update f same ↔ ∃ a ∈ s, f a = b :=
  List.mem_map

theorem mem_assign {a b : α} : b ∈ s.assign a ↔ b = a ∨ b ∈ s ∧ key b ≠ key a :=
  mem_place s.sorted

theorem forall_assign {P : α → Prop} (all : ∀ b ∈ s, P b) (new : P a) :
    ∀ b ∈ s.assign a, P b := by
  intro b member
  rcases mem_assign.mp member with rfl | ⟨old, _⟩
  · exact new
  · exact all b old

theorem eq_of_key {a b : α} (left : a ∈ s) (right : b ∈ s) (same : key a = key b) : a = b := by
  have distinct : (s.elems.map key).Nodup := (List.pairwise_map.mpr s.sorted).imp fun less => less.ne
  exact List.inj_on_of_nodup_map distinct left right same

theorem place_present {a old : α} (sorted : l.Pairwise (key · < key ·)) (member : old ∈ l)
    (same : key old = key a) : ∃ before after, l = before ++ old :: after ∧ place key a l = before ++ a :: after := by
  induction l with
  | nil => cases member
  | cons b rest ih =>
    obtain ⟨above, later⟩ := List.pairwise_cons.mp sorted
    rcases List.mem_cons.mp member with rfl | behind
    · refine ⟨[], rest, rfl, ?_⟩
      rw [place, if_neg (by rw [same]; exact lt_irrefl _), if_pos same.symm]
      rfl
    · have less : key b < key a := same ▸ above old behind
      obtain ⟨before, after, whole, placed⟩ := ih later behind
      refine ⟨b :: before, after, by rw [whole, List.cons_append], ?_⟩
      rw [place, if_neg less.asymm, if_neg less.ne', placed, List.cons_append]

theorem place_absent (absent : ∀ b ∈ l, key b ≠ key a) :
    ∃ before after, l = before ++ after ∧ place key a l = before ++ a :: after := by
  induction l with
  | nil => exact ⟨[], [], rfl, rfl⟩
  | cons b rest ih =>
    obtain ⟨other, others⟩ := List.forall_mem_cons.mp absent
    by_cases less : key a < key b
    · exact ⟨[], b :: rest, rfl, by rw [place, if_pos less, List.nil_append]⟩
    · obtain ⟨before, after, whole, placed⟩ := ih others
      refine ⟨b :: before, after, by rw [whole, List.cons_append], ?_⟩
      rw [place, if_neg less, if_neg (Ne.symm other), placed, List.cons_append]

theorem assign_present {a old : α} (member : old ∈ s) (same : key old = key a) :
    ∃ before after, s.elems = before ++ old :: after ∧ (s.assign a).elems = before ++ a :: after :=
  place_present s.sorted member same

theorem assign_absent (absent : ∀ b ∈ s, key b ≠ key a) :
    ∃ before after, s.elems = before ++ after ∧ (s.assign a).elems = before ++ a :: after :=
  place_absent absent

end SortedBy
