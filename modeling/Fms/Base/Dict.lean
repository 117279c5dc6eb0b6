import Mathlib.Data.List.AList
import Mathlib.Data.List.Sort

/-! Finite maps, as association lists with distinct keys. -/

/-- A finite map in which the order of the entries carries no meaning. -/
abbrev Dict (κ α : Type) := AList fun _ : κ => α

namespace Dict
variable {κ α : Type}

def size (d : Dict κ α) : Nat := d.entries.length

def filterMap (d : Dict κ α) (f : κ → α → Option α) : Dict κ α where
  entries := d.entries.filterMap fun entry => (f entry.1 entry.2).map fun value => ⟨entry.1, value⟩
  nodupKeys := by
    refine List.nodupKeys_iff_pairwise.mpr
      ((List.nodupKeys_iff_pairwise.mp d.nodupKeys).filterMap _ fun first second apart => ?_)
    intro one isOne two isTwo
    obtain ⟨_, _, rfl⟩ := Option.map_eq_some_iff.mp isOne
    obtain ⟨_, _, rfl⟩ := Option.map_eq_some_iff.mp isTwo
    exact apart

/-- The entries in the order of their keys. -/
def ordered [LE κ] [DecidableLE κ] (d : Dict κ α) : List ((_ : κ) × α) :=
  d.entries.insertionSort fun first second => first.1 ≤ second.1

theorem ordered_perm [LE κ] [DecidableLE κ] (d : Dict κ α) : d.ordered.Perm d.entries := List.perm_insertionSort ..

theorem length_ordered [LE κ] [DecidableLE κ] (d : Dict κ α) : d.ordered.length = d.size := d.ordered_perm.length_eq

def count (d : Dict κ α) (test : α → Bool) : Nat := d.entries.countP fun entry => test entry.2

theorem length_keys (d : Dict κ α) : d.keys.length = d.size := List.length_map ..

variable {f : κ → α → Option α}

theorem count_filterMap {d : Dict κ α} {test : α → Bool} (now : α → Bool)
    (becomes : ∀ k a, ((f k a).elim false test) = now a) : (d.filterMap f).count test = d.count now := by
  have entries (l : List ((_ : κ) × α)) :
      (l.filterMap fun entry => (f entry.1 entry.2).map fun value => (⟨entry.1, value⟩ : (_ : κ) × α)).countP
        (fun entry => test entry.2) = l.countP fun entry => now entry.2 := by
    induction l with
    | nil => rfl
    | cons entry rest ih =>
      have here := becomes entry.1 entry.2
      rw [List.filterMap_cons, List.countP_cons, ← ih, ← here]
      cases f entry.1 entry.2 with
      | none => simp
      | some value =>
        rw [Option.map_some, Option.elim_some]
        exact List.countP_cons
  exact entries d.entries

theorem size_filterMap_le {d : Dict κ α} : (d.filterMap f).size ≤ d.size :=
  List.length_filterMap_le _ _

variable [DecidableEq κ] {d : Dict κ α} {k : κ} {a : α}

@[grind =] theorem lookup_filterMap : (d.filterMap f).lookup k = (d.lookup k).bind (f k) := by
  ext value
  rw [← Option.mem_def, AList.mem_lookup_iff, Option.bind_eq_some_iff]
  constructor
  · intro member
    obtain ⟨⟨key, old⟩, inside, becomes⟩ := List.mem_filterMap.mp member
    obtain ⟨new, changed, same⟩ := Option.map_eq_some_iff.mp becomes
    cases same
    exact ⟨old, AList.mem_lookup_iff.mpr inside, changed⟩
  · rintro ⟨old, found, changed⟩
    exact List.mem_filterMap.mpr ⟨⟨k, old⟩, AList.mem_lookup_iff.mp found, by simp [changed]⟩

theorem eq_empty (nothing : ∀ k, d.lookup k = none) : d = ∅ := by
  refine AList.ext (List.eq_nil_iff_forall_not_mem.mpr fun entry member => ?_)
  cases (nothing entry.1).symm.trans (AList.mem_lookup_iff.mpr member)

theorem size_insert_mem (member : k ∈ d) : Dict.size (d.insert k a) = d.size := by
  have positive : 0 < d.keys.length := List.length_pos_of_mem member
  rw [← length_keys, AList.keys_insert, List.length_cons, List.length_erase_of_mem member, ← length_keys]
  omega

theorem size_insert_le : Dict.size (d.insert k a) ≤ d.size + 1 := by
  rw [← length_keys, AList.keys_insert, List.length_cons, ← length_keys]
  exact Nat.succ_le_succ List.length_erase_le

theorem size_erase_mem (member : k ∈ d) : Dict.size (d.erase k) + 1 = d.size := by
  have positive : 0 < d.keys.length := List.length_pos_of_mem member
  rw [← length_keys, AList.keys_erase, List.length_erase_of_mem member, ← length_keys]
  omega

theorem size_erase_le : Dict.size (d.erase k) ≤ d.size := by
  rw [← length_keys, AList.keys_erase, ← length_keys]
  exact List.length_erase_le

@[grind =] theorem lookup_insert_if {key : κ} :
    (d.insert key a).lookup k = if k = key then some a else d.lookup k := by
  split
  · rename_i same
    subst same
    exact AList.lookup_insert d
  · rename_i apart
    exact AList.lookup_insert_ne apart

@[grind =] theorem lookup_erase_if {key : κ} : (d.erase key).lookup k = if k = key then none else d.lookup k := by
  split
  · rename_i same
    subst same
    exact AList.lookup_erase k d
  · rename_i apart
    exact AList.lookup_erase_ne apart

theorem entries_perm (found : d.lookup k = some a) : d.entries.Perm (⟨k, a⟩ :: (d.erase k).entries) := by
  have member : k ∈ d := AList.lookup_isSome.mp (found ▸ rfl)
  obtain ⟨b, before, after, absent, split, rest⟩ := List.exists_of_kerase (AList.mem_keys.mp member)
  have there : d.lookup k = some b := by
    refine AList.mem_lookup_iff.mpr ?_
    rw [split]
    simp
  cases found.symm.trans there
  rw [split, show (d.erase k).entries = before ++ after from rest]
  exact List.perm_middle

theorem count_erase (test : α → Bool) :
    Dict.count (d.erase k) test + ((d.lookup k).elim 0 fun a => (test a).toNat) = d.count test := by
  cases found : d.lookup k with
  | some a =>
    rw [count, count, (entries_perm found).countP_eq, List.countP_cons, Option.elim_some]
    cases test a <;> rfl
  | none =>
    have same : d.erase k = d := AList.ext (List.kerase_of_notMem_keys (AList.lookup_eq_none.mp found))
    rw [same, Option.elim_none, Nat.add_zero]

theorem count_insert (test : α → Bool) :
    Dict.count (d.insert k a) test = Dict.count (d.erase k) test + (test a).toNat := by
  rw [count, AList.entries_insert, List.countP_cons]
  cases test a <;> rfl

end Dict
