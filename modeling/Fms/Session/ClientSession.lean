import Mathlib.Data.Finset.Card
import Mathlib.Data.List.Iterate

namespace Fms.ClientSession

def eMaxStreams : Nat := 128

-- The ids are numbers of any kind: the channel map needs those of 32 bits, where they can wrap.
variable {ι : Type} [DecidableEq ι] {held next : Finset ι} {id : ι}

/-- The lowest free id, and the ids with it. Of the first numbers, one more than are held, one
is free. -/
def reserveStreamId [One ι] [Add ι] (held : Finset ι) : Option (ι × Finset ι) :=
  if held.card ≥ eMaxStreams then none
  else ((List.iterate (· + 1) 1 (held.card + 1)).find? (· ∉ held)).map fun id => (id, insert id held)

def claimStreamId [Zero ι] (held : Finset ι) (id : ι) : Option (Finset ι) :=
  if id = 0 then none
  else if id ∈ held then some held
  else if held.card ≥ eMaxStreams then none
  else some (insert id held)

def unreserveStreamId (held : Finset ι) (id : ι) : Finset ι := held.erase id

theorem reserveStreamId_eq_some [One ι] [Add ι] (reserved : reserveStreamId held = some (id, next)) :
    held.card < eMaxStreams ∧ id ∈ List.iterate (· + 1) 1 (held.card + 1) ∧ id ∉ held ∧ next = insert id held := by
  unfold reserveStreamId at reserved
  split at reserved
  · cases reserved
  · rename_i few
    obtain ⟨found, search, same⟩ := Option.map_eq_some_iff.mp reserved
    cases same
    exact ⟨not_le.mp few, List.mem_of_find?_eq_some search, by simpa using List.find?_some search, rfl⟩

/-- An id that is claimed is not that of the control stream, and is held from then on. -/
theorem claimStreamId_eq_some [Zero ι] (claimed : claimStreamId held id = some next) :
    id ≠ 0 ∧ next = insert id held := by
  unfold claimStreamId at claimed
  split at claimed
  · cases claimed
  · rename_i named
    refine ⟨named, ?_⟩
    split at claimed
    · rename_i there
      cases claimed
      exact (Finset.insert_eq_of_mem there).symm
    · split at claimed
      · cases claimed
      · cases claimed
        rfl

/-- An id that is held can be claimed again. -/
theorem claimStreamId_of_mem [Zero ι] (named : id ≠ 0) (there : id ∈ held) :
    claimStreamId held id = some held := by
  unfold claimStreamId
  rw [if_neg named, if_pos there]

end Fms.ClientSession
