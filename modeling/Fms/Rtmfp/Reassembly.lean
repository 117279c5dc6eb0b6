import Fms.Rtmfp.Network

namespace Fms.Rtmfp
open ByteWire Segments

variable {data message : Bytes} {csn : Nat} {l rest : List Fragment} {g f : Flow}

def Fragment.part (f : Fragment) : FragCtrl × Bytes := (f.fragCtrl, f.data)

namespace Flow

theorem cutFrom_next (data : Bytes) {cnt todo i : Nat} (ftype : FragCtrl) (clen : Nat)
    (place : i + (todo + 2) = cnt) :
    cutFrom data cnt (todo + 2) i ftype clen =
      (ftype, (data.drop (i * eFragmentMaxSize)).take (clen % 2 ^ 16)) ::
        if todo = 0 then cutFrom data cnt 1 (i + 1) .last (data.length - (i + 1) * eFragmentMaxSize)
        else cutFrom data cnt (todo + 1) (i + 1) .middle clen := by
  rw [cutFrom]
  by_cases last : todo = 0
  · subst last
    rw [if_neg (by omega), if_pos rfl]
  · rw [if_pos (by omega), if_neg last]

/-- A fragment other than the last one. -/
def slice (data : Bytes) (i : Nat) : Bytes := (data.drop (i * eFragmentMaxSize)).take eFragmentMaxSize

theorem cutFrom_eq {cnt todo i : Nat} (place : i + (todo + 1) = cnt) (short : data.length ≤ cnt * eFragmentMaxSize) :
    (if todo = 0 then cutFrom data cnt 1 i .last (data.length - i * eFragmentMaxSize)
      else cutFrom data cnt (todo + 1) i .middle eFragmentMaxSize) =
        ((List.range' i todo).map (slice data)).map (Prod.mk .middle) ++
          [(.last, data.drop ((cnt - 1) * eFragmentMaxSize))] := by
  induction todo generalizing i with
  | zero =>
    obtain rfl : cnt = i + 1 := place.symm
    have size : data.length - i * eFragmentMaxSize ≤ eFragmentMaxSize := by
      rw [Nat.add_mul, Nat.one_mul] at short
      omega
    have fits : (data.length - i * eFragmentMaxSize) % 2 ^ 16 = (data.drop (i * eFragmentMaxSize)).length := by
      rw [List.length_drop]
      exact Nat.mod_eq_of_lt (Nat.lt_of_le_of_lt size (by decide))
    simp only [if_true, cutFrom, fits, List.take_length, ite_self, Nat.add_sub_cancel]
    rfl
  | succ todo ih =>
    rw [if_neg (Nat.succ_ne_zero todo), cutFrom_next data _ _ place, ih (by omega), List.range'_succ]
    rfl

theorem flatten_slices (data : Bytes) (i todo : Nat) :
    ((List.range' i todo).map (slice data)).flatten ++ data.drop ((i + todo) * eFragmentMaxSize) =
      data.drop (i * eFragmentMaxSize) := by
  induction todo generalizing i with
  | zero => rfl
  | succ todo ih =>
    rw [List.range'_succ, List.map_cons, List.flatten_cons, List.append_assoc, Nat.add_comm todo, ← Nat.add_assoc, ih,
      Nat.add_mul, Nat.one_mul, ← List.drop_drop, slice, List.take_append_drop]

/-- The longest message the 16-bit fragment count can describe. -/
def eMaxMessageSize : Nat := 0xFFFF * eFragmentMaxSize

theorem fragmentCount_bounds {len : Nat} (long : eFragmentMaxSize < len) (short : len ≤ eMaxMessageSize) :
    2 ≤ fragmentCount len ∧ len ≤ fragmentCount len * eFragmentMaxSize := by
  simp only [eMaxMessageSize, eFragmentMaxSize] at long short
  simp only [fragmentCount, eFragmentMaxSize]
  omega

theorem cut_splits (short : data.length ≤ eMaxMessageSize) : Splits data (cut data) := by
  unfold cut
  split
  · exact .whole
  · rename_i long
    obtain ⟨two, upper⟩ := fragmentCount_bounds (Nat.lt_of_not_le long) short
    generalize fragmentCount data.length = cnt at two upper
    obtain ⟨todo, rfl⟩ : ∃ todo, cnt = todo + 2 := ⟨cnt - 2, by omega⟩
    have all : data = data.take eFragmentMaxSize ++ ((List.range' 1 todo).map (slice data)).flatten ++
        data.drop ((todo + 1) * eFragmentMaxSize) := by
      rw [List.append_assoc, Nat.add_comm todo, flatten_slices, Nat.one_mul, List.take_append_drop]
    rw [cutFrom_next data _ _ (Nat.zero_add _), cutFrom_eq (by omega) upper, Nat.zero_mul, List.drop_zero]
    exact .pieces all

theorem cut_ne_nil (short : data.length ≤ eMaxMessageSize) : cut data ≠ [] := (cut_splits short).ne_nil

/-- Middle fragments at or below the cumulative number, as the inner loop passes them. -/
def Inner (csn : Nat) (mids : List Fragment) : Prop := ∀ g ∈ mids, g.fragCtrl = .middle ∧ g.seq ≤ csn

theorem Inner.cons {j : Fragment} {mids : List Fragment} (middle : j.fragCtrl = .middle) (low : j.seq ≤ csn)
    (inner : Inner csn mids) : Inner csn (j :: mids) := by
  intro g member
  rcases List.mem_cons.mp member with rfl | tail
  · exact ⟨middle, low⟩
  · exact inner g tail

theorem Inner.parts {mids : List Fragment} (inner : Inner csn mids) :
    mids.map Fragment.part = (mids.map Fragment.data).map (Prod.mk .middle) := by
  rw [List.map_map]
  exact List.map_congr_left fun g member => by simp [Fragment.part, (inner g member).1]

theorem join_complete {passed : Bytes} (found : join csn passed l = .complete message rest) :
    ∃ mids z, l = mids ++ z :: rest ∧ Inner csn mids ∧ z.fragCtrl = .last ∧ z.seq ≤ csn ∧
      message = passed ++ (mids.map Fragment.data).flatten ++ z.data := by
  induction l generalizing passed with
  | nil => cases found
  | cons j l ih =>
    unfold join at found
    split at found
    · rename_i low
      split at found
      · rename_i last
        cases found
        exact ⟨[], j, rfl, fun _ member => (by cases member), last, low, by simp⟩
      · rename_i middle
        obtain ⟨mids, z, rfl, inner, last, below, rfl⟩ := ih found
        exact ⟨j :: mids, z, rfl, inner.cons middle low, last, below, by simp⟩
      · cases found
      · cases found
    · cases found

theorem join_torn {passed : Bytes} (found : join csn passed l = .torn rest) :
    ∃ mids q tail, l = mids ++ q :: tail ∧ rest = q :: tail ∧ Inner csn mids ∧ q.fragCtrl.opens = true ∧
      q.seq ≤ csn := by
  induction l generalizing passed with
  | nil => cases found
  | cons j l ih =>
    unfold join at found
    split at found
    · rename_i low
      split at found
      · cases found
      · rename_i middle
        obtain ⟨mids, q, tail, rfl, rfl, inner, opens, below⟩ := ih found
        exact ⟨j :: mids, q, tail, rfl, rfl, inner.cons middle low, opens, below⟩
      · rename_i whole
        cases found
        exact ⟨[], j, l, rfl, rfl, fun _ member => (by cases member), by rw [whole]; rfl, low⟩
      · rename_i first
        cases found
        exact ⟨[], j, l, rfl, rfl, fun _ member => (by cases member), by rw [first]; rfl, low⟩
    · cases found

/-- Fragments at the front that close a message whose beginning is gone. -/
def Stale (csn : Nat) (stale : List Fragment) : Prop := ∀ g ∈ stale, g.fragCtrl.opens = false ∧ g.seq ≤ csn

theorem Stale.nil (csn : Nat) : Stale csn [] := fun _ member => (by cases member)

theorem Stale.cons {g : Fragment} {stale : List Fragment} (closes : g.fragCtrl.opens = false) (low : g.seq ≤ csn)
    (older : Stale csn stale) : Stale csn (g :: stale) := by
  intro h member
  rcases List.mem_cons.mp member with rfl | tail
  · exact ⟨closes, low⟩
  · exact older h tail

/-- A message at the front of the buffer, behind stale fragments: fragments at or below the
cumulative number whose data, in buffer order, splits it. -/
def AtFront (csn : Nat) (l : List Fragment) (message : Bytes) (rest : List Fragment) : Prop :=
  ∃ stale run, l = stale ++ (run ++ rest) ∧ Stale csn stale ∧ Splits message (run.map Fragment.part) ∧
    ∀ g ∈ run, g.seq ≤ csn

theorem AtFront.behind {g : Fragment} (closes : g.fragCtrl.opens = false) (low : g.seq ≤ csn)
    (front : AtFront csn l message rest) : AtFront csn (g :: l) message rest := by
  obtain ⟨stale, run, rfl, older, splits, below⟩ := front
  exact ⟨g :: stale, run, rfl, older.cons closes low, splits, below⟩

theorem AtFront.of_join {i : Fragment} (first : i.fragCtrl = .first) (low : i.seq ≤ csn)
    (found : join csn i.data l = .complete message rest) : AtFront csn (i :: l) message rest := by
  obtain ⟨mids, z, rfl, inner, last, below, joined⟩ := join_complete found
  refine ⟨[], i :: mids ++ [z], by simp, .nil csn, ?_, fun g member => ?_⟩
  · have parts : (i :: mids ++ [z]).map Fragment.part =
        (.first, i.data) :: (mids.map Fragment.data).map (Prod.mk .middle) ++ [(.last, z.data)] := by
      simp only [List.cons_append, List.map_cons, List.map_append, List.map_nil, inner.parts, Fragment.part,
        first, last]
    rw [parts]
    exact .pieces joined
  · rw [List.cons_append, List.mem_cons, List.mem_append, List.mem_singleton] at member
    rcases member with rfl | middle | rfl
    · exact low
    · exact (inner g middle).2
    · exact below

theorem scan_joined (found : scan csn l = .joined message rest) : AtFront csn l message rest := by
  induction l with
  | nil => cases found
  | cons i l ih =>
    unfold scan at found
    split at found
    · rename_i low
      split at found
      · cases found
      · rename_i last
        exact (ih found).behind (by rw [last]; rfl) low
      · rename_i middle
        exact (ih found).behind (by rw [middle]; rfl) low
      · rename_i first
        split at found
        · rename_i joined
          cases found
          exact .of_join first low joined
        · cases found
        · cases found
    · cases found

theorem scan_whole (found : scan csn l = .whole message rest) : AtFront csn l message (rest.drop 1) := by
  induction l with
  | nil => cases found
  | cons i l ih =>
    unfold scan at found
    split at found
    · rename_i low
      split at found
      · rename_i whole
        cases found
        refine ⟨[], [i], rfl, .nil csn, ?_, fun g member => ?_⟩
        · rw [List.map_singleton, Fragment.part, whole]
          exact .whole
        · rwa [List.mem_singleton.mp member]
      · rename_i last
        exact (ih found).behind (by rw [last]; rfl) low
      · rename_i middle
        exact (ih found).behind (by rw [middle]; rfl) low
      · split at found <;> cases found
    · cases found

/-- A search that finds nothing leaves the buffer alone, unless it starts with a stale
fragment or with a message that another one cuts off. -/
theorem scan_nothing (found : scan csn l = .nothing rest) :
    rest = l ∨ (∃ g tail, l = g :: tail ∧ g.fragCtrl.opens = false ∧ g.seq ≤ csn) ∨
      ∃ i mids q tail, l = i :: mids ++ q :: tail ∧ i.fragCtrl = .first ∧ i.seq ≤ csn ∧ Inner csn mids ∧
        q.fragCtrl.opens = true ∧ q.seq ≤ csn := by
  cases l with
  | nil =>
    cases found
    exact .inl rfl
  | cons i l =>
    unfold scan at found
    split at found
    · rename_i low
      split at found
      · cases found
      · rename_i last
        exact .inr (.inl ⟨i, l, rfl, by rw [last]; rfl, low⟩)
      · rename_i middle
        exact .inr (.inl ⟨i, l, rfl, by rw [middle]; rfl, low⟩)
      · rename_i first
        split at found
        · cases found
        · rename_i torn
          obtain ⟨mids, q, tail, rfl, _, inner, opens, below⟩ := join_torn torn
          exact .inr (.inr ⟨i, mids, q, tail, rfl, first, low, inner, opens, below⟩)
        · cases found
          exact .inl rfl
    · cases found
      exact .inl rfl

/-- Only the buffer and the reassembly fields differ. -/
structure Rebuffered (f g : Flow) : Prop where
  role : g.role = f.role
  state : g.state = f.state
  seqManager : g.seqManager = f.seqManager

theorem messageData_some (found : f.messageData = (some message, g)) :
    AtFront f.seqManager.csn f.fragments.elems message g.removeLastMessage.fragments.elems ∧
      Rebuffered f g.removeLastMessage := by
  unfold messageData at found
  dsimp only at found
  split at found
  · cases found
  · rename_i whole
    cases found
    refine ⟨?_, ⟨rfl, rfl, rfl⟩⟩
    have front := scan_whole whole
    have left := congrArg Ready.rest whole
    rw [Ready.rest] at left
    rw [← left] at front
    exact front
  · rename_i joined
    cases found
    refine ⟨?_, ⟨rfl, rfl, rfl⟩⟩
    have front := scan_joined joined
    have left := congrArg Ready.rest joined
    rw [Ready.rest] at left
    rw [← left] at front
    exact front

theorem messageData_none (found : f.messageData = (none, g)) :
    scan f.seqManager.csn f.fragments.elems = .nothing g.fragments.elems ∧ Rebuffered f g := by
  unfold messageData at found
  dsimp only at found
  split at found
  · rename_i nothing
    cases found
    refine ⟨?_, ⟨rfl, rfl, rfl⟩⟩
    show _ = Ready.nothing (scan f.seqManager.csn f.fragments.elems).rest
    rw [nothing]
    rfl
  · cases found
  · cases found

/-- What every message taken and the last, unsuccessful search keep holds after the loop. -/
theorem takeMessages_rule {I : List Bytes → Flow → Prop}
    (message : ∀ {taken f m g}, f.messageData = (some m, g) → I taken f → I (taken ++ [m]) g.removeLastMessage)
    (nothing : ∀ {taken f g}, f.messageData = (none, g) → I taken f → I taken g) (fuel : Nat) (taken : List Bytes)
    (holds : I taken f) : I (taken ++ (takeMessages fuel f).1) (takeMessages fuel f).2 := by
  induction fuel generalizing taken f with
  | zero =>
    rw [takeMessages, List.append_nil]
    exact holds
  | succ fuel ih =>
    unfold takeMessages
    split
    · rename_i found
      rw [List.append_nil]
      exact nothing found holds
    · rename_i found
      have rest := ih _ (message found holds)
      rwa [List.append_assoc, List.singleton_append] at rest

theorem Rebuffered.trans {h : Flow} (first : Rebuffered f g) (second : Rebuffered g h) : Rebuffered f h :=
  ⟨second.role.trans first.role, second.state.trans first.state, second.seqManager.trans first.seqManager⟩

theorem takeMessages_suffix (fuel : Nat) (f : Flow) :
    (takeMessages fuel f).2.fragments.elems <:+ f.fragments.elems ∧ Rebuffered f (takeMessages fuel f).2 := by
  refine takeMessages_rule (I := fun _ g => g.fragments.elems <:+ f.fragments.elems ∧ Rebuffered f g)
    (fun found holds => ?_) (fun {_ g _} found holds => ?_) fuel [] ⟨List.suffix_refl _, rfl, rfl, rfl⟩
  · obtain ⟨⟨stale, run, buffer, _⟩, same⟩ := messageData_some found
    refine ⟨List.IsSuffix.trans ⟨stale ++ run, ?_⟩ holds.1, holds.2.trans same⟩
    rw [buffer, List.append_assoc]
  · obtain ⟨nothing, same⟩ := messageData_none found
    have suffix := scan_suffix g.seqManager.csn g.fragments.elems
    rw [nothing] at suffix
    exact ⟨List.IsSuffix.trans suffix holds.1, holds.2.trans same⟩

end Flow
end Fms.Rtmfp
