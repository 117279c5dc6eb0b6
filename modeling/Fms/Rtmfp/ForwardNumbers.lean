import Fms.Rtmfp.Queueing

namespace Fms.Rtmfp
open ByteWire

/-- The same fragment later on: it stays abandoned, and once its receiver was told so it does not
fly without having been told. -/
structure Fragment.Later (a b : Fragment) : Prop where
  seq : b.seq = a.seq
  abandoned : a.abandoned = true → b.abandoned = true
  told : a.abandoned = true → (a.inFlight = true → a.sentAbandoned = true) → b.inFlight = true →
    b.sentAbandoned = true

theorem Fragment.Later.refl (a : Fragment) : a.Later a := ⟨rfl, id, fun _ told => told⟩

theorem Fragment.Later.trans {a b c : Fragment} (first : a.Later b) (second : b.Later c) : a.Later c where
  seq := second.seq.trans first.seq
  abandoned marked := second.abandoned (first.abandoned marked)
  told marked told := second.told (first.abandoned marked) (first.told marked told)

namespace Flow

/-- What an operation does to the fragments of a sending flow: those it leaves are earlier ones or
newly numbered, and those it takes away are `lost`. -/
structure Moves (lost : Fragment → Prop) (f g : Flow) : Prop where
  role : g.role = f.role
  next : f.nextSn ≤ g.nextSn
  origin : ∀ b ∈ g.fragments, f.nextSn ≤ b.seq ∧ b.seq < g.nextSn ∨ ∃ a ∈ f.fragments, a.Later b
  survives : ∀ a ∈ f.fragments, (∃ b ∈ g.fragments, b.seq = a.seq) ∨ lost a

variable {lost : Fragment → Prop} {f g h : Flow}

theorem Moves.refl (f : Flow) : Moves (fun _ => False) f f :=
  ⟨rfl, Nat.le_refl _, fun b member => .inr ⟨b, member, .refl b⟩, fun a member => .inl ⟨a, member, rfl⟩⟩

theorem Moves.trans (first : Moves lost f g) (second : Moves (fun _ => False) g h) : Moves lost f h where
  role := second.role.trans first.role
  next := first.next.trans second.next
  origin c member := by
    have later := second.next
    rcases second.origin c member with ⟨low, high⟩ | ⟨b, inside, kept⟩
    · exact .inl ⟨first.next.trans low, high⟩
    · rcases first.origin b inside with ⟨low, high⟩ | ⟨a, old, before⟩
      · have same := kept.seq
        exact .inl ⟨by omega, by omega⟩
      · exact .inr ⟨a, old, before.trans kept⟩
  survives a member := by
    rcases first.survives a member with ⟨b, inside, same⟩ | gone
    · rcases second.survives b inside with ⟨c, left, level⟩ | none
      · exact .inl ⟨c, left, level.trans same⟩
      · exact none.elim
    · exact .inr gone

theorem moves_update {φ : Fragment → Fragment} (same : ∀ a, (φ a).seq = a.seq)
    (later : ∀ a ∈ f.fragments, a.Later (φ a)) :
    Moves (fun _ => False) f { f with fragments := f.fragments.update φ same } where
  role := rfl
  next := Nat.le_refl _
  origin b member := by
    obtain ⟨a, inside, rfl⟩ := (SortedBy.mem_update same).mp member
    exact .inr ⟨a, inside, later a inside⟩
  survives a member := .inl ⟨φ a, (SortedBy.mem_update same).mpr ⟨a, member, rfl⟩, same a⟩

theorem moves_enqueue (sender : f.role = .sender) (part : FragCtrl × Bytes) :
    Moves (fun _ => False) f (f.enqueue part) := by
  have added := { f with nextSn := f.nextSn + 1 }.added { seq := f.nextSn, data := part.2, fragCtrl := part.1 }
  unfold enqueue
  dsimp only
  generalize (Flow.addFragment _ _).1 = g at added
  cases added with
  | refused => exact ⟨rfl, Nat.le_succ _, fun b member => .inr ⟨b, member, .refl b⟩, (Moves.refl f).survives⟩
  | rejected _ receiver => cases sender.symm.trans receiver
  | duplicate => exact ⟨rfl, Nat.le_succ _, fun b member => .inr ⟨b, member, .refl b⟩, (Moves.refl f).survives⟩
  | stored =>
    refine ⟨rfl, Nat.le_succ _, fun b member => ?_, fun a member => ?_⟩
    · rcases SortedBy.mem_assign.mp member with rfl | ⟨old, _⟩
      · exact .inl ⟨Nat.le_refl _, Nat.lt_succ_self _⟩
      · exact .inr ⟨b, old, .refl b⟩
    · by_cases same : a.seq = f.nextSn
      · exact .inl ⟨_, SortedBy.mem_assign.mpr (.inl rfl), same.symm⟩
      · exact .inl ⟨a, SortedBy.mem_assign.mpr (.inr ⟨member, same⟩), rfl⟩

theorem moves_enqueues (sender : f.role = .sender) (parts : List (FragCtrl × Bytes)) :
    Moves (fun _ => False) f (parts.foldl enqueue f) := by
  induction parts generalizing f with
  | nil => exact .refl f
  | cons part parts ih =>
    have first := moves_enqueue sender part
    exact first.trans (ih (first.role.trans sender))

theorem moves_abandonStaleFragments (f : Flow) : Moves (fun _ => False) f f.abandonStaleFragments := by
  unfold abandonStaleFragments
  split
  · exact .refl f
  · refine ⟨rfl, Nat.le_refl _, fun b member => ?_, fun a member => ?_⟩
    · change b ∈ abandonFrom _ _ _ at member
      rw [abandonFrom_eq] at member
      rcases List.mem_append.mp member with marked | kept
      · obtain ⟨a, inside, rfl⟩ := List.mem_map.mp marked
        exact .inr ⟨a, List.mem_of_mem_take inside, rfl, fun _ => rfl, fun _ told => told⟩
      · exact .inr ⟨b, List.mem_of_mem_drop kept, .refl b⟩
    · have numbered := List.mem_map_of_mem (f := Fragment.seq) member
      rw [← abandonFrom_seq (f.fragments.size - eMaxUnackedFragments) 0] at numbered
      exact .inl (List.mem_map.mp numbered)

theorem moves_eraseAcked (f : Flow) (acked : Fragment → Bool) : Moves (fun _ => True) f (f.eraseAcked acked).1 :=
  ⟨rfl, Nat.le_refl _, fun b member => .inr ⟨b, (SortedBy.mem_filter.mp member).1, .refl b⟩, fun _ _ => .inr trivial⟩

theorem moves_updateNakCount (f : Flow) (maxTsn : Nat) : Moves (fun _ => False) f (f.updateNakCount maxTsn) := by
  refine moves_update _ fun a _ => ?_
  split
  · rename_i late
    exact ⟨rfl, id, fun _ told _ => told (Bool.and_elim_left late)⟩
  · exact .refl a

theorem moves_onTimeoutAlarm (f : Flow) : Moves (fun _ => False) f f.onTimeoutAlarm :=
  moves_update (φ := fun a => { a with inFlight := false }) (fun _ => rfl)
    fun _ _ => ⟨rfl, id, fun _ _ flying => by cases flying⟩

theorem dropAbandoned_lost (size : Nat) {l : List Fragment} {a : Fragment} (member : a ∈ l) :
    a ∈ dropAbandoned size l ∨ a.abandoned = true := by
  induction l generalizing size with
  | nil => cases member
  | cons i rest ih =>
    rw [dropAbandoned]
    rcases List.mem_cons.mp member with rfl | later
    · split
      · split
        · rename_i stale
          exact .inr (Bool.and_elim_right stale)
        · exact .inl List.mem_cons_self
      · exact .inl List.mem_cons_self
    · split
      · split
        · exact ih _ later
        · exact (ih _ later).imp_left (List.mem_cons_of_mem _)
      · exact .inl (List.mem_cons_of_mem _ later)

theorem moves_getFragmentForSending (f : Flow) : Moves (fun a => a.abandoned = true) f f.getFragmentForSending.2 := by
  have left := f.getFragmentForSending_elems
  have follows := f.getFragmentForSending_follows
  refine ⟨follows.role, follows.nextSn.ge, fun b member => ?_, fun a member => ?_⟩
  · change b ∈ f.getFragmentForSending.2.fragments.elems at member
    rw [left] at member
    exact .inr ⟨b, (dropAbandoned_sublist _ _).subset member, .refl b⟩
  · refine (dropAbandoned_lost f.fragments.size member).imp_left fun kept => ⟨a, ?_, rfl⟩
    change a ∈ f.getFragmentForSending.2.fragments.elems
    rwa [left]

theorem moves_sent (f : Flow) (tsn : Nat) :
    Moves (fun _ => False) f.getFragmentForSending.2 (f.sendFragment tsn).2 := by
  unfold sendFragment
  split
  · rename_i found
    rw [found]
    exact .refl _
  · rename_i found
    rw [found]
    refine moves_update _ fun a _ => ?_
    split
    · exact ⟨rfl, id, fun marked _ _ => marked⟩
    · exact .refl a

theorem moves_sendFragment (f : Flow) (tsn : Nat) : Moves (fun a => a.abandoned = true) f (f.sendFragment tsn).2 :=
  f.moves_getFragmentForSending.trans (f.moves_sent tsn)

end Flow

/-- A chunk that went out, with what was acknowledged and abandoned by then. -/
structure Emission where
  seqNumber : Nat
  fsn : Nat
  acked : List Nat
  abandoned : List Nat

/-- A sending flow with the numbers that acknowledgements removed, that were marked abandoned and that
were buffered so far, and the chunks it sent. -/
structure WatchedFlow where
  flow : Flow
  acked : List Nat := []
  abandoned : List Nat := []
  buffered : List Nat := []
  emitted : List Emission := []

inductive FlowMove
  | queue (data : Bytes)
  | use (usage : Usage)
  | abandon
  | look
  | send (tsn : Nat)
  | ackUntil (seq : Nat)
  | ackRange (first last : Nat)
  | nak (maxTsn : Nat)
  | timeout

def gone (f g : Flow) : List Nat :=
  (f.fragments.elems.filter fun a => g.fragments.elems.all fun b => b.seq ≠ a.seq).map Fragment.seq

namespace WatchedFlow

def fresh (usage : Usage) : WatchedFlow := { flow := { role := .sender, usage } }

def observe (s : WatchedFlow) (g : Flow) (acked : List Nat) : WatchedFlow :=
  { s with
    flow := g
    acked := s.acked ++ acked
    abandoned := s.abandoned ++ (g.fragments.elems.filter Fragment.abandoned).map Fragment.seq
    buffered := s.buffered ++ g.fragments.elems.map Fragment.seq }

def step (s : WatchedFlow) : FlowMove → WatchedFlow
  | .queue data => s.observe (s.flow.addAndFragmentData data) []
  | .use usage => s.observe { s.flow with usage } []
  | .abandon => s.observe s.flow.abandonStaleFragments []
  | .look => s.observe s.flow.getFragmentForSending.2 []
  | .send tsn =>
    let sent := s.observe (s.flow.sendFragment tsn).2 []
    match s.flow.getFragmentForSending.1 with
    | none => sent
    | some (frag, fsn) => { sent with emitted := s.emitted ++ [⟨frag.seq, fsn, s.acked, s.abandoned⟩] }
  | .ackUntil seq => s.observe (s.flow.ackFragmentsUntil seq).1 (gone s.flow (s.flow.ackFragmentsUntil seq).1)
  | .ackRange first last =>
    s.observe (s.flow.ackFragmentsForRange first last).1 (gone s.flow (s.flow.ackFragmentsForRange first last).1)
  | .nak maxTsn => s.observe (s.flow.updateNakCount maxTsn) []
  | .timeout => s.observe s.flow.onTimeoutAlarm []

def run (usage : Usage) (moves : List FlowMove) : WatchedFlow := moves.foldl step (fresh usage)

/-- No fragment lies below a number that was told to the receiver, and one that has it was told to be
abandoned. -/
def Floor (fsn : Nat) (f : Flow) : Prop :=
  ∀ g ∈ f.fragments, fsn ≤ g.seq ∧
    (g.seq = fsn → g.abandoned = true ∧ (g.inFlight = true → g.sentAbandoned = true))

/-- What an emitted number says is so, and it stays behind what the flow still holds. -/
structure Emission.Truthful (e : Emission) (s : WatchedFlow) : Prop where
  own : e.fsn ≤ e.seqNumber
  told : ∀ n ≤ e.fsn, n ∈ e.acked ∨ n ∈ e.abandoned ∨ n ∉ s.buffered
  behind : e.fsn < s.flow.nextSn
  floor : Floor e.fsn s.flow

structure Truthful (s : WatchedFlow) : Prop where
  sender : s.flow.role = .sender
  first : 1 ≤ s.flow.nextSn
  inside : ∀ g ∈ s.flow.fragments, 1 ≤ g.seq ∧ g.seq < s.flow.nextSn
  listed : ∀ g ∈ s.flow.fragments, g.seq ∈ s.buffered
  accounted : ∀ n ∈ s.buffered, n ∈ s.acked ∨ n ∈ s.abandoned ∨ ∃ g ∈ s.flow.fragments, g.seq = n
  marks : ∀ g ∈ s.flow.fragments, g.abandoned = true → g.seq ∈ s.abandoned
  emissions : ∀ e ∈ s.emitted, Emission.Truthful e s
  ordered : s.emitted.Pairwise (·.fsn ≤ ·.fsn)

variable {s : WatchedFlow} {g : Flow} {lost : Fragment → Prop}

theorem Floor.moves {fsn : Nat} {f : Flow} (floor : Floor fsn f) (behind : fsn < f.nextSn)
    (moves : Flow.Moves lost f g) :
    Floor fsn g := by
  intro b member
  rcases moves.origin b member with ⟨new, _⟩ | ⟨a, old, later⟩
  · exact ⟨by omega, fun same => by omega⟩
  · obtain ⟨above, told⟩ := floor a old
    rw [later.seq]
    refine ⟨above, fun same => ?_⟩
    obtain ⟨marked, flag⟩ := told same
    exact ⟨later.abandoned marked, later.told marked flag⟩

theorem Emission.Truthful.moves {e : Emission} (truthful : Emission.Truthful e s) (moves : Flow.Moves lost s.flow g)
    (listed : ∀ g ∈ s.flow.fragments, g.seq ∈ s.buffered) (acked : List Nat) :
    Emission.Truthful e (s.observe g acked) where
  own := truthful.own
  told n low := by
    refine (truthful.told n low).imp_right (Or.imp_right fun absent member => ?_)
    rcases List.mem_append.mp member with before | now
    · exact absent before
    · obtain ⟨b, inside, rfl⟩ := List.mem_map.mp now
      rcases moves.origin b inside with ⟨new, _⟩ | ⟨a, old, later⟩
      · have := truthful.behind
        omega
      · exact absent (later.seq ▸ listed a old)
  behind := truthful.behind.trans_le moves.next
  floor := truthful.floor.moves truthful.behind moves

theorem Truthful.observe (truthful : s.Truthful) (moves : Flow.Moves lost s.flow g) {acked : List Nat}
    (taken : ∀ a ∈ s.flow.fragments, lost a → a.abandoned = true ∨ a.seq ∈ acked ∨ ∃ b ∈ g.fragments, b.seq = a.seq) :
    (s.observe g acked).Truthful where
  sender := moves.role.trans truthful.sender
  first := truthful.first.trans moves.next
  inside b member := by
    have first := truthful.first
    have next := moves.next
    show 1 ≤ b.seq ∧ b.seq < g.nextSn
    rcases moves.origin b member with ⟨low, high⟩ | ⟨a, old, later⟩
    · exact ⟨by omega, high⟩
    · have inside := truthful.inside a old
      rw [later.seq]
      exact ⟨inside.1, by omega⟩
  listed b member := List.mem_append_right _ (List.mem_map_of_mem member)
  accounted n member := by
    rcases List.mem_append.mp member with before | now
    · rcases truthful.accounted n before with known | marked | ⟨a, old, rfl⟩
      · exact .inl (List.mem_append_left _ known)
      · exact .inr (.inl (List.mem_append_left _ marked))
      · rcases moves.survives a old with kept | away
        · exact .inr (.inr kept)
        · rcases taken a old away with marked | known | kept
          · exact .inr (.inl (List.mem_append_left _ (truthful.marks a old marked)))
          · exact .inl (List.mem_append_right _ known)
          · exact .inr (.inr kept)
    · exact .inr (.inr (List.mem_map.mp now))
  marks b member marked :=
    List.mem_append_right _ (List.mem_map_of_mem (List.mem_filter.mpr ⟨member, marked⟩))
  emissions e member := (truthful.emissions e member).moves moves truthful.listed acked
  ordered := truthful.ordered

/-- The next number is not below one that was told before. -/
theorem Floor.le_forwardSn {fsn : Nat} {f : Flow} (floor : Floor fsn f) {oldest : Fragment}
    (member : oldest ∈ f.fragments) :
    fsn ≤ Flow.forwardSn oldest := by
  obtain ⟨above, told⟩ := floor oldest member
  unfold Flow.forwardSn
  split
  · rename_i kept
    have higher : oldest.seq ≠ fsn := fun same => by
      rw [(told same).1] at kept
      cases kept
    omega
  · split
    · rename_i untold
      have higher : oldest.seq ≠ fsn := fun same => by
        rw [Bool.and_eq_true] at untold
        rw [(told same).2 untold.1] at untold
        cases untold.2
      omega
    · exact above

/-- A forward number that reaches its fragment says that the fragment is abandoned. -/
theorem forwardSn_eq {oldest : Fragment} (positive : 1 ≤ oldest.seq) (reached : Flow.forwardSn oldest = oldest.seq) :
    oldest.abandoned = true ∧ (oldest.inFlight = true → oldest.sentAbandoned = true) := by
  unfold Flow.forwardSn at reached
  split at reached
  · omega
  · rename_i marked
    split at reached
    · omega
    · rename_i told
      refine ⟨by simpa using marked, fun flying => ?_⟩
      simpa [flying] using told

section
variable {frag oldest : Fragment} {rest : List Fragment}

theorem oldest_le (left : Flow.dropAbandoned s.flow.fragments.size s.flow.fragments.elems = oldest :: rest)
    {a : Fragment} (member : a ∈ oldest :: rest) : oldest.seq ≤ a.seq := by
  have sorted := s.flow.fragments.sorted.sublist (left ▸ Flow.dropAbandoned_sublist _ _)
  rcases List.mem_cons.mp member with rfl | later
  · exact Nat.le_refl _
  · exact Nat.le_of_lt ((List.pairwise_cons.mp sorted).1 a later)

/-- Everything up to the forward number is acknowledged, abandoned or was never buffered. -/
theorem Truthful.forwardSn_told (truthful : s.Truthful)
    (left : Flow.dropAbandoned s.flow.fragments.size s.flow.fragments.elems = oldest :: rest) {n : Nat}
    (low : n ≤ Flow.forwardSn oldest) (buffered : n ∈ s.buffered) : n ∈ s.acked ∨ n ∈ s.abandoned := by
  have old : oldest ∈ s.flow.fragments := (Flow.dropAbandoned_sublist _ _).subset (left ▸ List.mem_cons_self)
  rcases truthful.accounted n buffered with known | marked | ⟨a, member, rfl⟩
  · exact .inl known
  · exact .inr marked
  · refine .inr (truthful.marks a member ?_)
    rcases Flow.dropAbandoned_lost s.flow.fragments.size member with kept | marked
    · rw [left] at kept
      have above := oldest_le left kept
      have reach := Flow.forwardSn_le oldest
      have level : a.seq = oldest.seq := by omega
      rw [SortedBy.eq_of_key member old level]
      exact (forwardSn_eq (truthful.inside oldest old).1 (by omega)).1
    · exact marked

theorem Truthful.floor (truthful : s.Truthful)
    (left : Flow.dropAbandoned s.flow.fragments.size s.flow.fragments.elems = oldest :: rest) :
    Floor (Flow.forwardSn oldest) s.flow.getFragmentForSending.2 := by
  intro a member
  change a ∈ s.flow.getFragmentForSending.2.fragments.elems at member
  rw [Flow.getFragmentForSending_elems, left] at member
  have above := oldest_le left member
  have reach := Flow.forwardSn_le oldest
  refine ⟨by omega, fun same => ?_⟩
  have old {b : Fragment} (inside : b ∈ oldest :: rest) : b ∈ s.flow.fragments :=
    (Flow.dropAbandoned_sublist _ _).subset (left ▸ inside)
  have level : a.seq = oldest.seq := by omega
  rw [SortedBy.eq_of_key (old member) (old List.mem_cons_self) level]
  exact forwardSn_eq (truthful.inside oldest (old List.mem_cons_self)).1 (by omega)

theorem Truthful.send (truthful : s.Truthful) (tsn : Nat) : (s.step (.send tsn)).Truthful := by
  have moves := s.flow.moves_sendFragment tsn
  have sent : (s.observe (s.flow.sendFragment tsn).2 []).Truthful :=
    truthful.observe moves fun a _ marked => .inl marked
  rw [step]
  split
  · exact sent
  · rename_i frag fsn found
    obtain ⟨oldest, rest, left, picked, rfl⟩ := Flow.getFragmentForSending_some found
    have looked := s.flow.moves_getFragmentForSending
    have old : oldest ∈ s.flow.fragments := (Flow.dropAbandoned_sublist _ _).subset (left ▸ List.mem_cons_self)
    have reach := Flow.forwardSn_le oldest
    have inside := truthful.inside oldest old
    have behind : Flow.forwardSn oldest < s.flow.nextSn := by omega
    have stays : oldest ∈ s.flow.getFragmentForSending.2.fragments := by
      show oldest ∈ s.flow.getFragmentForSending.2.fragments.elems
      rw [Flow.getFragmentForSending_elems, left]
      exact List.mem_cons_self
    have emission : Emission.Truthful ⟨frag.seq, Flow.forwardSn oldest, s.acked, s.abandoned⟩
        (s.observe (s.flow.sendFragment tsn).2 []) := by
      refine ⟨reach.trans (oldest_le left picked), fun n low => ?_, behind.trans_le moves.next,
        (truthful.floor left).moves (behind.trans_le looked.next) (s.flow.moves_sent tsn)⟩
      by_cases buffered : n ∈ s.buffered
      · exact (truthful.forwardSn_told left low buffered).imp_right .inl
      · refine .inr (.inr fun member => ?_)
        rcases List.mem_append.mp member with before | now
        · exact buffered before
        · obtain ⟨b, holds, rfl⟩ := List.mem_map.mp now
          rcases moves.origin b holds with ⟨new, _⟩ | ⟨a, earlier, later⟩
          · exact absurd low (Nat.not_le_of_lt (behind.trans_le new))
          · exact buffered (later.seq ▸ truthful.listed a earlier)
    refine ⟨sent.sender, sent.first, sent.inside, sent.listed, sent.accounted, sent.marks, fun e member => ?_, ?_⟩
    · rcases List.mem_append.mp member with before | now
      · exact ⟨(sent.emissions e before).own, (sent.emissions e before).told, (sent.emissions e before).behind,
          (sent.emissions e before).floor⟩
      · rw [List.mem_singleton.mp now]
        exact ⟨emission.own, emission.told, emission.behind, emission.floor⟩
    · refine List.pairwise_append.mpr ⟨truthful.ordered, List.pairwise_singleton _ _, fun e before e' now => ?_⟩
      rw [List.mem_singleton.mp now]
      have earlier := truthful.emissions e before
      exact (earlier.floor.moves earlier.behind looked).le_forwardSn stays

end

theorem mem_gone {f g : Flow} {a : Fragment} (member : a ∈ f.fragments) :
    a.seq ∈ gone f g ∨ ∃ b ∈ g.fragments, b.seq = a.seq := by
  by_cases away : g.fragments.elems.all (fun b => b.seq ≠ a.seq) = true
  · exact .inl (List.mem_map_of_mem (List.mem_filter.mpr ⟨member, away⟩))
  · refine .inr ?_
    rw [List.all_eq_true] at away
    push Not at away
    obtain ⟨b, inside, same⟩ := away
    exact ⟨b, inside, by simpa using same⟩

theorem Truthful.step (truthful : s.Truthful) (move : FlowMove) : (s.step move).Truthful := by
  cases move with
  | queue data =>
    have queued := Flow.moves_enqueues truthful.sender (Flow.cut data)
    exact truthful.observe (queued.trans (Flow.moves_abandonStaleFragments _)) fun _ _ none => none.elim
  | use usage =>
    have same : Flow.Moves (fun _ => False) s.flow { s.flow with usage } :=
      ⟨rfl, Nat.le_refl _, (Flow.Moves.refl s.flow).origin, (Flow.Moves.refl s.flow).survives⟩
    exact truthful.observe same fun _ _ none => none.elim
  | abandon => exact truthful.observe s.flow.moves_abandonStaleFragments fun _ _ none => none.elim
  | look => exact truthful.observe s.flow.moves_getFragmentForSending fun _ _ marked => .inl marked
  | send tsn => exact truthful.send tsn
  | ackUntil seq => exact truthful.observe (s.flow.moves_eraseAcked _) fun _ member _ => .inr (mem_gone member)
  | ackRange first last => exact truthful.observe (s.flow.moves_eraseAcked _) fun _ member _ => .inr (mem_gone member)
  | nak maxTsn => exact truthful.observe (s.flow.moves_updateNakCount maxTsn) fun _ _ none => none.elim
  | timeout => exact truthful.observe s.flow.moves_onTimeoutAlarm fun _ _ none => none.elim

theorem truthful_fresh (usage : Usage) : (fresh usage).Truthful where
  sender := rfl
  first := Nat.le_refl _
  inside _ member := by cases member
  listed _ member := by cases member
  accounted _ member := by cases member
  marks _ member := by cases member
  emissions _ member := by cases member
  ordered := .nil

theorem Truthful.steps (truthful : s.Truthful) (moves : List FlowMove) :
    (moves.foldl WatchedFlow.step s).Truthful := by
  induction moves generalizing s with
  | nil => exact truthful
  | cons move moves ih => exact ih (truthful.step move)

/-- In every run each chunk's forward number is at most its own number, everything up to it had been
acknowledged or abandoned by then or is never buffered, and the forward numbers never decrease. -/
theorem forward_numbers_truthful (usage : Usage) (moves : List FlowMove) :
    (∀ e ∈ (run usage moves).emitted, e.fsn ≤ e.seqNumber ∧
      ∀ n ≤ e.fsn, n ∈ e.acked ∨ n ∈ e.abandoned ∨ n ∉ (run usage moves).buffered) ∧
    (run usage moves).emitted.Pairwise (·.fsn ≤ ·.fsn) := by
  have truthful : (run usage moves).Truthful := (truthful_fresh usage).steps moves
  exact ⟨fun e member => ⟨(truthful.emissions e member).own, (truthful.emissions e member).told⟩, truthful.ordered⟩

end WatchedFlow
end Fms.Rtmfp
