import Fms.Rtmfp.Delivery

namespace Fms.Rtmfp
open ByteWire Segments Transition

def UserData.fragment (c : UserData) : Fragment :=
  { seq := c.seqNumber, data := c.data.userData, fragCtrl := .ofByte c.data.fragCtl }

namespace Flow

/-- A message that is ready: a whole fragment, or a first, middle ones and a last with
consecutive numbers, all at or below the cumulative number. -/
def Complete (csn : Nat) (run : List Fragment) : Prop :=
  (∃ m, Splits m (run.map Fragment.part)) ∧ (∀ g ∈ run, g.seq ≤ csn) ∧
    ∃ start, run.map Fragment.seq = List.range' start run.length

def HoldsReady (csn : Nat) (l : List Fragment) : Prop :=
  ∃ before run after, l = before ++ (run ++ after) ∧ Complete csn run

/-- A message that another one cuts off, and behind it a message that is ready. -/
def CutOff (csn : Nat) (l : List Fragment) : Prop :=
  ∃ before i mids q tail, l = before ++ i :: (mids ++ q :: tail) ∧ i.fragCtrl = .first ∧
    (∀ g ∈ mids, g.fragCtrl = .middle) ∧ q.fragCtrl.opens = true ∧ HoldsReady csn (q :: tail)

variable {csn : Nat} {l rest tail mids mids' : List Fragment} {g i q z : Fragment}

theorem HoldsReady.append (ready : HoldsReady csn l) (front : List Fragment) : HoldsReady csn (front ++ l) := by
  obtain ⟨before, run, after, rfl, complete⟩ := ready
  exact ⟨front ++ before, run, after, (List.append_assoc ..).symm, complete⟩

theorem HoldsReady.closer (ready : HoldsReady csn l) :
    ∃ g ∈ l, (g.fragCtrl = .whole ∨ g.fragCtrl = .last) ∧ g.seq ≤ csn := by
  obtain ⟨before, run, after, rfl, ⟨m, splits⟩, low, _⟩ := ready
  obtain ⟨p, listed, closes⟩ := splits.ends
  obtain ⟨g, member, rfl⟩ := List.mem_map.mp listed
  exact ⟨g, by simp [member], closes, low g member⟩

theorem CutOff.append (cut : CutOff csn l) (front : List Fragment) : CutOff csn (front ++ l) := by
  obtain ⟨before, i, mids, q, tail, rfl, rest⟩ := cut
  exact ⟨front ++ before, i, mids, q, tail, (List.append_assoc ..).symm, rest⟩

theorem CutOff.holdsReady (cut : CutOff csn l) : HoldsReady csn l := by
  obtain ⟨before, i, mids, q, tail, rfl, _, _, _, ready⟩ := cut
  exact (ready.append mids |>.append [i]).append before

/-- Either the first fragment is the one that is cut off, or one behind it is. -/
theorem CutOff.cases_cons (cut : CutOff csn (g :: l)) :
    CutOff csn l ∨ g.fragCtrl = .first ∧ ∃ mids q tail, l = mids ++ q :: tail ∧ (∀ g ∈ mids, g.fragCtrl = .middle) ∧
      q.fragCtrl.opens = true ∧ HoldsReady csn (q :: tail) := by
  obtain ⟨before, i, mids, q, tail, same, first, rest⟩ := cut
  cases before with
  | nil =>
    obtain ⟨rfl, rfl⟩ := List.cons.inj same
    exact .inr ⟨first, mids, q, tail, rfl, rest⟩
  | cons b before =>
    obtain ⟨rfl, rfl⟩ := List.cons.inj same
    exact .inl ⟨before, i, mids, q, tail, rfl, first, rest⟩

theorem CutOff.of_append (front : List Fragment) (closers : ∀ g ∈ front, g.fragCtrl ≠ .first)
    (cut : CutOff csn (front ++ l)) : CutOff csn l := by
  induction front with
  | nil => exact cut
  | cons g front ih =>
    rcases cut.cases_cons with later | ⟨first, _⟩
    · exact ih (fun h member => closers h (List.mem_cons_of_mem _ member)) later
    · exact absurd first (closers g (List.mem_cons_self ..))

/-- The fragment that ends a row of middle ones. -/
theorem middles_unique (inner : ∀ g ∈ mids, g.fragCtrl = .middle) (inner' : ∀ g ∈ mids', g.fragCtrl = .middle)
    (ends : z.fragCtrl ≠ .middle) (ends' : q.fragCtrl ≠ .middle) (same : mids ++ z :: rest = mids' ++ q :: tail) :
    z = q ∧ rest = tail := by
  induction mids generalizing mids' with
  | nil =>
    cases mids' with
    | nil => exact List.cons.inj same
    | cons g mids' =>
      obtain ⟨rfl, _⟩ := List.cons.inj same
      exact absurd (inner' z (List.mem_cons_self ..)) ends
  | cons g mids ih =>
    cases mids' with
    | nil =>
      obtain ⟨rfl, _⟩ := List.cons.inj same
      exact absurd (inner g (List.mem_cons_self ..)) ends'
    | cons h mids' =>
      exact ih (fun k member => inner k (List.mem_cons_of_mem _ member))
        (fun k member => inner' k (List.mem_cons_of_mem _ member)) (List.cons.inj same).2

theorem opens_ne_middle (opens : q.fragCtrl.opens = true) : q.fragCtrl ≠ .middle := fun middle => by
  rw [middle] at opens
  cases opens

/-- Taking a message from the front does not change whether another is cut off. -/
theorem AtFront.cutOff_iff {message : Bytes} (front : AtFront csn l message rest) : CutOff csn l ↔
    CutOff csn rest := by
  obtain ⟨stale, run, rfl, older, splits, _⟩ := front
  refine ⟨fun cut => ?_, fun cut => (cut.append run).append stale⟩
  have inRun : CutOff csn (run ++ rest) := by
    refine .of_append stale (fun g member first => ?_) cut
    have closes := (older g member).1
    rw [first] at closes
    cases closes
  generalize parts : run.map Fragment.part = list at splits
  cases splits with
  | whole =>
    obtain ⟨g, rfl, same⟩ := List.map_eq_singleton_iff.mp parts
    refine .of_append [g] (fun h member first => ?_) inRun
    rw [List.mem_singleton.mp member] at first
    cases first.symm.trans (congrArg Prod.fst same)
  | @pieces a z pieces _ =>
    obtain ⟨i, run, rfl, opening, parts⟩ := List.map_eq_cons_iff.mp parts
    obtain ⟨mids, final, rfl, middle, ending⟩ := List.map_eq_append_iff.mp parts
    obtain ⟨z, rfl, last⟩ := List.map_eq_singleton_iff.mp ending
    have inner (g : Fragment) (member : g ∈ mids) : g.fragCtrl = .middle := by
      have listed := List.mem_map_of_mem (f := Fragment.part) member
      rw [middle] at listed
      obtain ⟨_, _, same⟩ := List.mem_map.mp listed
      exact (congrArg Prod.fst same).symm
    have closing : z.fragCtrl = .last := congrArg Prod.fst last
    rw [List.cons_append, List.append_assoc, List.singleton_append] at inRun
    rcases inRun.cases_cons with later | ⟨_, mids', q, tail, same, inner', opens, _⟩
    · have closers (g : Fragment) (member : g ∈ mids ++ [z]) : g.fragCtrl ≠ .first := by
        rcases List.mem_append.mp member with before | ends
        · rw [inner g before]
          decide
        · rw [List.mem_singleton.mp ends, closing]
          decide
      refine .of_append (mids ++ [z]) closers ?_
      rwa [List.append_assoc, List.singleton_append]
    · obtain ⟨rfl, _⟩ := middles_unique inner inner' (by rw [closing]; decide) (opens_ne_middle opens) same
      rw [closing] at opens
      cases opens

theorem join_incomplete {passed : Bytes} (found : join csn passed l = .incomplete)
    (sorted : l.Pairwise (·.seq < ·.seq)) :
    ∀ g ∈ l, g.seq ≤ csn → g.fragCtrl = .middle := by
  induction l generalizing passed with
  | nil => exact fun _ member => by cases member
  | cons j l ih =>
    obtain ⟨above, sorted⟩ := List.pairwise_cons.mp sorted
    unfold join at found
    split at found
    · split at found
      · cases found
      · rename_i middle
        exact List.forall_mem_cons.mpr ⟨fun _ => middle, ih found sorted⟩
      · cases found
      · cases found
    · rename_i high
      refine List.forall_mem_cons.mpr ⟨fun low => absurd low high, fun g member low => ?_⟩
      exact absurd ((above g member).le.trans low) high

/-- A search that finds nothing leaves a ready message behind exactly when one was cut off
before it. -/
theorem scan_nothing_iff (sorted : l.Pairwise (·.seq < ·.seq)) (found : scan csn l = .nothing rest) :
    HoldsReady csn rest ↔ CutOff csn l := by
  induction l with
  | nil =>
    cases found
    have none : ¬ HoldsReady csn [] := fun ready => by
      obtain ⟨g, member, _⟩ := ready.closer
      cases member
    exact iff_of_false none fun cut => none cut.holdsReady
  | cons i l ih =>
    obtain ⟨above, sorted⟩ := List.pairwise_cons.mp sorted
    have skip (closes : i.fragCtrl ≠ .first) : CutOff csn l ↔ CutOff csn (i :: l) :=
      ⟨fun cut => cut.append [i], .of_append [i] fun g member => by rwa [List.mem_singleton.mp member]⟩
    unfold scan at found
    split at found
    · rename_i low
      split at found
      · cases found
      · rename_i last
        rw [ih sorted found, skip (by rw [last]; decide)]
      · rename_i middle
        rw [ih sorted found, skip (by rw [middle]; decide)]
      · rename_i first
        split at found
        · cases found
        · rename_i torn
          cases found
          obtain ⟨mids, q, tail, rfl, rfl, inner, opens, _⟩ := join_torn torn
          have middles (g : Fragment) (member : g ∈ mids) := (inner g member).1
          refine ⟨fun ready => ⟨[], i, mids, q, tail, rfl, first, middles, opens, ready⟩, fun cut => ?_⟩
          rcases cut.cases_cons with later | ⟨_, mids', q', tail', same, inner', opens', ready⟩
          · refine CutOff.holdsReady (.of_append mids (fun g member => ?_) later)
            rw [middles g member]
            decide
          · obtain ⟨rfl, rfl⟩ := middles_unique middles inner' (opens_ne_middle opens) (opens_ne_middle opens') same
            exact ready
        · rename_i incomplete
          cases found
          have middles := join_incomplete incomplete sorted
          have none : ¬ HoldsReady csn (i :: l) := fun ready => by
            obtain ⟨g, member, closes, low⟩ := ready.closer
            rcases List.mem_cons.mp member with rfl | later
            · simp [first] at closes
            · simp [middles g later low] at closes
          exact iff_of_false none fun cut => none cut.holdsReady
    · rename_i high
      cases found
      have none : ¬ HoldsReady csn (i :: l) := fun ready => by
        obtain ⟨g, member, _, low⟩ := ready.closer
        rcases List.mem_cons.mp member with rfl | later
        · exact high low
        · exact high ((above g later).le.trans low)
      exact iff_of_false none fun cut => none cut.holdsReady

theorem takeMessages_drains_iff {fuel : Nat} {f : Flow} (enough : f.fragments.size < fuel) :
    HoldsReady f.seqManager.csn (takeMessages fuel f).2.fragments.elems ↔
      CutOff f.seqManager.csn f.fragments.elems := by
  induction fuel generalizing f with
  | zero => cases enough
  | succ fuel ih =>
    unfold takeMessages
    split
    · rename_i found
      exact scan_nothing_iff f.fragments.sorted (messageData_none found).1
    · rename_i m g found
      obtain ⟨front, same⟩ := messageData_some found
      have shorter : g.removeLastMessage.fragments.size < fuel := by
        obtain ⟨stale, run, buffer, _, splits, _⟩ := front
        have some := List.length_pos_iff.mpr splits.ne_nil
        have size := congrArg List.length buffer
        simp only [List.length_append, List.length_map] at size some
        unfold SortedBy.size at enough ⊢
        omega
      have rest := ih shorter
      rw [same.seqManager] at rest
      rw [front.cutOff_iff]
      exact rest

/-- Fragments with the next numbers are the next ones. -/
theorem prefix_of_numbered {run : List Fragment} {floor : Nat} (sorted : l.Pairwise (·.seq < ·.seq))
    (above : ∀ g ∈ l, floor < g.seq) (numbered : run.map Fragment.seq = List.range' (floor + 1) run.length)
    (inside : run ⊆ l) : run <+: l := by
  induction run generalizing l floor with
  | nil => exact List.nil_prefix
  | cons r run ih =>
    rw [List.length_cons, List.range'_succ, List.map_cons] at numbered
    obtain ⟨number, numbered⟩ := List.cons.inj numbered
    have later (g : Fragment) (member : g ∈ run) : floor + 1 < g.seq := by
      have listed := List.mem_map_of_mem (f := Fragment.seq) member
      rw [numbered, List.mem_range'_1] at listed
      omega
    cases l with
    | nil => cases inside (List.mem_cons_self ..)
    | cons g l =>
      obtain ⟨behind, ordered⟩ := List.pairwise_cons.mp sorted
      have lower := above g (List.mem_cons_self ..)
      have same : r = g := by
        rcases List.mem_cons.mp (inside (List.mem_cons_self ..)) with same | far
        · exact same
        · have := behind r far
          omega
      subst same
      rw [List.prefix_cons_inj]
      refine ih ordered (fun h member => number ▸ behind h member) numbered fun h member => ?_
      rcases List.mem_cons.mp (inside (List.mem_cons_of_mem _ member)) with rfl | rest
      · exact absurd number (later h member).ne'
      · exact rest

/-- In a buffer the fragments of a message lie side by side. -/
theorem holdsReady_iff (sorted : l.Pairwise (·.seq < ·.seq)) : HoldsReady csn l ↔ ∃ run, run ⊆ l ∧
    Complete csn run := by
  constructor
  · rintro ⟨before, run, after, rfl, complete⟩
    exact ⟨run, fun g member => by simp [member], complete⟩
  · rintro ⟨run, inside, complete⟩
    induction l with
    | nil =>
      obtain ⟨g, member, _⟩ := HoldsReady.closer ⟨[], run, [], rfl, complete⟩
      cases inside (List.append_nil run ▸ member)
    | cons g l ih =>
      obtain ⟨behind, later⟩ := List.pairwise_cons.mp sorted
      cases run with
      | nil =>
        obtain ⟨⟨m, splits⟩, _⟩ := complete
        exact absurd rfl splits.ne_nil
      | cons r run =>
        obtain ⟨_, _, start, numbered⟩ := id complete
        rw [List.length_cons, List.range'_succ, List.map_cons] at numbered
        obtain ⟨number, numbered⟩ := List.cons.inj numbered
        have above (h : Fragment) (member : h ∈ run) : r.seq < h.seq := by
          have listed := List.mem_map_of_mem (f := Fragment.seq) member
          rw [numbered, List.mem_range'_1] at listed
          omega
        by_cases same : r = g
        · subst same
          have rest : run ⊆ l := fun h member => by
            rcases List.mem_cons.mp (inside (List.mem_cons_of_mem _ member)) with rfl | rest
            · exact absurd (above h member) (Nat.lt_irrefl _)
            · exact rest
          obtain ⟨after, rfl⟩ := prefix_of_numbered later behind (number ▸ numbered) rest
          exact ⟨[], r :: run, after, rfl, complete⟩
        · have first : r ∈ l := (List.mem_cons.mp (inside (List.mem_cons_self ..))).resolve_left same
          have rest : r :: run ⊆ l := fun h member => by
            rcases List.mem_cons.mp (inside member) with rfl | rest
            · rcases List.mem_cons.mp member with again | far
              · exact absurd again.symm same
              · exact absurd (behind r first) (Nat.lt_asymm (above h far))
            · exact rest
          exact (ih later rest).append [g]

/-- A chunk with data is entered under its number, unless the bounds are reached. -/
def enters (f : Flow) (c : UserData) : Bool :=
  !c.data.shouldAbandon && f.state = .isOpen && !f.isFull c.data.userData.length

/-- It is a new number, so the fragment goes into the buffer. -/
def stores (f : Flow) (c : UserData) : Bool := f.enters c && (f.seqManager.addSeq c.seqNumber).2 ≠ .duplicate

/-- What is left of the buffer besides: an abandoned chunk takes away all up to the forward number, and
one that finds the bounds reached takes away everything. -/
def spared (f : Flow) (c : UserData) : List Fragment :=
  f.fragments.elems.filter fun g =>
    if c.data.shouldAbandon then g.seq > c.forwardSeqNumber
    else if f.stores c then g.seq ≠ c.seqNumber
    else f.enters c || f.state ≠ .isOpen || f.role = .sender

/-- The cumulative number that a final chunk leads to. -/
def finalCsn (f : Flow) (c : UserData) : Nat :=
  let entered := if f.enters c then (f.seqManager.addSeq c.seqNumber).1 else f.seqManager
  ((entered.addSequencesUntil c.forwardSeqNumber).addSequencesUntil c.seqNumber).csn

/-- What a chunk makes of the buffer and of the cumulative number. -/
theorem receive_final (f : Flow) (c : UserData) :
    (∀ g, g ∈ (f.receive c).fragments ↔ f.stores c = true ∧ g = c.fragment ∨ g ∈ f.spared c) ∧
      ((f.receive c).addSequencesUntil c.seqNumber).seqManager.csn = f.finalCsn c := by
  have kept (p : Fragment → Bool) (g : Fragment) : g ∈ f.fragments.elems.filter p ↔ g ∈ f.fragments ∧ p g = true :=
    List.mem_filter
  unfold receive finalCsn spared stores enters addSequencesUntil
  simp only [kept]
  cases abandoned : c.data.shouldAbandon with
  | true => exact ⟨fun g => by simp [removeFragmentsUntilSeq, SortedBy.mem_filter], rfl⟩
  | false =>
    by_cases isOpen : f.state = .isOpen
    · have added : f.Added c.fragment (f.addFragment c.fragment).1 := f.added c.fragment
      simp only [isOpen, Bool.not_false, decide_true, Bool.and_self, if_true, Bool.true_and]
      change (∀ g, g ∈ (f.addFragment c.fragment).1.fragments ↔ _) ∧
        (((f.addFragment c.fragment).1.seqManager.addSequencesUntil _).addSequencesUntil _).csn = _
      generalize (f.addFragment c.fragment).1 = after at added ⊢
      have length : c.fragment.data.length = c.data.userData.length := rfl
      have empty (g : Fragment) : g ∉ ({} : FragmentStore) := fun member => by cases member
      cases added with
      | refused full sender =>
        rw [length] at full
        simp [full, sender]
      | rejected full receiver =>
        rw [length] at full
        simp [full, receiver, empty]
      | duplicate room again =>
        rw [length] at room
        have again : (f.seqManager.addSeq c.seqNumber).2 = .duplicate := again
        simp [room, again, UserData.fragment]
      | stored room new =>
        rw [length] at room
        have new : (f.seqManager.addSeq c.seqNumber).2 ≠ .duplicate := new
        simp [room, new, SortedBy.mem_assign, UserData.fragment]
    · exact ⟨fun g => by simp [isOpen], by simp [isOpen]⟩

/-- No search is made for a final chunk, and there is nothing to find: no message of the buffer is
complete up to the number the chunk leads to, and its own fragment completes none. -/
def LeavesNone (f : Flow) (c : UserData) : Prop :=
  (∀ run, run ⊆ f.spared c → ¬ Complete (f.finalCsn c) run) ∧
    (f.stores c = true → ∀ before behind, before ++ behind ⊆ f.spared c →
      ¬ Complete (f.finalCsn c) (before ++ c.fragment :: behind))

theorem leavesNone_iff (f : Flow) (c : UserData) :
    ¬ HoldsReady ((f.receive c).addSequencesUntil c.seqNumber).seqManager.csn (f.receive c).fragments.elems ↔
      f.LeavesNone c := by
  obtain ⟨buffered, csn⟩ := f.receive_final c
  rw [csn, holdsReady_iff (f.receive c).fragments.sorted]
  constructor
  · refine fun none => ⟨fun run inside complete => none ⟨run, fun g member => ?_, complete⟩,
      fun stored before behind inside complete => none ⟨_, fun g member => ?_, complete⟩⟩
    · exact (buffered g).mpr (.inr (inside member))
    · rcases List.mem_cons.mp (List.perm_middle.mem_iff.mp member) with own | other
      · exact (buffered g).mpr (.inl ⟨stored, own⟩)
      · exact (buffered g).mpr (.inr (inside other))
  · rintro ⟨old, own⟩ ⟨run, inside, complete⟩
    by_cases mine : f.stores c = true ∧ c.fragment ∈ run
    · obtain ⟨stored, member⟩ := mine
      obtain ⟨before, behind, rfl⟩ := List.append_of_mem member
      refine own stored before behind (fun g other => ?_) complete
      rcases (buffered g).mp (inside (List.perm_middle.mem_iff.mpr (List.mem_cons_of_mem _ other))) with ⟨_,
        rfl⟩ | spared
      · -- a message has no number twice
        obtain ⟨_, _, start, numbered⟩ := complete
        have distinct : (before ++ c.fragment :: behind).Nodup := by
          refine .of_map Fragment.seq ?_
          rw [numbered]
          exact List.nodup_range'
        exact absurd other (List.nodup_cons.mp (List.nodup_middle.mp distinct)).1
      · exact spared
    · refine old run (fun g member => ?_) complete
      rcases (buffered g).mp (inside member) with ⟨stored, rfl⟩ | spared
      · exact absurd ⟨stored, member⟩ mine
      · exact spared

/-- `handle_next_user_data` up to the search for messages. -/
def receiveNext (f : Flow) (seq : Nat) (d : DataChunk) : Flow :=
  let frag := { seq, data := d.userData, fragCtrl := .ofByte d.fragCtl }
  if !d.shouldAbandon && f.state = .isOpen then (f.addFragment frag).1 else f

/-- `handle_next_user_data`; the final flag is not looked at. -/
def handleNextUserData (f : Flow) (seq : Nat) (d : DataChunk) : List Bytes × Flow :=
  takeMessages ((f.receiveNext seq d).fragments.size + 1) (f.receiveNext seq d)

theorem takeMessages_drained_iff (f : Flow) :
    ¬ HoldsReady (takeMessages (f.fragments.size + 1) f).2.seqManager.csn
        (takeMessages (f.fragments.size + 1) f).2.fragments.elems ↔ ¬ CutOff f.seqManager.csn f.fragments.elems := by
  rw [(takeMessages_suffix _ f).2.seqManager, takeMessages_drains_iff (Nat.lt_succ_self _)]

end Flow

/-- A receiving flow, with the number the next chunk of the packet has when it continues one
of this flow. -/
structure Receiver where
  flow : Flow
  nextSeq : Option Nat := none

/-- What a flow is handed: user data, data that continues it, or nothing because a packet
starts or another flow has its turn, after which that flow may hold more or less. -/
inductive Incoming
  | userData (c : UserData)
  | nextUserData (d : DataChunk)
  | elsewhere (others : Nat)

namespace Receiver

def fresh (others : Nat) : Receiver := { flow := { role := .receiver, others := some others } }

def step (s : Receiver) : Incoming → Receiver
  | .userData c => { flow := (s.flow.handleUserData c).2, nextSeq := some ((c.seqNumber + 1) % 2 ^ 64) }
  | .nextUserData d =>
    match s.nextSeq with
    | none => s
    | some seq => { flow := (s.flow.handleNextUserData seq d).2, nextSeq := some ((seq + 1) % 2 ^ 64) }
  | .elsewhere others => { flow := { s.flow with others := some others } }

def Drained (s : Receiver) : Prop := ¬ Flow.HoldsReady s.flow.seqManager.csn s.flow.fragments.elems

/-- The search for messages takes all that are ready: it is not skipped for a chunk that leaves one, and
when it runs none lies behind a message that is cut off. -/
def TakesReady (s : Receiver) : Incoming → Prop
  | .userData c =>
    if c.data.isFinal = true then s.flow.LeavesNone c
    else ¬ Flow.CutOff (s.flow.receive c).seqManager.csn (s.flow.receive c).fragments.elems
  | .nextUserData d =>
    ∀ seq, s.nextSeq = some seq →
      ¬ Flow.CutOff (s.flow.receiveNext seq d).seqManager.csn (s.flow.receiveNext seq d).fragments.elems
  | .elsewhere _ => True

theorem Drained.step_iff {s : Receiver} (drained : s.Drained)
    (i : Incoming) : (s.step i).Drained ↔ TakesReady s i := by
  cases i with
  | userData c =>
    unfold Drained
    simp only [step, TakesReady, Flow.handleUserData]
    split
    · exact s.flow.leavesNone_iff c
    · exact Flow.takeMessages_drained_iff _
  | nextUserData d =>
    unfold Drained
    simp only [step, TakesReady]
    split
    · rename_i none
      exact iff_of_true drained fun seq some => by cases none.symm.trans some
    · rename_i seq found
      refine (Flow.takeMessages_drained_iff _).trans ⟨fun rest other some => ?_, fun all => all seq found⟩
      cases found.symm.trans some
      exact rest
  | elsewhere others => exact iff_of_true drained trivial

/-- Along every run that takes what is ready no message is left in the buffer, and one more
chunk leaves none exactly when it takes what is ready too. -/
theorem ready_messages_drained {others : Nat} {s : Receiver} (reach : Reach step TakesReady (fresh others) s) :
    s.Drained ∧ ∀ i, (s.step i).Drained ↔ TakesReady s i := by
  have drained : s.Drained := by
    refine reach.invariant (I := Drained) (fun ready => ?_) fun takes drained => (drained.step_iff _).mpr takes
    obtain ⟨g, member, _⟩ := ready.closer
    cases member
  exact ⟨drained, drained.step_iff⟩

/-- A chunk that carries one byte. -/
def byteChunk (seq : Nat) (fragCtrl : FragCtrl) (final : Bool) : Incoming :=
  .userData ⟨seq, 1, { flags := createFlags fragCtrl false final, options := [], userData := [7] }⟩

theorem takesReady_whole : TakesReady (fresh 0) (byteChunk 1 .whole false) := by
  intro cut
  have nothing := Flow.CutOff.of_append (l := []) [{ seq := 1, data := [7], fragCtrl := .whole }] (by decide) cut
  obtain ⟨g, member, _⟩ := nothing.holdsReady.closer
  cases member

/-- A whole message is taken, and the final chunk behind it starts a message that it does not end. -/
theorem ready_messages_drained_final :
    (((fresh 0).step (byteChunk 1 .whole false)).step (byteChunk 2 .first true)).Drained := by
  refine ((ready_messages_drained (.next .start _ takesReady_whole)).2 _).mpr ?_
  show Flow.LeavesNone _ _
  refine ⟨fun run inside complete => ?_, fun _ before behind inside complete => ?_⟩
  · cases List.subset_nil.mp inside
    obtain ⟨⟨_, splits⟩, _⟩ := complete
    exact splits.ne_nil rfl
  · obtain ⟨rfl, rfl⟩ := List.append_eq_nil_iff.mp (List.subset_nil.mp inside)
    obtain ⟨⟨_, splits⟩, _⟩ := complete
    obtain ⟨p, member, closes⟩ := splits.ends
    cases List.mem_singleton.mp member
    revert closes
    decide

/-- A message that is cut off is thrown away, and the whole one that cuts it off is left. -/
theorem ready_message_left :
    ∃ s, Reach step (fun _ _ => True) (fresh 0) s ∧ s.flow.state = .isOpen ∧ ¬ s.Drained := by
  have reach : Reach step (fun _ _ => True) (fresh 0)
      ([byteChunk 1 .first false, byteChunk 2 .whole false].foldl step (fresh 0)) :=
    Reach.start.foldl fun _ _ _ => trivial
  refine ⟨_, reach, by decide, fun drained =>
    drained ⟨[], [{ seq := 2, data := [7], fragCtrl := .whole }], [], rfl, ?_⟩⟩
  exact ⟨⟨[7], .whole⟩, by decide, 2, rfl⟩

end Receiver
end Fms.Rtmfp
