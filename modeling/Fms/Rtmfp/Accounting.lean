import Fms.Base.Ledger
import Fms.Rtmfp.Reassembly

namespace Fms.Rtmfp
open ByteWire Segments
namespace Flow

def lengths (l : List Fragment) : List Nat := l.map fun g => g.data.length

def taken (l rest : List Fragment) : List Fragment := l.take (l.length - rest.length)

/-- `fragment_store::assign`. -/
def assignCounted (s : FragmentStore) (ledger : Ledger) (frag : Fragment) : FragmentStore × Ledger :=
  let ledger :=
    match s.elems.find? fun g => g.seq = frag.seq with
    | none => ledger
    | some old => ledger.release old.data.length
  (s.assign frag, ledger.charge frag.data.length)

/-- `add_fragment` on a receiving flow, with the bounds tested on the counters. -/
def addFragmentCounted (f : Flow) (ledger : Ledger) (frag : Fragment) : Flow × Ledger :=
  if f.fragments.size ≥ eMaxBufferedFragments || ledger.own + frag.data.length > eMaxBufferedBytes ||
      ledger.shared + frag.data.length > eMaxSessionBufferedBytes then
    ({ f with fragments := {}, state := .rejected }, ledger.release ledger.own)
  else
    match f.seqManager.addSeq frag.seq with
    | (seqManager, .duplicate) => ({ f with seqManager }, ledger)
    | (seqManager, _) =>
      let stored := assignCounted f.fragments ledger frag
      ({ f with seqManager, fragments := stored.1 }, stored.2)

/-- `remove_fragments_until_seq`: the fragments below the number go, then the one that has it. -/
def removeUntilCounted (f : Flow) (ledger : Ledger) (seq : Nat) : Flow × Ledger :=
  let ledger := ledger.releaseEach (lengths (f.fragments.elems.filter fun g => g.seq < seq))
  let ledger := ledger.releaseEach (lengths (f.fragments.elems.filter fun g => g.seq = seq))
  (f.removeFragmentsUntilSeq seq, ledger)

/-- The loops of `message_data` with the fragments they erase, one by one or from the first of a
message on. -/
def scanCounted (csn : Nat) (ledger : Ledger) : List Fragment → Ready × Ledger
  | [] => (.nothing [], ledger)
  | i :: rest =>
    if i.seq ≤ csn then
      match i.fragCtrl with
      | .whole => (.whole i.data (i :: rest), ledger)
      | .last => scanCounted csn (ledger.release i.data.length) rest
      | .middle => scanCounted csn (ledger.release i.data.length) rest
      | .first =>
        match join csn i.data rest with
        | .complete message left => (.joined message left, ledger.releaseEach (lengths (taken (i :: rest) left)))
        | .torn left => (.nothing left, ledger.releaseEach (lengths (taken (i :: rest) left)))
        | .incomplete => (.nothing (i :: rest), ledger)
    else (.nothing (i :: rest), ledger)

def messageDataCounted (f : Flow) (ledger : Ledger) : Flow × Ledger :=
  (f.messageData.2, (scanCounted f.seqManager.csn ledger f.fragments.elems).2)

/-- `remove_last_message`. It is called behind a message only, so a whole fragment is there to be
erased unless the message was put together. -/
def removeLastCounted (f : Flow) (ledger : Ledger) : Flow × Ledger :=
  (f.removeLastMessage, if f.msgIsFragmented then ledger else ledger.releaseEach (lengths (f.fragments.elems.take 1)))

/-- The counters tell what the flow holds, beside `rest` bytes of the other flows. -/
def Counted (ledger : Ledger) (f : Flow) (rest : Nat) : Prop :=
  ledger.Holds eMaxSessionBufferedBytes f.fragments.bytes rest

theorem limit_small : eMaxSessionBufferedBytes < Ledger.word := by decide

theorem sum_taken {l rest : List Fragment} (suffix : rest <:+ l) :
    (lengths (taken l rest)).sum + (lengths rest).sum = (lengths l).sum := by
  obtain ⟨front, rfl⟩ := suffix
  have same : taken (front ++ rest) rest = front := by
    rw [taken, List.length_append, Nat.add_sub_cancel]
    exact List.take_left
  rw [same, lengths, lengths, lengths, List.map_append, List.sum_append]

variable {f : Flow} {ledger : Ledger} {rest : Nat}

theorem bytes_lengths (s : FragmentStore) : s.bytes = (lengths s.elems).sum := rfl

theorem Counted.assign (counted : Counted ledger f rest) {frag : Fragment}
    (room : rest + f.fragments.bytes + frag.data.length ≤ eMaxSessionBufferedBytes) :
    (assignCounted f.fragments ledger frag).2.Holds eMaxSessionBufferedBytes
      (assignCounted f.fragments ledger frag).1.bytes rest := by
  rw [assignCounted]
  dsimp only
  split
  · rename_i absent
    have others : ∀ b ∈ f.fragments, b.seq ≠ frag.seq := fun b member => by
      simpa using List.find?_eq_none.mp absent b member
    obtain ⟨before, after, whole, placed⟩ := SortedBy.assign_absent others
    have held := counted.charge limit_small room
    have grown : FragmentStore.bytes (f.fragments.assign frag) = f.fragments.bytes + frag.data.length := by
      simp only [bytes_lengths, lengths, placed, whole, List.map_append, List.sum_append, List.map_cons,
        List.sum_cons]
      omega
    rwa [grown]
  · rename_i old found
    have same : old.seq = frag.seq := by simpa using List.find?_some found
    obtain ⟨before, after, whole, placed⟩ := SortedBy.assign_present (List.mem_of_find?_eq_some found) same
    have there : f.fragments.bytes = (lengths before).sum + (old.data.length + (lengths after).sum) := by
      simp only [bytes_lengths, lengths, whole, List.map_append, List.sum_append, List.map_cons, List.sum_cons]
    have held := (counted.release limit_small (n := old.data.length) (by omega)).charge limit_small
      (n := frag.data.length) (by omega)
    have changed : FragmentStore.bytes (f.fragments.assign frag) = f.fragments.bytes - old.data.length +
        frag.data.length := by
      rw [there]
      simp only [bytes_lengths, lengths, placed, List.map_append, List.sum_append, List.map_cons, List.sum_cons]
      omega
    rwa [changed]

/-- A fragment is stored within the bounds, or the flow gives back all it held. -/
theorem Counted.addFragment (counted : Counted ledger f rest) (frag : Fragment) :
    Counted (f.addFragmentCounted ledger frag).2 (f.addFragmentCounted ledger frag).1 rest := by
  rw [addFragmentCounted]
  split
  · exact counted.releaseAll limit_small
  · rename_i fits
    simp only [Bool.or_eq_true, decide_eq_true_eq, not_or, Nat.not_lt] at fits
    split
    · exact counted
    · refine counted.assign ?_
      have shared := counted.shared
      omega

theorem sum_filter (p : Fragment → Bool) (l : List Fragment) :
    (lengths (l.filter p)).sum + (lengths (l.filter fun g => !p g)).sum = (lengths l).sum := by
  rw [← List.sum_append, lengths, lengths, ← List.map_append]
  exact ((List.filter_append_perm p l).map _).sum_eq

/-- The fragments below a number, the one that has it and those above it are all there are. -/
theorem sum_around (seq : Nat) (l : List Fragment) :
    (lengths (l.filter fun g => g.seq < seq)).sum + (lengths (l.filter fun g => g.seq = seq)).sum +
      (lengths (l.filter fun g => g.seq > seq)).sum = (lengths l).sum := by
  have below := sum_filter (fun g => g.seq < seq) l
  have level := sum_filter (fun g => g.seq = seq) (l.filter fun g => !decide (g.seq < seq))
  have same : (l.filter fun g => !decide (g.seq < seq)).filter (fun g => g.seq = seq) = l.filter fun g =>
    g.seq = seq := by
    rw [List.filter_filter]
    refine List.filter_congr fun g _ => Bool.eq_iff_iff.mpr ?_
    simp only [Bool.and_eq_true, decide_eq_true_eq, Bool.not_eq_true', decide_eq_false_iff_not]
    omega
  have above : (l.filter fun g => !decide (g.seq < seq)).filter (fun g => !decide (g.seq = seq)) =
      l.filter fun g => g.seq > seq := by
    rw [List.filter_filter]
    refine List.filter_congr fun g _ => Bool.eq_iff_iff.mpr ?_
    simp only [Bool.and_eq_true, decide_eq_true_eq, Bool.not_eq_true', decide_eq_false_iff_not]
    omega
  rw [same, above] at level
  omega

theorem Counted.removeUntil (counted : Counted ledger f rest) (seq : Nat) :
    Counted (f.removeUntilCounted ledger seq).2 (f.removeUntilCounted ledger seq).1 rest := by
  have parts := sum_around seq f.fragments.elems
  have whole := bytes_lengths f.fragments
  have given := (counted.releaseEach limit_small (lengths (f.fragments.elems.filter fun g => g.seq < seq))
    (by omega)).releaseEach limit_small (lengths (f.fragments.elems.filter fun g => g.seq = seq)) (by omega)
  have left : FragmentStore.bytes (f.removeFragmentsUntilSeq seq).fragments =
      f.fragments.bytes - (lengths (f.fragments.elems.filter fun g => g.seq < seq)).sum -
        (lengths (f.fragments.elems.filter fun g => g.seq = seq)).sum := by
    have kept : FragmentStore.bytes (f.removeFragmentsUntilSeq seq).fragments =
      (lengths (f.fragments.elems.filter fun g => g.seq > seq)).sum := rfl
    omega
  rw [Counted, removeUntilCounted, left]
  exact given

theorem scanCounted_eq (csn : Nat) (ledger : Ledger)
    (l : List Fragment) : (scanCounted csn ledger l).1 = scan csn l := by
  induction l generalizing ledger with
  | nil => rfl
  | cons i rest ih =>
    rw [scanCounted, scan]
    split
    · cases i.fragCtrl with
      | whole => rfl
      | last => exact ih _
      | middle => exact ih _
      | first => cases join csn i.data rest <;> rfl
    · rfl

theorem scanCounted_holds (csn : Nat) {limit : Nat} {l : List Fragment} (small : limit < Ledger.word)
    (holds : ledger.Holds limit (lengths l).sum rest) :
    (scanCounted csn ledger l).2.Holds limit (lengths (scanCounted csn ledger l).1.rest).sum rest := by
  induction l generalizing ledger with
  | nil => exact holds
  | cons i l ih =>
    have front {left : List Fragment} (suffix : left <:+ i :: l) :
        (ledger.releaseEach (lengths (taken (i :: l) left))).Holds limit (lengths left).sum rest := by
      have split := sum_taken suffix
      have given := holds.releaseEach small (lengths (taken (i :: l) left)) (by omega)
      rwa [show (lengths (i :: l)).sum - (lengths (taken (i :: l) left)).sum = (lengths left).sum by omega] at given
    have first : (ledger.release i.data.length).Holds limit (lengths l).sum rest := by
      have whole : (lengths (i :: l)).sum = i.data.length + (lengths l).sum := by
        rw [lengths, List.map_cons, List.sum_cons]
        rfl
      have given := holds.release small (n := i.data.length) (by omega)
      rwa [whole, Nat.add_sub_cancel_left] at given
    rw [scanCounted]
    split
    · split
      · exact holds
      · exact ih first
      · exact ih first
      · split
        · rename_i found
          exact front ((join_suffix.1 found).trans (List.suffix_cons _ _))
        · rename_i found
          exact front ((join_suffix.2 found).trans (List.suffix_cons _ _))
        · exact holds
    · exact holds

theorem Counted.messageData (counted : Counted ledger f rest) :
    Counted (f.messageDataCounted ledger).2 (f.messageDataCounted ledger).1 rest := by
  have holds := scanCounted_holds f.seqManager.csn limit_small counted
  rw [scanCounted_eq] at holds
  have left : f.messageData.2.fragments.elems = (scan f.seqManager.csn f.fragments.elems).rest := by
    unfold Flow.messageData
    dsimp only
    split <;> rfl
  rw [Counted, messageDataCounted, bytes_lengths, left]
  exact holds

theorem Counted.removeLast (counted : Counted ledger f rest) :
    Counted (f.removeLastCounted ledger).2 (f.removeLastCounted ledger).1 rest := by
  rw [removeLastCounted, removeLastMessage]
  dsimp only
  split
  · exact counted
  · have parts : (lengths (f.fragments.elems.take 1)).sum + (lengths (f.fragments.elems.drop 1)).sum =
        f.fragments.bytes := by
      rw [lengths, lengths, ← List.sum_append, ← List.map_append, List.take_append_drop]
      rfl
    have given := counted.releaseEach limit_small (lengths (f.fragments.elems.take 1)) (by omega)
    have left : f.fragments.bytes - (lengths (f.fragments.elems.take 1)).sum =
        (lengths (f.fragments.elems.drop 1)).sum := by omega
    rwa [left] at given

/-- A rejected flow holds nothing. -/
def Settled (f : Flow) : Prop := f.state = .rejected → f.fragments.elems = []

abbrev CountedOp := Flow → Ledger → Flow × Ledger

/-- The counters stay exact through an operation, whatever the other flows hold. -/
structure CountedOp.Exact (op : CountedOp) : Prop where
  settled : ∀ {f} (ledger : Ledger), Settled f → Settled (op f ledger).1
  counted : ∀ {f ledger rest}, Counted ledger f rest → Counted (op f ledger).2 (op f ledger).1 rest

/-- A fragment of a chunk, handed to the flow only while it is open; its length is kept in 16 bits. -/
def takeFragment (seq : Nat) (data : Bytes) (fragCtrl : FragCtrl) : CountedOp := fun f ledger =>
  if f.state = .isOpen then f.addFragmentCounted ledger { seq, data := data.take (data.length % 2 ^ 16), fragCtrl }
  else (f, ledger)

theorem takeFragment_exact (seq : Nat) (data : Bytes) (fragCtrl : FragCtrl) :
    CountedOp.Exact (takeFragment seq data fragCtrl) where
  settled {f} ledger settled := by
    unfold takeFragment
    split
    · rename_i isOpen
      unfold addFragmentCounted
      split
      · exact fun _ => rfl
      · split
        · exact settled
        · exact fun rejected => by cases isOpen.symm.trans rejected
    · exact settled
  counted counted := by
    unfold takeFragment
    split
    · exact counted.addFragment _
    · exact counted

theorem Settled.sublist {f g : Flow} (settled : Settled f) (state : g.state = f.state)
    (sub : g.fragments.elems.Sublist f.fragments.elems) : Settled g := by
  intro rejected
  have none := settled (state.symm.trans rejected)
  rw [none] at sub
  exact List.sublist_nil.mp sub

theorem messageDataCounted_exact : CountedOp.Exact messageDataCounted where
  settled {f} _ settled := by
    refine settled.sublist ?_ ?_
    · unfold messageDataCounted Flow.messageData
      dsimp only
      split <;> rfl
    · unfold messageDataCounted Flow.messageData
      dsimp only
      split <;> exact (scan_suffix _ _).sublist
  counted counted := counted.messageData

theorem removeLastCounted_exact : CountedOp.Exact removeLastCounted where
  settled {f} _ settled := by
    refine settled.sublist ?_ ?_
    · unfold removeLastCounted removeLastMessage
      dsimp only
      split <;> rfl
    · unfold removeLastCounted removeLastMessage
      dsimp only
      split
      · exact .refl _
      · exact List.drop_sublist _ _
  counted counted := counted.removeLast

theorem removeUntilCounted_exact (seq : Nat) : CountedOp.Exact fun f ledger => f.removeUntilCounted ledger seq where
  settled _ settled := settled.sublist rfl List.filter_sublist
  counted counted := counted.removeUntil seq

theorem addSequencesUntil_exact (seq : Nat) : CountedOp.Exact fun f ledger => (f.addSequencesUntil seq, ledger) where
  settled _ settled := settled
  counted counted := counted

end Flow

/-- A receiving flow with the counter of its store. -/
structure CountedFlow where
  id : Nat
  flow : Flow
  bytes : Nat := 0

/-- The receiving flows of a session and the total they share. -/
structure ReceiveSession where
  flows : SortedBy CountedFlow.id := {}
  total : Nat := 0
  clean : Bool := true

inductive ReceiveAction
  | create (id : Nat) (state : FlowState)
  | fragment (id seq : Nat) (data : Bytes) (fragCtrl : FragCtrl)
  | messageData (id : Nat)
  | removeLastMessage (id : Nat)
  | removeFragmentsUntilSeq (id seq : Nat)
  | addSequencesUntil (id seq : Nat)
  | destroy (id : Nat)

namespace ReceiveSession

def eMaxReceivingFlows : Nat := 1024

def find (s : ReceiveSession) (id : Nat) : Option CountedFlow := s.flows.elems.find? fun e => e.id = id

def ledger (s : ReceiveSession) (e : CountedFlow) : Ledger := ⟨e.bytes, s.total, s.clean⟩

def onFlow (s : ReceiveSession) (id : Nat) (op : Flow.CountedOp) : ReceiveSession :=
  match s.find id with
  | none => s
  | some e =>
    let (flow, ledger) := op e.flow (s.ledger e)
    { flows := s.flows.assign { e with flow, bytes := ledger.own }, total := ledger.shared, clean := ledger.clean }

/-- `~flow` clears the store, and the destructor of the store gives back what it still counts. -/
def destroy (s : ReceiveSession) (id : Nat) : ReceiveSession :=
  match s.find id with
  | none => s
  | some e =>
    let ledger := (s.ledger e).release (s.ledger e).own
    let ledger := ledger.release ledger.own
    { flows := s.flows.filter fun e => e.id ≠ id, total := ledger.shared, clean := ledger.clean }

/-- `create_receiving_flow` for a flow that is not there yet; its options decide the state. -/
def create (s : ReceiveSession) (id : Nat) (state : FlowState) : ReceiveSession :=
  match s.find id with
  | none =>
    if s.flows.size ≥ eMaxReceivingFlows then s
    else { s with flows := s.flows.assign { id, flow := { role := .receiver, state } } }
  | some _ => s

def step (s : ReceiveSession) : ReceiveAction → ReceiveSession
  | .create id state => s.create id state
  | .fragment id seq data fragCtrl => s.onFlow id (Flow.takeFragment seq data fragCtrl)
  | .messageData id => s.onFlow id Flow.messageDataCounted
  | .removeLastMessage id => s.onFlow id Flow.removeLastCounted
  | .removeFragmentsUntilSeq id seq => s.onFlow id fun f ledger => f.removeUntilCounted ledger seq
  | .addSequencesUntil id seq => s.onFlow id fun f ledger => (f.addSequencesUntil seq, ledger)
  | .destroy id => s.destroy id

def run (actions : List ReceiveAction) : ReceiveSession := actions.foldl step {}

def held (l : List CountedFlow) : Nat := (l.map fun e => e.flow.fragments.bytes).sum

structure Exact (s : ReceiveSession) : Prop where
  bytes : ∀ e ∈ s.flows, e.bytes = e.flow.fragments.bytes
  settled : ∀ e ∈ s.flows, e.flow.Settled
  total : s.total = held s.flows.elems
  clean : s.clean = true
  within : s.total ≤ Flow.eMaxSessionBufferedBytes

theorem held_split (before after : List CountedFlow) (e : CountedFlow) :
    held (before ++ e :: after) = held before + held after + e.flow.fragments.bytes := by
  simp only [held, List.map_append, List.sum_append, List.map_cons, List.sum_cons]
  omega

variable {s : ReceiveSession} {e : CountedFlow} {id : Nat}

theorem mem_of_find (found : s.find id = some e) : e ∈ s.flows ∧ e.id = id :=
  ⟨List.mem_of_find?_eq_some found, by simpa using List.find?_some found⟩

/-- Each flow's counters are exact beside what the flows before and behind it hold. -/
theorem Exact.counted (exact : s.Exact) {before after : List CountedFlow}
    (split : s.flows.elems = before ++ e :: after) :
    Flow.Counted (s.ledger e) e.flow (held before + held after) := by
  have member : e ∈ s.flows := by
    show e ∈ s.flows.elems
    rw [split]
    exact List.mem_append_right _ List.mem_cons_self
  have total := exact.total
  rw [split, held_split] at total
  exact ⟨exact.bytes e member, total, exact.clean, total ▸ exact.within⟩

theorem Exact.onFlow (exact : s.Exact) {op : Flow.CountedOp} (keeps : op.Exact) : (s.onFlow id op).Exact := by
  unfold ReceiveSession.onFlow
  split
  · exact exact
  · rename_i e found
    obtain ⟨member, _⟩ := mem_of_find found
    obtain ⟨before, after, split, placed⟩ := SortedBy.assign_present
      (a := { e with flow := (op e.flow (s.ledger e)).1, bytes := (op e.flow (s.ledger e)).2.own }) member rfl
    have counted := keeps.counted (exact.counted split)
    refine ⟨SortedBy.forall_assign exact.bytes counted.own,
      SortedBy.forall_assign exact.settled (keeps.settled _ (exact.settled e member)), ?_,
      counted.clean, counted.shared.le.trans counted.within⟩
    rw [placed, held_split]
    exact counted.shared

theorem Exact.destroy (exact : s.Exact) (id : Nat) : (s.destroy id).Exact := by
  unfold ReceiveSession.destroy
  split
  · exact exact
  · rename_i e found
    obtain ⟨member, named⟩ := mem_of_find found
    obtain ⟨before, after, split⟩ := List.append_of_mem member
    have sorted := s.flows.sorted
    rw [split, List.pairwise_append, List.pairwise_cons] at sorted
    obtain ⟨_, ⟨behind, _⟩, ahead⟩ := sorted
    have left : (s.flows.filter fun e => e.id ≠ id).elems = before ++ after := by
      show s.flows.elems.filter _ = _
      rw [split, List.filter_append, List.filter_cons_of_neg (by simp [named]), List.filter_eq_self.mpr,
        List.filter_eq_self.mpr]
      · intro b later
        have := behind b later
        simp only [ne_eq, decide_eq_true_eq]
        omega
      · intro b earlier
        have := ahead b earlier e List.mem_cons_self
        simp only [ne_eq, decide_eq_true_eq]
        omega
    have counted := ((exact.counted split).releaseAll Flow.limit_small).releaseAll Flow.limit_small
    refine ⟨fun b inside => exact.bytes b (SortedBy.mem_filter.mp inside).1,
      fun b inside => exact.settled b (SortedBy.mem_filter.mp inside).1, ?_, counted.clean,
      counted.shared.le.trans counted.within⟩
    rw [left]
    refine counted.shared.trans ?_
    rw [Nat.add_zero, held, held, held, List.map_append, List.sum_append]

theorem Exact.create (exact : s.Exact) (id : Nat) (state : FlowState) : (s.create id state).Exact := by
  unfold ReceiveSession.create
  split
  · rename_i absent
    split
    · exact exact
    · have new : ∀ b ∈ s.flows, b.id ≠ id := fun b member => by
        simpa using List.find?_eq_none.mp absent b member
      obtain ⟨before, after, split, placed⟩ := SortedBy.assign_absent
        (a := { id, flow := { role := .receiver, state } : CountedFlow }) new
      refine ⟨SortedBy.forall_assign exact.bytes rfl, SortedBy.forall_assign exact.settled fun _ =>
        rfl, ?_, exact.clean,
        exact.within⟩
      rw [placed, held_split]
      refine exact.total.trans ?_
      rw [split, held, held, held, List.map_append, List.sum_append]
      rfl
  · exact exact

theorem Exact.step (exact : s.Exact) (action : ReceiveAction) : (s.step action).Exact := by
  cases action with
  | create id state => exact exact.create id state
  | fragment id seq data fragCtrl => exact exact.onFlow (Flow.takeFragment_exact seq data fragCtrl)
  | messageData id => exact exact.onFlow Flow.messageDataCounted_exact
  | removeLastMessage id => exact exact.onFlow Flow.removeLastCounted_exact
  | removeFragmentsUntilSeq id seq => exact exact.onFlow (Flow.removeUntilCounted_exact seq)
  | addSequencesUntil id seq => exact exact.onFlow (Flow.addSequencesUntil_exact seq)
  | destroy id => exact exact.destroy id

theorem Exact.steps (exact : s.Exact) (actions : List ReceiveAction) :
    (actions.foldl ReceiveSession.step s).Exact := by
  induction actions generalizing s with
  | nil => exact exact
  | cons action actions ih => exact ih (exact.step action)

theorem exact_fresh : Exact {} :=
  ⟨fun _ member => (by cases member), fun _ member => (by cases member), rfl, rfl, Nat.zero_le _⟩

/-- Whatever the flows of a session went through, each counter tells what its flow holds, the total
is what they hold together and within its bound, nothing was ever given back that was not charged, and
flows that are rejected or destroyed count for nothing. -/
theorem accounting_exact (actions : List ReceiveAction) :
    (∀ e ∈ (run actions).flows, e.bytes = (e.flow.fragments.elems.map fun g => g.data.length).sum) ∧
      (run actions).total = ((run actions).flows.elems.map CountedFlow.bytes).sum ∧
      (run actions).clean = true ∧ (run actions).total ≤ Flow.eMaxSessionBufferedBytes ∧
      (∀ e ∈ (run actions).flows, e.flow.state = .rejected → e.bytes = 0) ∧
      ∀ id, ∀ e ∈ ((run actions).step (.destroy id)).flows, e.id ≠ id := by
  have exact : (run actions).Exact := exact_fresh.steps actions
  refine ⟨exact.bytes, ?_, exact.clean, exact.within, fun e member rejected => ?_, fun id e member => ?_⟩
  · rw [exact.total, held]
    exact congrArg List.sum (List.map_congr_left fun e member => (exact.bytes e member).symm)
  · rw [exact.bytes e member, FragmentStore.bytes, exact.settled e member rejected]
    rfl
  · simp only [step, ReceiveSession.destroy] at member
    split at member
    · rename_i absent
      simpa using List.find?_eq_none.mp absent e member
    · simpa using (SortedBy.mem_filter.mp member).2

end ReceiveSession
end Fms.Rtmfp
