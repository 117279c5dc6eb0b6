import Fms.Rtmfp.Acknowledging
import Fms.Rtmfp.Delivery
import Fms.Rtmfp.Draining
import Fms.Rtmfp.SeqTracking

namespace Fms
open ByteWire Triangle

namespace SeqManager

/-- The numbers up to `k` have arrived, each behind the one before it. -/
def inOrder (k : Nat) : SeqManager := { csn := k, sum := tri k }

theorem addSeq_inOrder {k : Nat} (limit : k < eMaxCsn) : (inOrder k).addSeq (k + 1) = (inOrder (k + 1), .ok) := by
  have sum : wrap64 (tri k + (k + 1)) = tri (k + 1) := by
    rw [← tri_succ]
    exact wrap64_of_le (Nat.le_refl _) limit
  have step : k + 1 - k = 1 := by omega
  have small : wrap64 (k + 1) = k + 1 := Nat.mod_eq_of_lt (by unfold eMaxCsn at limit; omega)
  have expected : wrap64 ((k + 1) * wrap64 (k + 1 + 1)) / 2 = tri (k + 1) := by
    have next : wrap64 (k + 1 + 1) = k + 1 + 1 := Nat.mod_eq_of_lt (by unfold eMaxCsn at limit; omega)
    rw [next, wrapped_tri limit]
  have low : ¬(k + 1 ≤ k ∨ k + 1 - k > eMaxGap ∨ k + 1 > eMaxCsn ∨ k + 1 ∈ (∅ : OrdSet Nat)) := by
    rw [step, eMaxGap]
    rintro (behind | far | high | member)
    · omega
    · omega
    · omega
    · cases member
  have few : ¬((∅ : OrdSet Nat).size + (k + 1 - k) > eMaxMissing) := by
    rw [step]
    decide
  have known : k + 1 ∉ (∅ : OrdSet Nat) := fun member => by cases member
  unfold addSeq inOrder
  simp only [if_neg low, if_neg few, if_neg known, sum, sumNElements]
  rw [if_pos (by rw [show wrap64 (k + (∅ : OrdSet Nat).size + 1) = k + 1 from small, expected])]
  rfl

end SeqManager

namespace Rtmfp
open Segments Transition
namespace Flow

def eRecvWindowBlocks : Nat := 127

def advertisedRwnd (f : Flow) : Nat :=
  if f.fragments.size < eRecvWindowBlocks then eRecvWindowBlocks - f.fragments.size else 0

theorem advertisedRwnd_pos_iff (f : Flow) : 0 < f.advertisedRwnd ↔ f.fragments.size < eRecvWindowBlocks := by
  rw [advertisedRwnd]
  split <;> omega

theorem advertisedRwnd_lt (f : Flow) : f.advertisedRwnd < 2 ^ 16 := by
  rw [advertisedRwnd, eRecvWindowBlocks]
  split <;> omega

/-- A search that finds nothing and throws nothing away. -/
theorem messageData_nothing {f : Flow}
    (nothing : scan f.seqManager.csn f.fragments.elems = .nothing f.fragments.elems) :
    f.messageData = (none, f) := by
  unfold messageData
  simp only [nothing, SortedBy.restrict]
  rfl

end Flow

theorem sendFirst_idle {e : SendingFlow} {tsn : Nat} (idle : e.flow.inFlightCount = 0)
    (ready : (e.flow.sendFragment tsn).1.isSome = true) : (sendFirst tsn [e]).1.isSome = true ↔ 0 < e.prevRwnd := by
  rw [sendFirst, idle]
  split
  · rename_i closed
    simp only [sendFirst, Option.isSome_none, Bool.false_eq_true, false_iff]
    omega
  · rename_i isOpen
    refine iff_of_true ?_ (by omega)
    split
    · rfl
    · rename_i none
      rw [none] at ready
      cases ready

/-- A message of several fragments. -/
structure CutMessage where
  pieces : List Bytes
  several : 2 ≤ pieces.length

namespace CutMessage
variable (m : CutMessage)

def count : Nat := m.pieces.length

def bytes : Nat := (m.pieces.map List.length).sum

def fragCtrl (i : Nat) : FragCtrl := if i = 0 then .first else if i + 1 = m.count then .last else .middle

def fragment (i : Nat) : Fragment := { seq := i + 1, data := m.pieces.getD i [], fragCtrl := m.fragCtrl i }

/-- The chunk that carries a fragment; nothing is abandoned. -/
def chunk (i : Nat) : UserData where
  seqNumber := i + 1
  fsnOffset := i + 1
  data := { flags := createFlags (m.fragCtrl i) false false, options := [], userData := m.pieces.getD i [] }

def chunks : List UserData := (List.range m.count).map m.chunk

/-- The first fragments, as the buffer of the receiver has them. -/
def held (k : Nat) : FragmentStore :=
  ⟨(List.range k).map m.fragment, List.pairwise_map.mpr (List.pairwise_lt_range.imp Nat.succ_lt_succ)⟩

/-- The receiving flow when they have arrived in order. -/
def heldFlow (others k : Nat) : Flow :=
  { role := .receiver, others := some others, fragments := m.held k, seqManager := .inOrder k }

variable {m} {k : Nat}

theorem elems_held : (m.held k).elems = (List.range k).map m.fragment := rfl

theorem size_held : (m.held k).size = k := by rw [SortedBy.size, elems_held, List.length_map, List.length_range]

theorem bytes_held_succ :
    (m.held (k + 1)).bytes = (m.held k).bytes + (m.pieces.getD k []).length := by
  rw [FragmentStore.bytes, FragmentStore.bytes, elems_held, elems_held, List.range_succ, List.map_append,
    List.map_append, List.sum_append]
  simp [fragment]

theorem bytes_held (k : Nat) : (m.held k).bytes = ((m.pieces.take k).map List.length).sum := by
  induction k with
  | zero => rfl
  | succ k ih =>
    rw [bytes_held_succ, ih, List.take_add_one, List.map_append, List.sum_append, List.getD_eq_getElem?_getD]
    cases m.pieces[k]? <;> simp

theorem bytes_held_le (k : Nat) : (m.held k).bytes ≤ m.bytes := by
  rw [bytes_held, bytes]
  exact ((List.take_sublist k m.pieces).map _).sum_le_sum fun _ _ => Nat.zero_le _

theorem held_unfinished (unfinished : k < m.count) :
    ∀ g ∈ (m.held k).elems, ¬(g.fragCtrl = .whole ∨ g.fragCtrl = .last) := by
  intro g member
  obtain ⟨i, low, rfl⟩ := List.mem_map.mp member
  have below := List.mem_range.mp low
  unfold fragment fragCtrl
  rw [if_neg (show ¬ i + 1 = m.count by omega)]
  split <;> simp

theorem join_held (unfinished : k < m.count) (passed : Bytes) (i n : Nat) (inside : i + 1 + n ≤ k) :
    Flow.join k passed ((List.range' (i + 1) n).map m.fragment) = .incomplete := by
  induction n generalizing i passed with
  | zero => rfl
  | succ n ih =>
    have low : i + 1 + 1 ≤ k := by omega
    have middle : m.fragCtrl (i + 1) = .middle := by
      rw [fragCtrl, if_neg (by omega), if_neg (by omega)]
    rw [List.range'_succ, List.map_cons, Flow.join]
    simp only [fragment, if_pos low, middle]
    exact ih _ (i + 1) (by omega)

/-- Nothing is taken from the buffer before the last fragment is there. -/
theorem takeMessages_heldFlow (unfinished : k < m.count) (others fuel : Nat) :
    (m.heldFlow others k).takeMessages (fuel + 1) = ([], m.heldFlow others k) := by
  have nothing : Flow.scan k (m.held k).elems = .nothing (m.held k).elems := by
    cases k with
    | zero => rfl
    | succ k =>
      have rest : (m.held (k + 1)).elems = m.fragment 0 :: (List.range' 1 k).map m.fragment := by
        rw [elems_held, List.range_eq_range', List.range'_succ, List.map_cons]
      rw [rest, Flow.scan]
      simp only [fragment, fragCtrl, Nat.le_add_left, if_true]
      have open_ := join_held unfinished (m.pieces.getD 0 []) 0 k (by omega)
      simp only [Nat.zero_add] at open_
      rw [open_]
  rw [Flow.takeMessages, Flow.messageData_nothing nothing]

/-- The buffer bounds let the whole message in. -/
structure Fits (m : CutMessage) (others : Nat) : Prop where
  few : m.count ≤ Flow.eMaxBufferedFragments
  bytes : m.bytes < Flow.eMaxBufferedBytes
  shared : others + m.bytes < Flow.eMaxSessionBufferedBytes

variable {others : Nat}

theorem Fits.not_full (fits : m.Fits others) (inside : k < m.count) :
    (m.heldFlow others k).isFull (m.pieces.getD k []).length = false := by
  have bytes := bytes_held_le (m := m) (k + 1)
  rw [bytes_held_succ] at bytes
  have few := fits.few
  have own := fits.bytes
  have shared := fits.shared
  simp only [Flow.isFull, heldFlow, Flow.sharedBytes, size_held, Bool.or_eq_false_iff]
  exact ⟨⟨decide_eq_false (by omega), decide_eq_false (by omega)⟩, decide_eq_false (by omega)⟩

theorem Fits.receive (fits : m.Fits others) (inside : k < m.count) :
    (m.heldFlow others k).receive (m.chunk k) = m.heldFlow others (k + 1) := by
  have limit : k < SeqManager.eMaxCsn := by
    have few := fits.few
    unfold Flow.eMaxBufferedFragments at few
    unfold SeqManager.eMaxCsn
    omega
  obtain ⟨control, abandon, _⟩ := createFlags_bits (m.fragCtrl k) false false
  have own : FragCtrl.ofByte (m.chunk k).data.fragCtl = m.fragCtrl k := control
  have current : (m.chunk k).data.shouldAbandon = false := abandon
  have below : ∀ g ∈ (m.held k).elems, g.seq < (m.fragment k).seq := by
    intro g member
    obtain ⟨i, low, rfl⟩ := List.mem_map.mp member
    exact Nat.succ_lt_succ (List.mem_range.mp low)
  have placed : (m.held k).assign (m.fragment k) = m.held (k + 1) := by
    refine SortedBy.ext ((SortedBy.place_last below).trans ?_)
    rw [elems_held, elems_held, List.range_succ, List.map_append, List.map_singleton]
  have forward : (m.chunk k).forwardSeqNumber = 0 := by simp [UserData.forwardSeqNumber, chunk]
  have added : ((m.heldFlow others k).addFragment (m.fragment k)).1 = m.heldFlow others (k + 1) := by
    rw [Flow.addFragment,
      if_neg (by rw [show (m.fragment k).data = m.pieces.getD k [] from rfl, fits.not_full inside]; decide)]
    have next : (m.heldFlow others k).seqManager.addSeq (m.fragment k).seq = (.inOrder (k + 1), .ok) :=
      SeqManager.addSeq_inOrder limit
    rw [next]
    simp only [heldFlow, placed]
  unfold Flow.receive
  simp only [forward, own, current]
  exact added

theorem Fits.step (fits : m.Fits others) (unfinished : k + 1 < m.count) {s : Receiver}
    (arrived : s.flow = m.heldFlow others k) : (s.step (.userData (m.chunk k))).flow = m.heldFlow others (k + 1) := by
  obtain ⟨_, _, final⟩ := createFlags_bits (m.fragCtrl k) false false
  have last : (m.chunk k).data.isFinal = false := final
  rw [Receiver.step, arrived]
  simp only [Flow.handleUserData, fits.receive (Nat.lt_of_succ_lt unfinished), last, Bool.false_eq_true, if_false,
    takeMessages_heldFlow unfinished]

end CutMessage

namespace Receiver

/-- A receiver that has got the first fragments of a message. -/
def received (others : Nat) (m : CutMessage) (k : Nat) : Receiver :=
  ((List.range k).map fun i => .userData (m.chunk i)).foldl step (fresh others)

/-- What a peer is left with that sends the next chunk as long as the window it was told of is open. -/
def unsent (s : Receiver) : List UserData → List UserData
  | [] => []
  | c :: rest => if 0 < s.flow.advertisedRwnd then unsent (s.step (.userData c)) rest else c :: rest

/-- An open flow within its bounds that has no message ready. -/
structure Unfinished (others : Nat) (s : Receiver) : Prop where
  reach : Reach step (fun _ _ => True) (fresh others) s
  isOpen : s.flow.state = .isOpen
  few : s.flow.fragments.size < Flow.eMaxBufferedFragments
  bytes : s.flow.fragments.bytes < Flow.eMaxBufferedBytes
  shared : s.flow.sharedBytes < Flow.eMaxSessionBufferedBytes
  drained : s.Drained

theorem drained_of_unfinished {s : Receiver}
    (unfinished : ∀ g ∈ s.flow.fragments.elems, ¬(g.fragCtrl = .whole ∨ g.fragCtrl = .last)) : s.Drained := by
  intro ready
  obtain ⟨g, member, closes, _⟩ := ready.closer
  exact unfinished g member closes

variable {others k : Nat} {m : CutMessage}

theorem received_flow (fits : m.Fits others) (unfinished : k < m.count) :
    (received others m k).flow = m.heldFlow others k := by
  induction k with
  | zero => rfl
  | succ k ih =>
    rw [received, List.range_succ, List.map_append, List.foldl_append]
    exact fits.step unfinished (ih (Nat.lt_of_succ_lt unfinished))

/-- Every part of a message leaves the flow in a state in which it waits for the rest. -/
theorem received_unfinished (fits : m.Fits others)
    (unfinished : k < m.count) : Unfinished others (received others m k) := by
  have bytes := m.bytes_held_le k
  have few := fits.few
  have own := fits.bytes
  have shared := fits.shared
  have flow := received_flow fits unfinished
  refine ⟨Reach.start.foldl fun _ _ _ => trivial, ?_, ?_, ?_, ?_, drained_of_unfinished ?_⟩
  · rw [flow, CutMessage.heldFlow]
  · rw [flow, CutMessage.heldFlow, CutMessage.size_held]
    omega
  · rw [flow]
    exact Nat.lt_of_le_of_lt bytes own
  · rw [flow]
    simp only [CutMessage.heldFlow, Flow.sharedBytes]
    omega
  · rw [flow]
    exact CutMessage.held_unfinished unfinished

theorem unsent_eq (fits : m.Fits others) (n : Nat) (inside : k + n = m.count) {s : Receiver}
    (arrived : 0 < n → s.flow = m.heldFlow others k) :
    unsent s ((List.range' k n).map m.chunk) =
      ((List.range' k n).map m.chunk).drop (Flow.eRecvWindowBlocks - k) := by
  induction n generalizing k s with
  | zero => simp [unsent]
  | succ n ih =>
    have size : s.flow.fragments.size = k := by
      rw [arrived (Nat.succ_pos n)]
      exact CutMessage.size_held
    rw [List.range'_succ, List.map_cons, unsent]
    simp only [Flow.advertisedRwnd_pos_iff, size]
    split
    · rename_i isOpen
      rw [ih (by omega) fun more => fits.step (by omega) (arrived (Nat.succ_pos n)),
        show Flow.eRecvWindowBlocks - k = Flow.eRecvWindowBlocks - (k + 1) + 1 by omega, List.drop_succ_cons]
    · rename_i closed
      rw [Nat.sub_eq_zero_of_le (Nat.le_of_not_lt closed), List.drop_zero]

/-- While a flow waits for the rest of a message the window is open, and a peer that was told of it
goes on sending, exactly when fewer fragments are buffered than the window has blocks. So of a
message that the bounds allow, a peer that obeys the window sends as many fragments and no more. -/
theorem window_open_iff (fits : m.Fits others) :
    (∀ s, Unfinished others s → (0 < s.flow.advertisedRwnd ↔ s.flow.fragments.size < Flow.eRecvWindowBlocks) ∧
      ∀ (e : SendingFlow) (tsn : Nat), e.prevRwnd = s.flow.advertisedRwnd % 2 ^ 16 → e.flow.inFlightCount = 0 →
        (e.flow.sendFragment tsn).1.isSome = true →
        ((sendFirst tsn [e]).1.isSome = true ↔ s.flow.fragments.size < Flow.eRecvWindowBlocks)) ∧
    (∀ k < m.count, Unfinished others (received others m k) ∧
      (0 < (received others m k).flow.advertisedRwnd ↔ k < Flow.eRecvWindowBlocks)) ∧
    unsent (fresh others) m.chunks = m.chunks.drop Flow.eRecvWindowBlocks ∧
    (unsent (fresh others) m.chunks = [] ↔ m.count ≤ Flow.eRecvWindowBlocks) := by
  have left : unsent (fresh others) m.chunks = m.chunks.drop Flow.eRecvWindowBlocks := by
    rw [CutMessage.chunks, List.range_eq_range']
    exact unsent_eq fits m.count (Nat.zero_add _) fun _ => rfl
  refine ⟨fun s _ => ⟨s.flow.advertisedRwnd_pos_iff, fun e tsn told idle ready => ?_⟩, fun k unfinished =>
    ?_, left, ?_⟩
  · rw [sendFirst_idle idle ready, told, Nat.mod_eq_of_lt s.flow.advertisedRwnd_lt, s.flow.advertisedRwnd_pos_iff]
  · refine ⟨received_unfinished fits unfinished, ?_⟩
    rw [Flow.advertisedRwnd_pos_iff, received_flow fits unfinished, CutMessage.heldFlow, CutMessage.size_held]
  · rw [left, List.drop_eq_nil_iff, CutMessage.chunks, List.length_map, List.length_range]

/-- A message of `n + 2` one-byte fragments. -/
def bytewise (n : Nat) : CutMessage := ⟨List.replicate (n + 2) [0], by simp⟩

theorem bytewise_fits {n : Nat} (few : n + 2 ≤ Flow.eMaxBufferedFragments) : (bytewise n).Fits 0 := by
  have bytes : (bytewise n).bytes = n + 2 := by simp [CutMessage.bytes, bytewise]
  have count : (bytewise n).count = n + 2 := List.length_replicate ..
  unfold Flow.eMaxBufferedFragments at few
  refine ⟨by rw [count]; exact few, ?_, ?_⟩ <;> rw [bytes] <;>
    simp only [Flow.eMaxSessionBufferedBytes, Flow.eMaxBufferedBytes] <;> omega

/-- Two of three fragments have arrived, and the third goes through. -/
theorem window_open_third :
    0 < (received 0 (bytewise 1) 2).flow.advertisedRwnd ∧ unsent (fresh 0) (bytewise 1).chunks = [] := by
  obtain ⟨_, parts, _, all⟩ := window_open_iff (bytewise_fits (n := 1) (by decide))
  exact ⟨(parts 2 (by decide)).2.mpr (by decide), all.mpr (by decide)⟩

/-- A sender with one fragment to send that was told of a closed window. -/
def blocked : SendingFlow where
  id := 2
  flow := Flow.addAndFragmentData { role := .sender } [0]
  prevRwnd := 0

/-- With 127 of 128 fragments of a message the window is closed, and the sender waits with nothing in
flight that could be acknowledged. -/
theorem window_closes_on_unfinished :
    Unfinished 0 (received 0 (bytewise 126) 127) ∧ (received 0 (bytewise 126) 127).flow.advertisedRwnd = 0 ∧
      blocked.flow.inFlightCount = 0 ∧ (blocked.flow.sendFragment 1).1.isSome = true ∧
      (sendFirst 1 [blocked]).1.isSome = false := by
  have fits := bytewise_fits (n := 126) (by decide)
  have unfinished : 127 < (bytewise 126).count := Nat.lt_of_lt_of_eq (by decide) (List.length_replicate ..).symm
  refine ⟨received_unfinished fits unfinished, ?_, by decide, by decide, by decide⟩
  rw [received_flow fits unfinished, Flow.advertisedRwnd, CutMessage.heldFlow, CutMessage.size_held]
  rfl

end Receiver
end Rtmfp
end Fms
