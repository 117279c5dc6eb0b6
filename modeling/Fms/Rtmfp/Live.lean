import Fms.Rtmfp.Reliable

namespace Fms.Rtmfp
open ByteWire Segments Transition

variable {start n : Nat} {s : Net} {old : Fragment}

/-- No buffered fragments that are marked as the pieces of one message, and that the
cumulative number has passed, have a hole between them. -/
def Flow.Unbroken (f : Flow) : Prop :=
  ∀ before run after, f.fragments.elems = before ++ (run ++ after) → (∀ g ∈ run, g.seq ≤ f.seqManager.csn) →
    ∀ m, Splits m (run.map Fragment.part) → ∃ start, run.map Fragment.seq = List.range' start run.length

theorem Flow.Unbroken.suffix {f g : Flow} (unbroken : f.Unbroken) (suffix : g.fragments.elems <:+ f.fragments.elems)
    (same : g.seqManager = f.seqManager) : g.Unbroken := by
  intro before run after buffer low
  obtain ⟨gone, older⟩ := suffix
  rw [buffer, ← List.append_assoc] at older
  exact unbroken (gone ++ before) run after older.symm (same ▸ low)

theorem Flow.unbroken_of_consecutive {f : Flow}
    (numbered : f.fragments.elems.map Fragment.seq = List.range' start f.fragments.elems.length) : f.Unbroken := by
  intro before run after buffer _ _ _
  refine ⟨start + before.length, ?_⟩
  rw [buffer, List.map_append, List.map_append, List.length_append, List.length_append, ← List.range'_append_1,
    ← List.range'_append_1] at numbered
  have rest := (List.append_inj numbered (by simp)).2
  exact (List.append_inj rest (by simp)).1

/-- The messages taken are some of the first queued ones, in order; nothing of those is
left in the buffer or can come into it any more. -/
def InOrder (queued taken : List Bytes) (rx : Flow) : Prop :=
  ∃ done ≤ queued.length, taken.Sublist (queued.take done) ∧
    (stream (queued.take done)).length ≤ rx.seqManager.csn ∧
    ∀ g ∈ rx.fragments, (stream (queued.take done)).length < g.seq

variable {queued taken : List Bytes} {f g : Flow}

theorem InOrder.weaken (inOrder : InOrder queued taken f) (grows : f.seqManager.csn ≤ g.seqManager.csn)
    (buffer : ∀ h ∈ g.fragments, h ∈ f.fragments ∨ f.seqManager.csn < h.seq) : InOrder queued taken g := by
  obtain ⟨done, bound, sub, passed, above⟩ := inOrder
  refine ⟨done, bound, sub, passed.trans grows, fun h member => ?_⟩
  rcases buffer h member with old | new
  · exact above h old
  · omega

theorem InOrder.queue (inOrder : InOrder queued taken f) (data : Bytes) : InOrder (queued ++ [data]) taken f := by
  obtain ⟨done, bound, sub, passed, above⟩ := inOrder
  have same : (queued ++ [data]).take done = queued.take done := List.take_append_of_le_length bound
  refine ⟨done, by rw [List.length_append]; omega, ?_, ?_, ?_⟩
  · rwa [same]
  · rwa [same]
  · rwa [same]

theorem InOrder.message (short : ∀ m ∈ queued, m.length ≤ Flow.eMaxMessageSize)
    (holds : Holds (stream queued) f.fragments) (unbroken : f.Unbroken) (inOrder : InOrder queued taken f) {m : Bytes}
    (found : f.messageData = (some m, g)) : InOrder queued (taken ++ [m]) g.removeLastMessage := by
  obtain ⟨⟨stale, run, buffer, _, splits, low⟩, same⟩ := Flow.messageData_some found
  obtain ⟨done, bound, sub, passed, above⟩ := inOrder
  obtain ⟨start, numbered⟩ := unbroken stale run _ buffer low m splits
  have inside (h : Fragment) (member : h ∈ run) : h ∈ f.fragments := by
    show h ∈ f.fragments.elems
    rw [buffer]
    simp [member]
  obtain ⟨earlier, later, rfl, position, parts⟩ :=
    run_is_message short numbered (fun h member => holds h (inside h member)) splits
  have seqs (n : Nat) : n ∈ run.map Fragment.seq ↔ start ≤ n ∧ n < start + run.length := by
    rw [numbered, List.mem_range'_1]
  have some : 0 < run.length := List.length_pos_iff.mpr fun none => splits.ne_nil (by rw [none]; rfl)
  obtain ⟨first, inRun, isFirst⟩ := List.mem_map.mp ((seqs start).mpr ⟨Nat.le_refl _, by omega⟩)
  obtain ⟨last, inRun', isLast⟩ := List.mem_map.mp ((seqs (start + run.length - 1)).mpr ⟨by omega, by omega⟩)
  have prior : done ≤ earlier.length := by
    by_contra beyond
    have longer := stream_take_lt short (Nat.lt_of_not_le beyond) bound
    rw [List.take_left] at longer
    have after := above first (inside first inRun)
    omega
  have upTo : (earlier ++ m :: later).take (earlier.length + 1) = earlier ++ [m] := by
    rw [List.take_length_add_append]
    rfl
  have finish : (stream (earlier ++ [m])).length = start + run.length - 1 := by
    rw [stream_append_singleton, List.length_append, ← parts, List.length_map]
    omega
  refine ⟨earlier.length + 1, by simp, ?_, ?_, fun h member => ?_⟩
  · rw [upTo]
    rw [List.take_append_of_le_length prior] at sub
    exact (sub.trans (List.take_sublist _ _)).append (List.Sublist.refl [m])
  · rw [upTo, finish, same.seqManager, ← isLast]
    exact low last inRun'
  · rw [upTo, finish, ← isLast]
    have sorted := f.fragments.sorted
    rw [buffer] at sorted
    exact (List.pairwise_append.mp (List.pairwise_append.mp sorted).2.1).2.2 last inRun' h member

theorem InOrder.takeMessages (short : ∀ m ∈ queued, m.length ≤ Flow.eMaxMessageSize)
    (holds : Holds (stream queued) f.fragments) (unbroken : f.Unbroken) (inOrder : InOrder queued taken f)
    (fuel : Nat) :
    InOrder queued (taken ++ (f.takeMessages fuel).1) (f.takeMessages fuel).2 := by
  refine (Flow.takeMessages_rule
    (I := fun taken f => Holds (stream queued) f.fragments ∧ f.Unbroken ∧ InOrder queued taken f)
    ?_ ?_ fuel taken ⟨holds, unbroken, inOrder⟩).2.2
  · rintro taken f m g found ⟨holds, unbroken, inOrder⟩
    obtain ⟨⟨stale, run, buffer, _⟩, same⟩ := Flow.messageData_some found
    have suffix : g.removeLastMessage.fragments.elems <:+ f.fragments.elems :=
      ⟨stale ++ run, by rw [buffer, List.append_assoc]⟩
    exact ⟨holds.derived (.of_subset fun h member => suffix.subset member), unbroken.suffix suffix same.seqManager,
      inOrder.message short holds unbroken found⟩
  · rintro taken f g found ⟨holds, unbroken, inOrder⟩
    obtain ⟨nothing, same⟩ := Flow.messageData_none found
    have suffix := Flow.scan_suffix f.seqManager.csn f.fragments.elems
    rw [nothing] at suffix
    exact ⟨holds.derived (.of_subset fun h member => suffix.subset member), unbroken.suffix suffix same.seqManager,
      inOrder.weaken (le_of_eq (by rw [same.seqManager])) fun h member => .inl (suffix.subset member)⟩

theorem Flow.addFragment_ordered (ordered : f.seqManager.Ordered) (frag : Fragment) :
    (f.addFragment frag).1.seqManager.Ordered ∧ f.seqManager.csn ≤ (f.addFragment frag).1.seqManager.csn ∧
      ∀ h ∈ (f.addFragment frag).1.fragments, h ∈ f.fragments ∨ f.seqManager.csn < h.seq := by
  obtain ⟨kept, grows, arrival⟩ := SeqManager.addSeq_ordered ordered frag.seq
  have added := f.added frag
  generalize (f.addFragment frag).1 = g at added ⊢
  cases added with
  | refused => exact ⟨ordered, Nat.le_refl _, fun h member => .inl member⟩
  | rejected => exact ⟨ordered, Nat.le_refl _, fun h member => (by cases member)⟩
  | duplicate => exact ⟨kept, grows, fun h member => .inl member⟩
  | stored _ accepted =>
    refine ⟨kept, grows, fun h member => ?_⟩
    rcases SortedBy.mem_assign.mp member with rfl | ⟨old, _⟩
    · exact .inr (arrival accepted)
    · exact .inl old

/-- Whatever a chunk brings, the cumulative number does not go back, and what is new in the
buffer lies above it. -/
theorem Flow.receive_ordered (ordered : f.seqManager.Ordered) (c : UserData) :
    (f.receive c).seqManager.Ordered ∧ f.seqManager.csn ≤ (f.receive c).seqManager.csn ∧
      ∀ h ∈ (f.receive c).fragments, h ∈ f.fragments ∨ f.seqManager.csn < h.seq := by
  have jump {g : Flow} (ordered : g.seqManager.Ordered) :=
    SeqManager.addSequencesUntil_ordered ordered c.forwardSeqNumber
  unfold Flow.receive
  dsimp only
  split
  · obtain ⟨kept, grows, buffer⟩ := Flow.addFragment_ordered ordered
      { seq := c.seqNumber, data := c.data.userData, fragCtrl := .ofByte c.data.fragCtl }
    exact ⟨(jump kept).1, grows.trans (jump kept).2, buffer⟩
  · split
    · exact ⟨(jump ordered).1, (jump ordered).2, fun h member => .inl (SortedBy.mem_filter.mp member).1⟩
    · exact ⟨(jump ordered).1, (jump ordered).2, fun h member => .inl member⟩

theorem InOrder.handle (short : ∀ m ∈ queued, m.length ≤ Flow.eMaxMessageSize) (ordered : f.seqManager.Ordered)
    (inOrder : InOrder queued taken f) {c : UserData} (holds : Holds (stream queued) (f.receive c).fragments)
    (unbroken : (f.receive c).Unbroken) :
    (f.handleUserData c).2.seqManager.Ordered ∧
      InOrder queued (taken ++ (f.handleUserData c).1) (f.handleUserData c).2 := by
  obtain ⟨ordered, grows, buffer⟩ := Flow.receive_ordered ordered c
  have inOrder := inOrder.weaken grows buffer
  unfold Flow.handleUserData
  dsimp only
  split
  · obtain ⟨ordered, grows⟩ := SeqManager.addSequencesUntil_ordered ordered c.seqNumber
    rw [List.append_nil]
    exact ⟨ordered, inOrder.weaken grows fun h member => .inl member⟩
  · have same := (Flow.takeMessages_suffix ((f.receive c).fragments.size + 1) (f.receive c)).2
    rw [same.seqManager]
    exact ⟨ordered, inOrder.takeMessages short holds unbroken _⟩

/-- The invariant of a live flow. -/
structure Net.Live (s : Net) : Prop where
  intact : s.Intact
  short : ∀ m ∈ s.queued, m.length ≤ Flow.eMaxMessageSize
  ordered : s.rx.seqManager.Ordered
  inOrder : InOrder s.queued s.taken s.rx

theorem Net.live_fresh (usage : Usage) (others : Nat) : (Net.fresh usage others).Live where
  intact := Net.intact_fresh usage others
  short _ member := by cases member
  ordered n member := absurd member (OrdSet.notMem_empty n)
  inOrder := ⟨0, Nat.le_refl _, List.Sublist.refl _, Nat.le_refl _, fun _ member => by cases member⟩

/-- Every message queued fits the 16-bit fragment count, and whenever the receiver looks for
messages, no message it could join has a hole. -/
def JoinsUnbroken (s : Net) : Action → Prop
  | .queue data => data.length ≤ Flow.eMaxMessageSize
  | .deliver i => ∀ c, s.sent[i]? = some c → (s.rx.receive c).Unbroken
  | _ => True

theorem Net.Live.deliver (live : s.Live) {i : Nat}
    (allowed : JoinsUnbroken s (.deliver i)) : (s.step (.deliver i)).Live := by
  have intact := live.intact.step (.deliver i)
  cases found : s.sent[i]? with
  | none =>
    rw [Net.step_deliver_none found]
    exact live
  | some c =>
    rw [Net.step_deliver found] at intact ⊢
    have holds := Flow.receive_holds live.intact.buffered (live.intact.sent c (List.mem_of_getElem? found))
    obtain ⟨ordered, inOrder⟩ := live.inOrder.handle live.short live.ordered holds (allowed c found)
    exact ⟨intact, live.short, ordered, inOrder⟩

theorem Net.Live.step (live : s.Live) {a : Action} (allowed : JoinsUnbroken s a) : (s.step a).Live := by
  have intact := live.intact.step a
  cases a with
  | queue data =>
    refine ⟨intact, fun m member => ?_, live.ordered, live.inOrder.queue data⟩
    rcases List.mem_append.mp member with old | new
    · exact live.short m old
    · rw [List.mem_singleton.mp new]
      exact allowed
  | send =>
    simp only [Net.step] at intact ⊢
    split at intact <;> exact { live with intact }
  | deliver i => exact live.deliver allowed
  | ack => exact { live with intact }
  | deliverAck i =>
    simp only [Net.step] at intact ⊢
    split at intact <;> exact { live with intact }
  | timeout => exact { live with intact }

/-- As long as no message with a hole is joined, a live flow delivers some of the queued
messages, whole, once and in order. -/
theorem live_delivery {others : Nat} {s : Net}
    (reach : Reach Net.step JoinsUnbroken (Net.fresh .audioVideo others) s) :
    s.taken.Sublist s.queued := by
  have live := reach.invariant (I := Net.Live) (Net.live_fresh .audioVideo others) fun allowed live =>
    live.step allowed
  obtain ⟨done, _, sub, _⟩ := live.inOrder
  exact sub.trans (List.take_sublist _ _)

theorem live_delivery_reordered :
    ∃ s, Reach Net.step JoinsUnbroken (Net.fresh .audioVideo 0) s ∧ s.taken = [[7], [8, 9]] ∧
      s.taken.Sublist s.queued := by
  have sent := ((((Reach.start : Reach Net.step JoinsUnbroken (Net.fresh .audioVideo 0) _).next
    (.queue [7]) (by decide : 1 ≤ Flow.eMaxMessageSize)).next
    (.queue [8, 9]) (by decide : 2 ≤ Flow.eMaxMessageSize)).next .send trivial).next .send trivial
  have later := sent.next (.deliver 1) fun c found => by
    cases found
    exact Flow.unbroken_of_consecutive (by decide : _ = List.range' 2 1)
  have run := later.next (.deliver 0) fun c found => by
    cases found
    exact Flow.unbroken_of_consecutive (by decide : _ = List.range' 1 2)
  exact ⟨_, run, by decide, live_delivery run⟩

/-- Three fragments are sent and the second is lost; the others arrive and are acknowledged, and the
second is due to be sent again. It is abandoned for the empty messages that follow, and the next chunk
tells the receiver to pass over it. -/
def tearing : List Action :=
  [.queue (List.replicate 2321 0), .send, .send, .send, .deliver 0, .deliver 2, .ack, .deliverAck 0, .timeout] ++
    List.replicate 256 (.queue []) ++ [.send, .deliver 3]

def torn : Net := tearing.foldl Net.step (Net.fresh .audioVideo 0)

set_option maxRecDepth 10000 in
/-- The sender abandons the fragment the receiver never got, and the receiver joins the two
around it. -/
theorem live_delivery_tears_message :
    ∃ s, Reach Net.step (fun _ a => a.Representable) (Net.fresh .audioVideo 0) s ∧ s.refused = false ∧
      s.rx.state = .isOpen ∧ ∃ m ∈ s.taken, m ∉ s.queued := by
  refine ⟨torn, Reach.start.foldl fun _ a member => ?_, ?_⟩
  · simp only [tearing, List.mem_append, List.mem_cons, List.mem_replicate, List.not_mem_nil, or_false] at member
    rcases member with ((rfl | rfl | rfl | rfl | rfl | rfl | rfl | rfl | rfl) | ⟨_, rfl⟩) | rfl | rfl
    · exact List.length_replicate.trans_lt (by decide)
    case inl.inr => exact Nat.two_pow_pos 32
    all_goals trivial
  · decide +kernel

end Fms.Rtmfp
