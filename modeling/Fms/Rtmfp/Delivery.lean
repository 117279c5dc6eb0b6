import Fms.Rtmfp.Reassembly
import Fms.Rtmfp.SeqTracking

namespace Fms.Rtmfp
open ByteWire Segments

variable {parts : List (FragCtrl × Bytes)} {old : FragmentStore} {f g : Flow} {frag : Fragment}

/-- The fragments of all messages, in the order they are numbered. -/
def stream (msgs : List Bytes) : List (FragCtrl × Bytes) := msgs.flatMap Flow.cut

/-- A sequence number stands for this part of a stream. -/
def Carries (parts : List (FragCtrl × Bytes)) (seq : Nat) (part : FragCtrl × Bytes) : Prop :=
  1 ≤ seq ∧ parts[seq - 1]? = some part

theorem Carries.append {seq : Nat} {part : FragCtrl × Bytes} (carries : Carries parts seq part)
    (more : List (FragCtrl × Bytes)) : Carries (parts ++ more) seq part := by
  obtain ⟨inside, value⟩ := List.getElem?_eq_some_iff.mp carries.2
  exact ⟨carries.1, by rw [List.getElem?_append_left inside, carries.2]⟩

theorem Carries.le_length {seq : Nat} {part : FragCtrl × Bytes}
    (carries : Carries parts seq part) : seq ≤ parts.length := by
  obtain ⟨inside, _⟩ := List.getElem?_eq_some_iff.mp carries.2
  omega

theorem stream_append_singleton (msgs : List Bytes)
    (m : Bytes) : stream (msgs ++ [m]) = stream msgs ++ Flow.cut m := by
  simp [stream]

theorem stream_take_lt {msgs : List Bytes} (short : ∀ m ∈ msgs, m.length ≤ Flow.eMaxMessageSize) {i j : Nat}
    (less : i < j) (bound : j ≤ msgs.length) : (stream (msgs.take i)).length < (stream (msgs.take j)).length :=
  length_flatMap_take_lt (fun m member => Flow.cut_ne_nil (short m member)) less bound

/-- Fragments numbered one after the other are a stretch of the stream. -/
theorem drop_eq_of_numbered {run : List Fragment} {start : Nat} (lower : 1 ≤ start)
    (numbered : run.map Fragment.seq = List.range' start run.length)
    (carried : ∀ g ∈ run, Carries parts g.seq g.part) :
    parts.drop (start - 1) = run.map Fragment.part ++ parts.drop (start - 1 + run.length) := by
  induction run generalizing start with
  | nil => rfl
  | cons g run ih =>
    rw [List.map_cons, List.length_cons, List.range'_succ] at numbered
    obtain ⟨same, numbered⟩ := List.cons.inj numbered
    have here := (carried g (List.mem_cons_self ..)).2
    rw [same] at here
    obtain ⟨inside, value⟩ := List.getElem?_eq_some_iff.mp here
    have tail := ih (by omega) numbered fun g member => carried g (List.mem_cons_of_mem _ member)
    rw [Nat.add_sub_cancel] at tail
    rw [List.drop_eq_getElem_cons inside, value, show start - 1 + 1 = start by omega, tail, List.map_cons,
      List.length_cons, List.cons_append, show start - 1 + (run.length + 1) = start + run.length by omega]

/-- Consecutive fragments that are marked as the pieces of a message are the pieces of one
of the messages of the stream. -/
theorem run_is_message {msgs : List Bytes} (short : ∀ m ∈ msgs, m.length ≤ Flow.eMaxMessageSize) {run : List Fragment}
    {start : Nat} {m : Bytes} (numbered : run.map Fragment.seq = List.range' start run.length)
    (carried : ∀ g ∈ run, Carries (stream msgs) g.seq g.part) (splits : Splits m (run.map Fragment.part)) :
    ∃ earlier later, msgs = earlier ++ m :: later ∧ (stream earlier).length + 1 = start ∧
      run.map Fragment.part = Flow.cut m := by
  obtain ⟨g, tail, rfl⟩ : ∃ g tail, run = g :: tail :=
    List.exists_cons_of_ne_nil fun none => splits.ne_nil (by rw [none]; rfl)
  have first := carried g (List.mem_cons_self ..)
  have same : g.seq = start := by
    rw [List.map_cons, List.length_cons, List.range'_succ] at numbered
    exact (List.cons.inj numbered).1
  have inside := first.le_length
  rw [same] at inside
  have lower : 1 ≤ start := same ▸ first.1
  have split := drop_eq_of_numbered lower numbered carried
  have whole : stream msgs = (stream msgs).take (start - 1) ++ ((g :: tail).map Fragment.part ++
      (stream msgs).drop (start - 1 + (g :: tail).length)) := by
    rw [← split, List.take_append_drop]
  obtain ⟨earlier, later, messages, before, parts⟩ :=
    splits.aligned (fun m member => Flow.cut_splits (short m member)) whole
  refine ⟨earlier, later, messages, ?_, parts⟩
  have length : ((stream msgs).take (start - 1)).length = (stream earlier).length := congrArg List.length before
  rw [List.length_take] at length
  omega

def UserData.part (c : UserData) : FragCtrl × Bytes := (.ofByte c.data.fragCtl, c.data.userData)

theorem createFlags_bits (fragCtrl : FragCtrl) (abandon final : Bool) :
    FragCtrl.ofByte ((createFlags fragCtrl abandon final >>> 4) &&& 0x03) = fragCtrl ∧
      decide (createFlags fragCtrl abandon final &&& 0x02 ≠ 0) = abandon ∧
      decide (createFlags fragCtrl abandon final &&& 0x01 ≠ 0) = final := by
  cases fragCtrl <;> cases abandon <;> cases final <;> decide

/-- Every fragment of a store carries its part of the stream. -/
def Holds (parts : List (FragCtrl × Bytes)) (store : FragmentStore) : Prop :=
  ∀ g ∈ store, Carries parts g.seq g.part

/-- Every fragment of a store stands for one of another: flags apart, they are the same. -/
def Derived (old new : FragmentStore) : Prop := ∀ g ∈ new, ∃ f ∈ old, g.seq = f.seq ∧ g.part = f.part

theorem Derived.refl (store : FragmentStore) : Derived store store := fun g member => ⟨g, member, rfl, rfl⟩

theorem Derived.trans {a b c : FragmentStore} (first : Derived a b) (second : Derived b c) : Derived a c := by
  intro g member
  obtain ⟨f, inside, seq, part⟩ := second g member
  obtain ⟨e, inside', seq', part'⟩ := first f inside
  exact ⟨e, inside', seq.trans seq', part.trans part'⟩

theorem Derived.of_subset {new : FragmentStore} (subset : ∀ g ∈ new, g ∈ old) : Derived old new :=
  fun g member => ⟨g, subset g member, rfl, rfl⟩

theorem Derived.update {f : Fragment → Fragment} (same : ∀ a, (f a).seq = a.seq) (part : ∀ a, (f a).part = a.part) :
    Derived old (old.update f same) := by
  intro g member
  obtain ⟨a, inside, rfl⟩ := (SortedBy.mem_update same).mp member
  exact ⟨a, inside, same a, part a⟩

theorem Holds.derived {new : FragmentStore} (holds : Holds parts old)
    (derived : Derived old new) : Holds parts new := by
  intro g member
  obtain ⟨f, inside, seq, part⟩ := derived g member
  rw [seq, part]
  exact holds f inside

theorem Holds.append {store : FragmentStore} (holds : Holds parts store) (more : List (FragCtrl × Bytes)) :
    Holds (parts ++ more) store :=
  fun g member => (holds g member).append more

theorem Holds.assign {store : FragmentStore} (holds : Holds parts store)
    (carries : Carries parts frag.seq frag.part) :
    Holds parts (store.assign frag) := by
  intro g member
  rcases SortedBy.mem_assign.mp member with rfl | ⟨old, _⟩
  · exact carries
  · exact holds g old

namespace Flow

/-- The four ways `add_fragment` can go. -/
inductive Added (f : Flow) (frag : Fragment) : Flow → Prop
  | refused : f.isFull frag.data.length = true → f.role = .sender → Added f frag f
  | rejected : f.isFull frag.data.length = true → f.role = .receiver →
      Added f frag { f with fragments := {}, state := .rejected }
  | duplicate : f.isFull frag.data.length = false → (f.seqManager.addSeq frag.seq).2 = .duplicate →
      Added f frag { f with seqManager := (f.seqManager.addSeq frag.seq).1 }
  | stored : f.isFull frag.data.length = false → (f.seqManager.addSeq frag.seq).2 ≠ .duplicate →
      Added f frag { f with seqManager := (f.seqManager.addSeq frag.seq).1, fragments := f.fragments.assign frag }

theorem added (f : Flow) (frag : Fragment) : Added f frag (f.addFragment frag).1 := by
  unfold addFragment
  split
  · rename_i full
    split
    · rename_i sender
      exact .refused full sender
    · rename_i receiver
      exact .rejected full receiver
  · rename_i room
    rw [Bool.not_eq_true] at room
    split
    · rename_i found
      have stored := Added.duplicate room (congrArg Prod.snd found)
      rwa [found] at stored
    · rename_i accepted found
      have stored := Added.stored room (fun same => accepted ((congrArg Prod.snd found).symm.trans same))
      rwa [found] at stored

theorem addFragment_nextSn (f : Flow) (frag : Fragment) : (f.addFragment frag).1.nextSn = f.nextSn := by
  have added := f.added frag
  generalize (f.addFragment frag).1 = g at added ⊢
  cases added <;> rfl

theorem addFragment_holds (holds : Holds parts f.fragments) (carries : Carries parts frag.seq frag.part) :
    Holds parts (f.addFragment frag).1.fragments := by
  have added := f.added frag
  generalize (f.addFragment frag).1 = g at added ⊢
  cases added with
  | refused => exact holds
  | rejected => exact fun g member => (by cases member)
  | duplicate => exact holds
  | stored => exact holds.assign carries

theorem enqueue_holds (next : f.nextSn = parts.length + 1) (holds : Holds parts f.fragments)
    (part : FragCtrl × Bytes) :
    (f.enqueue part).nextSn = (parts ++ [part]).length + 1 ∧ Holds (parts ++ [part]) (f.enqueue part).fragments := by
  refine ⟨?_, addFragment_holds (holds.append _) ⟨by simp [next], ?_⟩⟩
  · rw [enqueue, addFragment_nextSn, next, List.length_append, List.length_singleton]
  · simp only [next, Nat.add_sub_cancel, List.getElem?_concat_length, Fragment.part]

theorem foldl_enqueue_holds (next : f.nextSn = parts.length + 1) (holds : Holds parts f.fragments)
    (more : List (FragCtrl × Bytes)) :
    (more.foldl enqueue f).nextSn = (parts ++ more).length + 1 ∧
      Holds (parts ++ more) (more.foldl enqueue f).fragments := by
  induction more generalizing f parts with
  | nil => exact ⟨by simpa using next, by simpa using holds⟩
  | cons part more ih =>
    obtain ⟨next, holds⟩ := enqueue_holds next holds part
    have rest := ih next holds
    rwa [List.append_assoc, List.singleton_append] at rest

/-- The walk marks the oldest fragments up to the target, and the rest keeps its marks. -/
theorem abandonFrom_eq (target abandoned : Nat) (l : List Fragment) :
    abandonFrom target abandoned l =
      (l.take (target - abandoned)).map (fun f => { f with abandoned := true }) ++ l.drop (target - abandoned) := by
  induction l generalizing abandoned with
  | nil => simp [abandonFrom]
  | cons f rest ih =>
    by_cases reached : abandoned < target
    · have left : target - abandoned = target - (abandoned + 1) + 1 := by omega
      simp only [abandonFrom, reached, decide_true, Bool.or_true, if_true, ih, left, List.take_succ_cons,
        List.map_cons, List.drop_succ_cons, List.cons_append]
      split
      · rename_i done
        rw [Nat.sub_eq_zero_of_le done.1]
        rfl
      · rfl
    · have none : target - abandoned = 0 := by omega
      have further : target - (abandoned + 1) = 0 := by omega
      obtain ⟨_, _, _, _, marked, _, _, _⟩ := f
      cases marked
      · simp [abandonFrom, reached, ih, none]
      · simp [abandonFrom, reached, ih, none, further]

theorem mem_abandonFrom {target abandoned : Nat} {l : List Fragment} {g : Fragment}
    (member : g ∈ abandonFrom target abandoned l) : ∃ f ∈ l, g.seq = f.seq ∧ g.part = f.part := by
  rw [abandonFrom_eq] at member
  rcases List.mem_append.mp member with marked | kept
  · obtain ⟨f, inside, rfl⟩ := List.mem_map.mp marked
    exact ⟨f, List.mem_of_mem_take inside, rfl, rfl⟩
  · exact ⟨g, List.mem_of_mem_drop kept, rfl, rfl⟩

theorem abandonStaleFragments_derived (f : Flow) : Derived f.fragments f.abandonStaleFragments.fragments := by
  unfold abandonStaleFragments
  split
  · exact .refl _
  · exact fun g member => mem_abandonFrom member

theorem abandonStaleFragments_nextSn (f : Flow) : f.abandonStaleFragments.nextSn = f.nextSn := by
  unfold abandonStaleFragments
  split <;> rfl

/-- What sending, acknowledgements and timeouts do to a flow: fragments can go and change
their flags. -/
structure Follows (f g : Flow) : Prop where
  role : g.role = f.role
  usage : g.usage = f.usage
  nextSn : g.nextSn = f.nextSn
  seqManager : g.seqManager = f.seqManager
  derived : Derived f.fragments g.fragments

theorem Follows.trans {h : Flow} (first : Follows f g) (second : Follows g h) : Follows f h where
  role := second.role.trans first.role
  usage := second.usage.trans first.usage
  nextSn := second.nextSn.trans first.nextSn
  seqManager := second.seqManager.trans first.seqManager
  derived := first.derived.trans second.derived

theorem eraseAcked_follows (f : Flow) (acked : Fragment → Bool) : Follows f (f.eraseAcked acked).1 :=
  ⟨rfl, rfl, rfl, rfl, .of_subset fun _ member => (SortedBy.mem_filter.mp member).1⟩

theorem updateNakCount_follows (f : Flow) (maxTsn : Nat) : Follows f (f.updateNakCount maxTsn) :=
  ⟨rfl, rfl, rfl, rfl, .update (fun a => by split <;> rfl) fun a => by split <;> rfl⟩

theorem onTimeoutAlarm_follows (f : Flow) : Follows f f.onTimeoutAlarm :=
  ⟨rfl, rfl, rfl, rfl, .update (f := fun frag => { frag with inFlight := false }) (fun _ => rfl) fun _ => rfl⟩

theorem handleRangeAck_follows (f : Flow) (maxTsnAck : Nat) (ack : RangeAck) :
    Follows f (f.handleRangeAck maxTsnAck ack).1 := by
  unfold handleRangeAck
  refine Follows.trans ?_ (updateNakCount_follows _ _)
  refine List.foldlRecOn (motive := fun p : Flow × Nat => Follows f p.1) _ _ (eraseAcked_follows f _) ?_
  exact fun p follows range _ => follows.trans (eraseAcked_follows p.1 _)

theorem getFragmentForSending_follows (f : Flow) : Follows f f.getFragmentForSending.2 := by
  have kept :
      Derived f.fragments (f.fragments.restrict _ (dropAbandoned_sublist f.fragments.size f.fragments.elems)) :=
    .of_subset fun g member => (dropAbandoned_sublist _ _).subset member
  unfold getFragmentForSending
  dsimp only
  split
  · exact ⟨rfl, rfl, rfl, rfl, kept⟩
  · split <;> exact ⟨rfl, rfl, rfl, rfl, kept⟩

theorem getFragmentForSending_elems (f : Flow) :
    f.getFragmentForSending.2.fragments.elems = dropAbandoned f.fragments.size f.fragments.elems := by
  unfold getFragmentForSending
  dsimp only
  split
  · rfl
  · split <;> rfl

theorem getFragmentForSending_some {fsn : Nat} (found : f.getFragmentForSending.1 = some (frag, fsn)) :
    ∃ oldest rest, dropAbandoned f.fragments.size f.fragments.elems = oldest :: rest ∧ frag ∈ oldest :: rest ∧
      fsn = forwardSn oldest := by
  unfold getFragmentForSending at found
  dsimp only at found
  split at found
  · cases found
  · rename_i oldest rest left
    refine ⟨oldest, rest, left, ?_⟩
    split at found
    · cases found
      exact ⟨List.mem_cons_self .., rfl⟩
    · obtain ⟨next, same⟩ := Option.map_eq_some_iff.mp found
      cases same.2
      exact ⟨List.mem_cons_of_mem _ (List.mem_of_find?_eq_some same.1), rfl⟩

theorem sendFragment_follows (f : Flow) (tsn : Nat) : Follows f (f.sendFragment tsn).2 := by
  have taken := f.getFragmentForSending_follows
  unfold sendFragment
  split
  · rename_i found
    rwa [found] at taken
  · rename_i found
    rw [found] at taken
    refine taken.trans ⟨rfl, rfl, rfl, rfl, .update (fun g => ?_) fun g => ?_⟩
    · split <;> rfl
    · split <;> rfl

theorem forwardSn_le (oldest : Fragment) : forwardSn oldest ≤ oldest.seq := by
  unfold forwardSn
  split
  · exact Nat.sub_le _ _
  · split
    · exact Nat.sub_le _ _
    · exact Nat.le_refl _

theorem sendFragment_some {tsn : Nat} {c : UserData} (sent : f.sendFragment tsn = (some c, g)) :
    ∃ frag ∈ f.fragments, c.seqNumber = frag.seq ∧ c.part = frag.part ∧ c.data.shouldAbandon = frag.abandoned ∧
      c.data.isFinal = false ∧ ∃ oldest rest, dropAbandoned f.fragments.size f.fragments.elems = oldest :: rest ∧
        c.forwardSeqNumber = forwardSn oldest := by
  unfold sendFragment at sent
  split at sent
  · cases sent
  · rename_i frag fsn _ found
    obtain ⟨oldest, rest, left, member, rfl⟩ := getFragmentForSending_some (congrArg Prod.fst found)
    obtain ⟨ctrl, abandon, final⟩ := createFlags_bits frag.fragCtrl frag.abandoned false
    have inside : frag ∈ f.fragments := (dropAbandoned_sublist _ _).subset (left ▸ member)
    have sorted := f.fragments.sorted.sublist (left ▸ dropAbandoned_sublist f.fragments.size f.fragments.elems)
    have older : oldest.seq ≤ frag.seq := by
      rcases List.mem_cons.mp member with rfl | later
      · exact Nat.le_refl _
      · exact (List.pairwise_cons.mp sorted).1 frag later |>.le
    have forward := forwardSn_le oldest
    cases sent
    refine ⟨frag, inside, rfl, Prod.ext ctrl rfl, abandon, final, oldest, rest, left, ?_⟩
    simp only [UserData.forwardSeqNumber]
    rw [if_neg (by omega)]
    omega

theorem receive_holds {c : UserData} (holds : Holds parts f.fragments) (carries : Carries parts c.seqNumber c.part) :
    Holds parts (f.receive c).fragments := by
  unfold receive addSequencesUntil
  dsimp only
  split
  · exact addFragment_holds holds carries
  · split
    · exact holds.derived (.of_subset fun g member => (SortedBy.mem_filter.mp member).1)
    · exact holds

end Flow

/-- Every fragment in the system carries its part of the stream of queued messages. -/
structure Net.Intact (s : Net) : Prop where
  next : s.tx.nextSn = (stream s.queued).length + 1
  stored : Holds (stream s.queued) s.tx.fragments
  sent : ∀ c ∈ s.sent, Carries (stream s.queued) c.seqNumber c.part
  buffered : Holds (stream s.queued) s.rx.fragments

theorem Net.intact_fresh (usage : Usage) (others : Nat) : (Net.fresh usage others).Intact where
  next := rfl
  stored _ member := by cases member
  sent _ member := by cases member
  buffered _ member := by cases member

theorem Net.Intact.follows {s : Net} (intact : s.Intact) {tx : Flow} (follows : Flow.Follows s.tx tx) :
    { s with tx }.Intact :=
  { intact with
    next := follows.nextSn.trans intact.next
    stored := intact.stored.derived follows.derived }

theorem Net.Intact.step {s : Net} (intact : s.Intact) (a : Action) : (s.step a).Intact := by
  cases a with
  | queue data =>
    obtain ⟨next, holds⟩ := Flow.foldl_enqueue_holds intact.next intact.stored (Flow.cut data)
    have grown := stream_append_singleton s.queued data
    refine ⟨?_, ?_, ?_, ?_⟩
    · show ((Flow.cut data).foldl Flow.enqueue s.tx).abandonStaleFragments.nextSn =
        (stream (s.queued ++ [data])).length + 1
      rw [Flow.abandonStaleFragments_nextSn, next, grown]
    · show Holds (stream (s.queued ++ [data])) _
      rw [grown]
      exact holds.derived (Flow.abandonStaleFragments_derived _)
    · intro c member
      show Carries (stream (s.queued ++ [data])) _ _
      rw [grown]
      exact (intact.sent c member).append _
    · show Holds (stream (s.queued ++ [data])) _
      rw [grown]
      exact intact.buffered.append _
  | send =>
    have follows := s.tx.sendFragment_follows s.nextTsn
    simp only [Net.step]
    split
    · rename_i found
      rw [found] at follows
      exact intact.follows follows
    · rename_i chunk tx found
      rw [found] at follows
      obtain ⟨frag, inside, seq, part, _⟩ := Flow.sendFragment_some found
      refine { intact.follows follows with sent := fun c member => ?_ }
      rcases List.mem_append.mp member with old | new
      · exact intact.sent c old
      · obtain rfl := List.mem_singleton.mp new
        rw [seq, part]
        exact intact.stored frag inside
  | deliver i =>
    simp only [Net.step]
    split
    · exact intact
    · rename_i chunk found
      have carries := intact.sent chunk (List.mem_of_getElem? found)
      have received := Flow.receive_holds intact.buffered carries
      refine { intact with buffered := ?_ }
      unfold Flow.handleUserData
      dsimp only
      split
      · exact received
      · exact received.derived (.of_subset fun g member => (Flow.takeMessages_suffix _ _).1.subset member)
  | ack => exact { intact with }
  | deliverAck i =>
    simp only [Net.step]
    split
    · exact intact
    · exact { intact.follows (Flow.handleRangeAck_follows _ _ _) with }
  | timeout => exact intact.follows (Flow.onTimeoutAlarm_follows _)

end Fms.Rtmfp
