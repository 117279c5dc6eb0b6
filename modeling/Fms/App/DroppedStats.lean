import Fms.App.SendQueue
import Fms.Base.Dict
import Fms.Base.Transition
import Mathlib.Data.List.Perm.Basic

namespace Fms
open AsyncQueue

/-- The queues of `rtmp_application` and, by connection and stream, the counters of
`netstream_stats_registry`; beside them what shedding took from each netstream since its
entry was created. -/
structure DroppedStats where
  maxQueueBytes : UInt64
  asyncMessages : Dict UInt32 (AsyncQueue RtmpMessage) := ∅
  messagesDropped : Dict (UInt32 × UInt32) UInt32 := ∅
  shed : UInt32 × UInt32 → Nat := fun _ => 0

namespace DroppedStats

/-- How many messages of a stream are missing from what is left of a queue. -/
def lost (before after : List RtmpMessage) (stream : UInt32) : Nat :=
  (before.countP fun msg => msg.streamId = stream) - after.countP fun msg => msg.streamId = stream

def queueOf (s : DroppedStats) (connectionId : UInt32) : AsyncQueue RtmpMessage :=
  (s.asyncMessages.lookup connectionId).getD {}

/-- `netstream_stats_registry::add_dropped`: only an entry that exists is charged. -/
def addDropped (s : DroppedStats) (key : UInt32 × UInt32) (size : Nat) : Dict (UInt32 × UInt32) UInt32 :=
  match s.messagesDropped.lookup key with
  | some dropped => s.messagesDropped.insert key (dropped + UInt32.ofNat size)
  | none => s.messagesDropped

def waiting (q : AsyncQueue RtmpMessage) (msg : RtmpMessage) (urgent : Bool) : List RtmpMessage :=
  if urgent then msg :: q.msgs else q.msgs ++ [msg]

/-- What a push sheds of a stream. -/
def lostBy (s : DroppedStats) (connectionId : UInt32) (msg : RtmpMessage) (urgent : Bool) : UInt32 → Nat :=
  lost (waiting (s.queueOf connectionId) msg urgent)
    ((s.queueOf connectionId).push id s.maxQueueBytes msg urgent).queue.msgs

/-- `enqueue_async_message_unchecked`: what was dropped is charged to the stream of the
message that was pushed. -/
def enqueue (s : DroppedStats) (connectionId : UInt32) (msg : RtmpMessage) (urgent : Bool) : DroppedStats :=
  let pushed := (s.queueOf connectionId).push id s.maxQueueBytes msg urgent
  { s with
    asyncMessages := s.asyncMessages.insert connectionId pushed.queue
    messagesDropped := if pushed.dropped > 0 then s.addDropped (connectionId, msg.streamId) pushed.dropped
      else s.messagesDropped
    shed := fun key => s.shed key + if key.1 = connectionId then s.lostBy connectionId msg urgent key.2 else 0 }

inductive Move
  | enqueueAsyncMessage (connectionId : UInt32) (msg : RtmpMessage) (urgent : Bool)
  | getAsyncMessage (connectionId : UInt32)
  | createNetstream (key : UInt32 × UInt32)
  | deleteNetstream (key : UInt32 × UInt32)
  | deleteNetstreams (connectionId : UInt32)
  | deleteConnection (connectionId : UInt32)

def step (s : DroppedStats) : Move → DroppedStats
  | .enqueueAsyncMessage connectionId msg urgent => s.enqueue connectionId msg urgent
  | .getAsyncMessage connectionId => match (s.queueOf connectionId).pop id with
    | none => s
    | some (_, queue) => { s with asyncMessages := s.asyncMessages.insert connectionId queue }
  | .createNetstream key =>
    { s with
      messagesDropped := s.messagesDropped.insert key 0
      shed := fun other => if other = key then 0 else s.shed other }
  | .deleteNetstream key => { s with messagesDropped := s.messagesDropped.erase key }
  | .deleteNetstreams connectionId =>
    { s with messagesDropped := s.messagesDropped.filterMap fun key dropped =>
      if key.1 = connectionId then none else some dropped }
  | .deleteConnection connectionId => { s with asyncMessages := s.asyncMessages.erase connectionId }

/-- Each counter, as far as 32 bits go, is what shedding took from its netstream. -/
def Attributed (s : DroppedStats) : Prop :=
  ∀ key dropped, s.messagesDropped.lookup key = some dropped → dropped.toNat = s.shed key % 2 ^ 32

/-- A push sheds nothing of another stream than the pushed message's, unless neither has a counter. -/
def Own (s : DroppedStats) : Move → Prop
  | .enqueueAsyncMessage connectionId msg urgent => ∀ stream, 0 < s.lostBy connectionId msg urgent stream →
      stream = msg.streamId ∨ (connectionId, stream) ∉ s.messagesDropped ∧
        (connectionId, msg.streamId) ∉ s.messagesDropped
  | _ => True

variable {s : DroppedStats} {connectionId : UInt32} {msg : RtmpMessage} {urgent : Bool}

/-- What a push dropped, in some order: its length is reported, and what is lost of a stream is counted in it. -/
theorem exists_removed (s : DroppedStats) (connectionId : UInt32) (msg : RtmpMessage) (urgent : Bool) :
    ∃ removed : List RtmpMessage,
      removed.length = ((s.queueOf connectionId).push id s.maxQueueBytes msg urgent).dropped ∧
      ∀ stream, s.lostBy connectionId msg urgent stream = removed.countP fun msg => msg.streamId = stream := by
  have kept : ((s.queueOf connectionId).push id s.maxQueueBytes msg urgent).queue.msgs.Sublist
      (waiting (s.queueOf connectionId) msg urgent) := push_sublist
  obtain ⟨removed, parts⟩ := kept.exists_perm_append
  refine ⟨removed, ?_, fun stream => ?_⟩
  · have length := parts.length_eq
    have dropped : _ + _ = (waiting (s.queueOf connectionId) msg urgent).length :=
      push_dropped id (s.queueOf connectionId) s.maxQueueBytes msg urgent
    rw [List.length_append] at length
    omega
  · rw [lostBy, lost, parts.countP_eq, List.countP_append, Nat.add_sub_cancel_left]

theorem lookup_enqueue (key : UInt32 × UInt32) : (s.enqueue connectionId msg urgent).messagesDropped.lookup key =
    (s.messagesDropped.lookup key).map fun before => before + if key = (connectionId, msg.streamId) then
      UInt32.ofNat ((s.queueOf connectionId).push id s.maxQueueBytes msg urgent).dropped else 0 := by
  have unchanged : s.messagesDropped.lookup key = (s.messagesDropped.lookup key).map fun before =>
    before + 0 := by simp
  simp only [DroppedStats.enqueue]
  split
  · unfold addDropped
    split
    · rename_i before had
      rw [Dict.lookup_insert_if]
      split
      · rename_i same
        rw [same, had]
        rfl
      · exact unchanged
    · rename_i none
      split
      · rename_i same
        rw [same, none]
        rfl
      · exact unchanged
  · rename_i nothing
    rw [Nat.eq_zero_of_not_pos nothing]
    refine unchanged.trans ?_
    simp

theorem shed_enqueue (key : UInt32 × UInt32) : (s.enqueue connectionId msg urgent).shed key =
    s.shed key + if key.1 = connectionId then s.lostBy connectionId msg urgent key.2 else 0 := rfl

/-- Right counters stay right across a push that sheds only its own stream. -/
theorem Attributed.enqueue (right : s.Attributed) (own : s.Own (.enqueueAsyncMessage connectionId msg urgent)) :
    (s.enqueue connectionId msg urgent).Attributed := by
  intro key dropped found
  rw [lookup_enqueue] at found
  obtain ⟨before, had, rfl⟩ := Option.map_eq_some_iff.mp found
  obtain ⟨removed, length, counts⟩ := exists_removed s connectionId msg urgent
  have was := right key before had
  have here : key ∈ s.messagesDropped := AList.lookup_isSome.mp (by rw [had]; rfl)
  split
  · rename_i same
    subst same
    have all : s.lostBy connectionId msg urgent msg.streamId = removed.length := by
      rw [counts, List.countP_eq_length]
      intro gone member
      have some : 0 < s.lostBy connectionId msg urgent gone.streamId := by
        rw [counts, List.countP_pos_iff]
        exact ⟨gone, member, decide_eq_true rfl⟩
      exact decide_eq_true ((own _ some).resolve_right fun none => none.2 here)
    rw [shed_enqueue, if_pos rfl, all, UInt32.toNat_add, UInt32.toNat_ofNat', was, ← length]
    omega
  · rename_i other
    have none : (if key.1 = connectionId then s.lostBy connectionId msg urgent key.2 else 0) = 0 := by
      split
      · rename_i same
        subst same
        by_contra some
        rcases own key.2 (Nat.pos_of_ne_zero some) with stream | absent
        · exact other (Prod.ext rfl stream)
        · exact absent.1 here
      · rfl
    rw [UInt32.add_zero, was, shed_enqueue, none, Nat.add_zero]

theorem Attributed.step {i : Move} (own : s.Own i) (right : s.Attributed) : (s.step i).Attributed := by
  cases i with
  | enqueueAsyncMessage connectionId msg urgent => exact right.enqueue own
  | getAsyncMessage connectionId =>
    simp only [DroppedStats.step]
    split
    · exact right
    · exact right
  | createNetstream key =>
    intro other dropped found
    simp only [DroppedStats.step, Dict.lookup_insert_if] at found ⊢
    split at found
    · rename_i same
      cases found
      rw [if_pos same]
      rfl
    · rename_i apart
      rw [if_neg apart]
      exact right other dropped found
  | deleteNetstream key =>
    intro other dropped found
    simp only [DroppedStats.step, Dict.lookup_erase_if] at found ⊢
    split at found
    · cases found
    · exact right other dropped found
  | deleteNetstreams connectionId =>
    intro other dropped found
    simp only [DroppedStats.step, Dict.lookup_filterMap] at found ⊢
    obtain ⟨before, had, kept⟩ := Option.bind_eq_some_iff.mp found
    split at kept
    · cases kept
    · cases kept
      exact right other dropped had
  | deleteConnection connectionId => exact right

/-- As long as no push sheds another stream than its own, the counters are right. -/
theorem dropped_attributed {cap : UInt64} (reach : Transition.Reach step Own { maxQueueBytes := cap } s) :
    s.Attributed := by
  refine reach.invariant ?_ fun own right => right.step own
  intro key dropped found
  have none : ({ maxQueueBytes := cap } : DroppedStats).messagesDropped.lookup key = none := AList.lookup_empty key
  rw [none] at found
  cases found

theorem own_of_single (single : ∀ other ∈ (s.queueOf connectionId).msgs, other.streamId = msg.streamId) :
    s.Own (.enqueueAsyncMessage connectionId msg urgent) := by
  intro stream some
  have there : 0 < (waiting (s.queueOf connectionId) msg urgent).countP fun msg => msg.streamId = stream := by
    unfold lostBy lost at some
    omega
  obtain ⟨other, member, is⟩ := List.countP_pos_iff.mp there
  have same : other.streamId = stream := of_decide_eq_true is
  have inside : other = msg ∨ other ∈ (s.queueOf connectionId).msgs := by
    unfold waiting at member
    split at member
    · exact List.mem_cons.mp member
    · exact (List.mem_append.mp member).symm.imp_left List.mem_singleton.mp
  rcases inside with rfl | before
  · exact .inl same.symm
  · exact .inl (same.symm.trans (single other before))

def interFrame (stream : UInt32) : RtmpMessage := ⟨.videoData, stream, 5, 0, some (0x22 :: List.replicate 39 0)⟩

def audioFrame (stream : UInt32) : RtmpMessage := ⟨.audioData, stream, 4, 0, some (0x2f :: List.replicate 59 0)⟩

/-- A video frame of one stream and an audio frame of a stream, on a connection with two. -/
def twoStreams (other : UInt32) : List Move :=
  [.createNetstream (1, 1), .createNetstream (1, 2), .enqueueAsyncMessage 1 (interFrame 1) false,
    .enqueueAsyncMessage 1 (audioFrame other) false]

theorem dropped_attributed_own :
    Attributed ((twoStreams 1).foldl step { maxQueueBytes := 200 }) := by
  refine dropped_attributed
    (Transition.Reach.start.along ⟨trivial, trivial, own_of_single ?_, own_of_single ?_, trivial⟩)
  · decide +kernel
  · decide +kernel

/-- The frame of one stream is shed, and the other stream is charged. -/
theorem dropped_charged_to_other :
    let s := (twoStreams 2).foldl step { maxQueueBytes := 200 }
    s.messagesDropped.lookup (1, 1) = some 0 ∧ s.shed (1, 1) = 1 ∧
      s.messagesDropped.lookup (1, 2) = some 1 ∧ s.shed (1, 2) = 0 := by
  decide +kernel

end DroppedStats

end Fms
