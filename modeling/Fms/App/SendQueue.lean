import Fms.Rtmp.Protocol

namespace Fms
open ByteWire

/-- `shed_class`: what may be dropped, from the dearest to the cheapest loss. -/
inductive ShedClass
  | never
  | config
  | audio
  | keyVideo
  | interVideo
  deriving DecidableEq

namespace RtmpMessage

def eAVC : UInt8 := 7
def eAAC : UInt8 := 10
def eKeyFrame : UInt8 := 1
def eGeneratedKeyFrame : UInt8 := 4
def eVideoInfo : UInt8 := 5

/-- `payload_view`: only audio and video messages have their body at hand. -/
def payloadView (msg : RtmpMessage) : Option Bytes :=
  match msg.type with
  | .audioData | .videoData => msg.payload
  | _ => none

/-- A codec sequence header has 0 as its second byte. -/
def isSequenceHeader (msg : RtmpMessage) : Bool :=
  match msg.payloadView with
  | some (first :: second :: _) =>
    match msg.type with
    | .videoData => first &&& 0x0f = eAVC && second = 0
    | .audioData => (first >>> 4) &&& 0x0f = eAAC && second = 0
    | _ => false
  | _ => false

def classify (msg : RtmpMessage) : ShedClass :=
  if msg.type ≠ .videoData ∧ msg.type ≠ .audioData then .never
  else if msg.isSequenceHeader then .config
  else if msg.type = .audioData then .audio
  else match msg.payloadView with
    | some (first :: _) =>
      let frame := (first >>> 4) &&& 0x0f
      if frame = eKeyFrame ∨ frame = eGeneratedKeyFrame then .keyVideo
      -- the codec and seek markers around a burst
      else if frame = eVideoInfo then .never
      else .interVideo
    | _ => .never

/-- A video frame that may be dropped; audio, sequence headers, video info and control may not. -/
structure Droppable (msg : RtmpMessage) : Prop where
  video : msg.type = .videoData
  frame : msg.isSequenceHeader = false
  payload : ∃ first rest, msg.payload = some (first :: rest) ∧ (first >>> 4) &&& 0x0f ≠ eVideoInfo

theorem classify_other {msg : RtmpMessage} (other : msg.type ≠ .videoData) :
    msg.classify ≠ .interVideo ∧ msg.classify ≠ .keyVideo := by
  unfold classify
  split
  · exact ⟨nofun, nofun⟩
  · rename_i media
    have audio : msg.type = .audioData := by
      by_contra neither
      exact media ⟨other, neither⟩
    rw [if_pos audio]
    split
    · exact ⟨nofun, nofun⟩
    · exact ⟨nofun, nofun⟩

theorem droppable_iff (msg : RtmpMessage) :
    msg.classify = .interVideo ∨ msg.classify = .keyVideo ↔ msg.Droppable := by
  by_cases video : msg.type = .videoData
  · have view : msg.payloadView = msg.payload := by rw [payloadView, video]
    rw [classify, if_neg (by simp [video]), view]
    split
    · rename_i header
      exact ⟨nofun, fun droppable => by cases droppable.frame.symm.trans header⟩
    · rename_i frame
      rw [if_neg (by simp [video])]
      split
      · rename_i first rest payload
        have byte : msg.Droppable ↔ (first >>> 4) &&& 0x0f ≠ eVideoInfo := by
          refine ⟨fun droppable => ?_, fun other => ⟨video, Bool.eq_false_iff.mpr frame, first, rest, payload, other⟩⟩
          obtain ⟨head, tail, same, other⟩ := droppable.payload
          cases payload.symm.trans same
          exact other
        rw [byte]
        dsimp only
        split
        · rename_i key
          refine ⟨fun _ info => ?_, fun _ => .inr rfl⟩
          rw [info] at key
          exact absurd key (by decide)
        · split
          · rename_i info
            exact ⟨nofun, fun other => absurd info other⟩
          · rename_i other
            exact ⟨fun _ => other, fun _ => .inl rfl⟩
      · rename_i empty
        refine ⟨nofun, fun droppable => ?_⟩
        obtain ⟨head, tail, same, _⟩ := droppable.payload
        exact absurd same (empty head tail)
  · obtain ⟨notInter, notKey⟩ := classify_other video
    exact ⟨fun is => absurd is (not_or.mpr ⟨notInter, notKey⟩), fun droppable => absurd droppable.video video⟩

def eChunkHeaderEstimate : UInt64 := 12
def eCommandMessageEstimate : UInt64 := 256

/-- What a message is charged for; the length of a payload is a 32-bit field. -/
def queuedSize (msg : RtmpMessage) : UInt64 :=
  match msg.payloadView with
  | some body => (UInt32.ofNat body.length).toUInt64 + eChunkHeaderEstimate
  | none => eCommandMessageEstimate

end RtmpMessage

/-- `async_queue`, over entries that carry a message. -/
structure AsyncQueue (α : Type) where
  count : UInt32 := 0
  bytes : UInt64 := 0
  msgs : List α := []

/-- What a push leaves behind. -/
structure Pushed (α : Type) where
  queue : AsyncQueue α
  dropped : Nat := 0
  overCap : Bool := false

namespace AsyncQueue
variable {α : Type} (message : α → RtmpMessage)

/-- One pass of `shed_to`, from the front for as long as there is too much. -/
def shedPass (pass : ShedClass) (lowWater : UInt64) : List α → UInt64 → List α × UInt64 × Nat
  | [], bytes => ([], bytes, 0)
  | entry :: rest, bytes =>
    if bytes ≤ lowWater then (entry :: rest, bytes, 0)
    else if (message entry).classify ≠ pass then
      let (rest, bytes, dropped) := shedPass pass lowWater rest bytes
      (entry :: rest, bytes, dropped)
    else
      let n := (message entry).queuedSize
      let (rest, bytes, dropped) := shedPass pass lowWater rest (if n ≥ bytes then 0 else bytes - n)
      (rest, bytes, dropped + 1)

/-- Every inter frame goes before the first key frame does. -/
def shedTo (msgs : List α) (bytes lowWater : UInt64) : List α × UInt64 × Nat :=
  let (msgs, bytes, inter) := shedPass message .interVideo lowWater msgs bytes
  if bytes ≤ lowWater then (msgs, bytes, inter)
  else
    let (msgs, bytes, key) := shedPass message .keyVideo lowWater msgs bytes
    (msgs, bytes, inter + key)

/-- The step of `enqueue_async_message_unchecked` under the lock of the queue. -/
def push (q : AsyncQueue α) (cap : UInt64) (entry : α) (urgent : Bool) : Pushed α :=
  let q : AsyncQueue α :=
    { count := q.count + 1
      bytes := q.bytes + (message entry).queuedSize
      msgs := if urgent then entry :: q.msgs else q.msgs ++ [entry] }
  if cap ≠ 0 ∧ q.bytes > cap / 2 then
    let (msgs, bytes, dropped) := shedTo message q.msgs q.bytes (cap / 4)
    { queue := { count := q.count - UInt32.ofNat dropped, bytes := bytes, msgs := msgs }
      dropped := dropped
      overCap := bytes > cap }
  else { queue := q }

/-- `get_async_message`. -/
def pop (q : AsyncQueue α) : Option (α × AsyncQueue α) :=
  match q.msgs with
  | [] => none
  | entry :: rest =>
    let n := (message entry).queuedSize
    some (entry, { count := q.count - 1, bytes := if n ≥ q.bytes then 0 else q.bytes - n, msgs := rest })

/-- What the entries are charged for together. -/
def charge (msgs : List α) : Nat := (msgs.map fun entry => (message entry).queuedSize.toNat).sum

structure Accounted (q : AsyncQueue α) : Prop where
  count : q.count.toNat = q.msgs.length
  bytes : q.bytes.toNat = charge message q.msgs

variable {message} {msgs rest : List α} {entry new : α} {bytes lowWater cap : UInt64} {pass : ShedClass}
  {q : AsyncQueue α} {urgent : Bool}

@[simp] theorem charge_nil : charge message [] = 0 := rfl

@[simp] theorem charge_cons :
    charge message (entry :: rest) = (message entry).queuedSize.toNat + charge message rest := rfl

@[simp] theorem charge_append : charge message (msgs ++ rest) = charge message msgs + charge message rest := by
  simp [charge]

/-- The saturating subtraction is exact while the sum is. -/
theorem toNat_release {n : UInt64} {others : Nat} (holds : bytes.toNat = others + n.toNat) :
    (if n ≥ bytes then 0 else bytes - n).toNat = others := by
  split
  · rename_i all
    have most := UInt64.le_iff_toNat_le.mp all
    show 0 = others
    omega
  · rename_i some_
    have least : n.toNat < bytes.toNat := by
      by_contra above
      exact some_ (UInt64.le_iff_toNat_le.mpr (not_lt.mp above))
    rw [UInt64.toNat_sub_of_le _ _ (UInt64.le_iff_toNat_le.mpr least.le)]
    omega

/-- A 32-bit count is exact again once as many are left as it can hold. -/
theorem toNat_shrink {count : UInt32} {kept dropped : Nat} (counted : (kept + dropped) % 2 ^ 32 = count.toNat)
    (below : kept < 2 ^ 32) : (count - UInt32.ofNat dropped).toNat = kept := by
  rw [UInt32.toNat_sub, ← counted, UInt32.toNat_ofNat']
  omega

/-- What a run of the shedding loop does to a list and its sum. -/
structure Sheds (message : α → RtmpMessage) (msgs : List α) (bytes : UInt64) (after : List α × UInt64 × Nat) :
    Prop where
  sublist : after.1.Sublist msgs
  dropped : after.1.length + after.2.2 = msgs.length
  bytes : ∀ others, bytes.toNat = others + charge message msgs → after.2.1.toNat = others + charge message after.1

theorem Sheds.refl : Sheds message msgs bytes (msgs, bytes, 0) :=
  ⟨List.Sublist.refl _, rfl, fun _ holds => holds⟩

theorem Sheds.keep {after : List α × UInt64 × Nat} (later : Sheds message rest bytes after) :
    Sheds message (entry :: rest) bytes (entry :: after.1, after.2) := by
  refine ⟨later.sublist.cons_cons _, ?_, fun others holds => ?_⟩
  · have dropped := later.dropped
    simp only [List.length_cons]
    omega
  · rw [charge_cons] at holds ⊢
    have sum := later.bytes (others + (message entry).queuedSize.toNat) (by omega)
    simp only
    omega

theorem Sheds.drop {after : List α × UInt64 × Nat}
    (later : Sheds message rest (if (message entry).queuedSize ≥ bytes then 0 else bytes - (message entry).queuedSize)
      after) :
    Sheds message (entry :: rest) bytes (after.1, after.2.1, after.2.2 + 1) := by
  refine ⟨later.sublist.cons _, ?_, fun others holds => ?_⟩
  · have dropped := later.dropped
    simp only [List.length_cons]
    omega
  · rw [charge_cons] at holds
    exact later.bytes others (toNat_release (by omega))

theorem Sheds.trans {first second : List α × UInt64 × Nat} (once : Sheds message msgs bytes first)
    (again : Sheds message first.1 first.2.1 second) :
    Sheds message msgs bytes (second.1, second.2.1, first.2.2 + second.2.2) := by
  refine ⟨again.sublist.trans once.sublist, ?_, fun others holds => again.bytes others (once.bytes others holds)⟩
  have one := once.dropped
  have two := again.dropped
  simp only
  omega

theorem shedPass_sheds (msgs : List α) (bytes : UInt64) :
    Sheds message msgs bytes (shedPass message pass lowWater msgs bytes) := by
  induction msgs generalizing bytes with
  | nil => exact .refl
  | cons entry rest ih =>
    simp only [shedPass]
    split
    · exact .refl
    · split
      · exact (ih bytes).keep
      · exact (ih _).drop

theorem shedTo_sheds : Sheds message msgs bytes (shedTo message msgs bytes lowWater) := by
  have first : Sheds message msgs bytes (shedPass message .interVideo lowWater msgs bytes) := shedPass_sheds ..
  simp only [shedTo]
  split
  · exact first
  · exact first.trans (shedPass_sheds ..)

theorem shedPass_takes (excess : ¬bytes ≤ lowWater) (droppable : ∃ entry ∈ msgs, (message entry).classify = pass) :
    1 ≤ (shedPass message pass lowWater msgs bytes).2.2 := by
  induction msgs with
  | nil => exact absurd droppable (by simp)
  | cons entry rest ih =>
    simp only [shedPass]
    rw [if_neg excess]
    split
    · rename_i other
      obtain ⟨found, member, is⟩ := droppable
      rcases List.mem_cons.mp member with rfl | later
      · exact absurd is other
      · exact ih ⟨found, later, is⟩
    · exact Nat.le_add_left ..

theorem shedPass_idle (msgs : List α) (bytes : UInt64) (none : (shedPass message pass lowWater msgs bytes).2.2 = 0) :
    (shedPass message pass lowWater msgs bytes).2.1 = bytes := by
  induction msgs generalizing bytes with
  | nil => rfl
  | cons entry rest ih =>
    simp only [shedPass] at none ⊢
    split
    · rfl
    · rename_i excess
      rw [if_neg excess] at none
      split
      · rename_i other
        rw [if_pos other] at none
        exact ih bytes none
      · rename_i taken
        rw [if_neg taken] at none
        exact absurd none (Nat.succ_ne_zero _)

theorem mem_shedPass (msgs : List α) (bytes : UInt64) (member : entry ∈ msgs)
    (other : (message entry).classify ≠ pass) : entry ∈ (shedPass message pass lowWater msgs bytes).1 := by
  induction msgs generalizing bytes with
  | nil => exact member
  | cons first rest ih =>
    simp only [shedPass]
    split
    · exact member
    · split
      · rcases List.mem_cons.mp member with rfl | later
        · exact List.mem_cons_self
        · exact List.mem_cons_of_mem _ (ih _ later)
      · rename_i taken
        rcases List.mem_cons.mp member with rfl | later
        · exact absurd (not_not.mp taken) other
        · exact ih _ later

/-- Only video frames are shed. -/
theorem mem_shedTo (member : entry ∈ msgs) (kept : ¬(message entry).Droppable) :
    entry ∈ (shedTo message msgs bytes lowWater).1 := by
  obtain ⟨notInter, notKey⟩ := not_or.mp fun is => kept ((message entry).droppable_iff.mp is)
  have first : entry ∈ (shedPass message .interVideo lowWater msgs bytes).1 := mem_shedPass msgs bytes member notInter
  simp only [shedTo]
  split
  · exact first
  · exact mem_shedPass _ _ first notKey

theorem shedTo_takes (excess : ¬bytes ≤ lowWater)
    (droppable : ∃ entry ∈ msgs, (message entry).classify = .interVideo ∨ (message entry).classify = .keyVideo) :
    1 ≤ (shedTo message msgs bytes lowWater).2.2 := by
  obtain ⟨entry, member, is⟩ := droppable
  have first : (message entry).classify = .interVideo →
      1 ≤ (shedPass message .interVideo lowWater msgs bytes).2.2 := fun inter =>
    shedPass_takes excess ⟨entry, member, inter⟩
  simp only [shedTo]
  split
  · rename_i enough
    by_contra none
    rw [shedPass_idle msgs bytes (Nat.lt_one_iff.mp (not_le.mp none))] at enough
    exact excess enough
  · rename_i more
    rcases is with inter | key
    · exact (first inter).trans (Nat.le_add_right ..)
    · refine (shedPass_takes more ⟨entry, mem_shedPass msgs bytes member ?_, key⟩).trans (Nat.le_add_left ..)
      rw [key]
      nofun

/-- There is room for one more in the counters of the queue: in `bytes` before anything is
shed, in `count` after it. -/
structure Fits (message : α → RtmpMessage) (q : AsyncQueue α) (cap : UInt64) (entry : α) : Prop where
  bytes : charge message q.msgs + (message entry).queuedSize.toNat < 2 ^ 64
  count : q.msgs.length + 1 < 2 ^ 32 ∨ cap ≠ 0 ∧ q.bytes + (message entry).queuedSize > cap / 2 ∧
    ∃ other ∈ entry :: q.msgs, (message other).classify = .interVideo ∨ (message other).classify = .keyVideo

theorem half_above (cap : UInt64) : cap / 4 ≤ cap / 2 := by
  rw [UInt64.le_iff_toNat_le, UInt64.toNat_div, UInt64.toNat_div]
  show cap.toNat / 4 ≤ cap.toNat / 2
  omega

/-- The entry goes to one end, and what is left after shedding keeps its order. -/
theorem push_sublist : (q.push message cap entry urgent).queue.msgs.Sublist
    (if urgent then entry :: q.msgs else q.msgs ++ [entry]) := by
  simp only [push]
  split
  · exact shedTo_sheds.sublist
  · exact List.Sublist.refl _

/-- What a push sheds are video frames, and with no cap it sheds nothing. -/
theorem push_shed (member : entry ∈ if urgent then new :: q.msgs else q.msgs ++ [new])
    (shed : entry ∉ (q.push message cap new urgent).queue.msgs) : cap ≠ 0 ∧ (message entry).Droppable := by
  simp only [push] at shed
  split at shed
  · rename_i sheds
    refine ⟨sheds.1, ?_⟩
    by_contra kept
    exact shed (mem_shedTo member kept)
  · exact absurd member shed

theorem push_dropped (message : α → RtmpMessage) (q : AsyncQueue α) (cap : UInt64) (entry : α) (urgent : Bool) :
    (q.push message cap entry urgent).queue.msgs.length + (q.push message cap entry urgent).dropped =
      (if urgent then entry :: q.msgs else q.msgs ++ [entry]).length := by
  simp only [push]
  split
  · exact shedTo_sheds.dropped
  · rfl

theorem push_bounded (limited : cap ≠ 0) :
    (q.push message cap entry urgent).queue.bytes ≤ cap ∨ (q.push message cap entry urgent).overCap = true := by
  simp only [push]
  split
  · exact (Decidable.em (_ ≤ cap)).imp_right fun excess => decide_eq_true (UInt64.not_le.mp excess)
  · rename_i calm
    have half : q.bytes + (message entry).queuedSize ≤ cap / 2 := UInt64.not_lt.mp fun excess =>
      calm ⟨limited, excess⟩
    refine .inl (UInt64.le_trans half ?_)
    rw [UInt64.le_iff_toNat_le, UInt64.toNat_div]
    exact Nat.div_le_self ..

theorem Accounted.push (accounted : q.Accounted message) (fits : q.Fits message cap entry) :
    (q.push message cap entry urgent).queue.Accounted message := by
  have charged : charge message (if urgent then entry :: q.msgs else q.msgs ++ [entry]) =
      charge message q.msgs + (message entry).queuedSize.toNat := by
    split
    · rw [charge_cons]
      omega
    · rw [charge_append, charge_cons, charge_nil]
      omega
  have longer : (if urgent then entry :: q.msgs else q.msgs ++ [entry]).length = q.msgs.length + 1 := by
    split <;> simp
  have bytes : (q.bytes + (message entry).queuedSize).toNat = charge message q.msgs +
      (message entry).queuedSize.toNat := by
    have room := fits.bytes
    rw [UInt64.toNat_add, accounted.bytes, Nat.mod_eq_of_lt room]
  have count : (q.count + 1).toNat = (q.msgs.length + 1) % 2 ^ 32 := by
    rw [UInt32.toNat_add, accounted.count]
    rfl
  simp only [AsyncQueue.push]
  split
  · rename_i sheds
    have after : Sheds message (if urgent then entry :: q.msgs else q.msgs ++ [entry]) _
        (shedTo message _ (q.bytes + (message entry).queuedSize) (cap / 4)) := shedTo_sheds
    refine ⟨?_, ?_⟩
    · have fewer : q.msgs.length + 1 < 2 ^ 32 ∨ 1 ≤ (shedTo message
          (if urgent then entry :: q.msgs else q.msgs ++ [entry]) (q.bytes + (message entry).queuedSize)
            (cap / 4)).2.2 := by
        refine fits.count.imp_right fun ⟨_, excess, other, member, droppable⟩ => shedTo_takes (fun under => ?_)
          ⟨other, ?_, droppable⟩
        · exact absurd (UInt64.le_trans under (half_above cap)) (UInt64.not_le.mpr excess)
        · rcases List.mem_cons.mp member with rfl | before <;> split <;> simp [*]
      have left := after.dropped
      have below := q.count.toNat_lt
      rw [accounted.count] at below
      rw [longer] at left
      refine toNat_shrink (by rw [left, count]) ?_
      show (shedTo message _ _ _).1.length < 2 ^ 32
      omega
    · have sum := after.bytes 0 (by rw [bytes, charged, Nat.zero_add])
      rw [Nat.zero_add] at sum
      exact sum
  · rename_i calm
    refine ⟨?_, ?_⟩
    · rcases fits.count with room | ⟨limited, excess, _⟩
      · rw [count, longer, Nat.mod_eq_of_lt room]
      · exact absurd ⟨limited, excess⟩ calm
    · rw [bytes, charged]

theorem pop_msgs {after : AsyncQueue α} (popped : q.pop message = some (entry, after)) :
    q.msgs = entry :: after.msgs := by
  unfold AsyncQueue.pop at popped
  split at popped
  · cases popped
  · rename_i msgs
    cases popped
    exact msgs

theorem Accounted.pop {after : AsyncQueue α} (accounted : q.Accounted message)
    (popped : q.pop message = some (entry, after)) : after.Accounted message := by
  unfold AsyncQueue.pop at popped
  split at popped
  · cases popped
  · rename_i first rest msgs
    cases popped
    have count := accounted.count
    have bytes := accounted.bytes
    rw [msgs] at count bytes
    rw [charge_cons] at bytes
    rw [List.length_cons] at count
    have positive : (1 : UInt32) ≤ q.count := UInt32.le_iff_toNat_le.mpr (by rw [count]; exact Nat.le_add_left ..)
    refine ⟨?_, @toNat_release _ _ (charge message rest) (by omega)⟩
    rw [UInt32.toNat_sub_of_le _ _ positive, count]
    rfl

end AsyncQueue

end Fms
