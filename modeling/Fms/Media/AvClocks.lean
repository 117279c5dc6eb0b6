import Fms.Media.AvDelivery
import Mathlib.Data.List.Chain

namespace Fms
open Serial

variable {video audio : Frame}

namespace Delivery

def timeOf (type : MessageType) : Delivery → Option UInt32
  | .videoOn => none
  | .primed msg | .live _ msg => if msg.type = type then some msg.timestamp else none

end Delivery

namespace AvDelivery
open Delivery

def timesOf (type : MessageType) (log : List Delivery) : List UInt32 := log.filterMap (timeOf type)

/-- The times a clock has shown: each not behind the one before, and the last what it shows now. -/
structure Track (seen : Bool) (time : UInt32) (times : List UInt32) : Prop where
  chain : times.IsChain Forward
  last : times.getLast? = if seen then some time else none

/-- A frame gets through to a subscriber that has seen no video. -/
def Opens (s : AvDelivery) (video : Frame) (c : Subscriber) : Prop :=
  c.receiveVideo = true ∧ c.firstVideoPacketSeen = false ∧
    (c.keyFrameSent = true ∨ video.isKeyframe = true ∨ s.primable c = true)

/-- Where one kind of media starts behind a sequence header and after the other kind, it starts no more
than half a circle later. -/
def Near (s : AvDelivery) : AvMove → Prop
  | .video video =>
    let s' := s.enqueueVideoFrame video
    ∀ key c log, s.subscribers.lookup key = some (c, log) → s'.Opens video c → s'.servesBurst c = false →
      s'.avcConfig.isSome → c.firstAudioPacketSeen = true → c.startEpoch ≤ video.timestamp →
      video.timestamp - c.startEpoch < 0x80000000
  | .audio audio => ∀ key c log, s.subscribers.lookup key = some (c, log) → c.receiveAudio = true →
      c.firstAudioPacketSeen = false → (s.storeAacConfig audio).aacConfig.isSome → c.firstVideoPacketSeen = true →
      c.startEpoch < audio.timestamp → audio.timestamp - c.startEpoch < 0x80000000
  | _ => True

structure Timed (entry : Subscriber × List Delivery) : Prop where
  video : Track entry.1.firstVideoPacketSeen entry.1.videoTime (timesOf .videoData entry.2)
  audio : Track entry.1.firstAudioPacketSeen entry.1.audioTime (timesOf .audioData entry.2)

variable {s : AvDelivery} {c : Subscriber} {log more : List Delivery} {seen : Bool} {time time' : UInt32}
    {times new : List UInt32}

variable {key : StreamClientId}

theorem each_of_entries {P : Subscriber → Prop} (all : ∀ e ∈ s.subscribers.entries, P e.2.1)
    (found : s.subscribers.lookup key = some (c, log)) : P c :=
  all ⟨key, (c, log)⟩ (AList.mem_lookup_iff.mp found)

theorem timesOf_append (type : MessageType) : timesOf type (log ++ more) = timesOf type log ++ timesOf type more :=
  List.filterMap_append

theorem timesOf_cons (type : MessageType) (entry : Delivery) :
    timesOf type (entry :: log) = (timeOf type entry).toList ++ timesOf type log := by
  unfold timesOf
  rw [List.filterMap_cons]
  cases timeOf type entry <;> rfl

theorem timesOf_notice (c : Subscriber) : timesOf .videoData (notice c) = [] ∧
    timesOf .audioData (notice c) = [] := by
  unfold notice
  split
  · exact ⟨rfl, rfl⟩
  · exact ⟨rfl, rfl⟩

theorem Track.later (track : Track true time times)
    (forward : Forward time time') : Track true time' (times ++ [time']) := by
  refine ⟨List.isChain_append.mpr ⟨track.chain, List.isChain_singleton _, fun x last y first => ?_⟩, ?_⟩
  · rw [track.last] at last
    cases last
    cases first
    exact forward
  · rw [List.getLast?_concat]
    rfl

theorem Track.start (track : Track false time times) (chain : new.IsChain Forward)
    (last : new.getLast? = some time') :
    Track true time' (times ++ new) := by
  have none : times = [] := List.getLast?_eq_none_iff.mp track.last
  rw [none]
  exact ⟨chain, last⟩

theorem Track.keep (track : Track seen time times) (none : new = []) : Track seen time (times ++ new) := by
  rwa [none, List.append_nil]

theorem isChain_opening {n : Nat} (forward : n ≠ 0 → Forward 0 time) :
    (List.replicate n 0 ++ [time]).IsChain Forward := by
  refine List.isChain_append.mpr ⟨List.isChain_replicate_of_rel n (Forward.refl 0), List.isChain_singleton _, ?_⟩
  intro x last y first
  cases first
  have zero : x = 0 := List.eq_of_mem_replicate (List.mem_of_getLast? last)
  rw [zero]
  refine forward fun none => ?_
  rw [none] at last
  cases last

theorem timesOf_avcConfig (c : Subscriber) :
    timesOf .videoData (s.sendAvcConfig c) = List.replicate s.avcConfig.toList.length 0 ∧
      timesOf .audioData (s.sendAvcConfig c) = [] := by
  unfold sendAvcConfig
  cases s.avcConfig with
  | none => exact ⟨rfl, rfl⟩
  | some config => exact ⟨rfl, rfl⟩

theorem timesOf_aacConfig (c : Subscriber) :
    timesOf .audioData (s.sendAacConfig c) = List.replicate s.aacConfig.toList.length 0 ∧
      timesOf .videoData (s.sendAacConfig c) = [] := by
  unfold sendAacConfig
  cases s.aacConfig with
  | none => exact ⟨rfl, rfl⟩
  | some config => exact ⟨rfl, rfl⟩

theorem timesOf_burst (c : Subscriber) (video : Frame) :
    (∃ n, timesOf .videoData (s.sendEnqueuedVideoFrames c video) = List.replicate n 0 ++ [0]) ∧
      timesOf .audioData (s.sendEnqueuedVideoFrames c video) = [] := by
  have frames (type : MessageType) (frames : List Frame) :
      timesOf type (frames.map fun frame => .primed (frame.videoTo c.streamId 0)) =
        if type = .videoData then List.replicate frames.length 0 else [] := by
    induction frames with
    | nil => simp [timesOf]
    | cons frame frames ih =>
      rw [List.map_cons, timesOf_cons, ih]
      by_cases isVideo : type = .videoData
      · subst isVideo
        rfl
      · rw [if_neg isVideo, if_neg isVideo]
        simp [timeOf, Frame.videoTo, Ne.symm isVideo]
  obtain ⟨video, audio⟩ := timesOf_avcConfig (s := s) c
  refine ⟨⟨s.avcConfig.toList.length + 1 + s.videoQueue.frames.length, ?_⟩, ?_⟩
  · rw [sendEnqueuedVideoFrames, timesOf_append, timesOf_append, timesOf_cons, video, frames, List.replicate_add,
      List.replicate_add]
    simp [timesOf, timeOf, Frame.videoTo]
  · rw [sendEnqueuedVideoFrames, timesOf_append, timesOf_append, timesOf_cons, audio, frames]
    rfl

/-- A clock starts: it sets the shift, or takes over the one that the other clock has set. -/
def Begins (beside : Bool) (start t start' : UInt32) : Prop :=
  beside = false ∧ start' = t ∨ beside = true ∧ start' = start

theorem begins_open (beside : Bool) (start t : UInt32) : Begins beside start t (if !beside then t else start) := by
  cases beside with
  | false => exact .inl ⟨rfl, rfl⟩
  | true => exact .inr ⟨rfl, rfl⟩

section
variable {beside : Bool} {start start' t : UInt32}

theorem Begins.forward {p : UInt32 → Prop} [DecidablePred p] (begins : Begins beside start t start')
    (near : beside = true → p start → t - start < 0x80000000) : Forward 0 (if p start' then t - start' else 0) := by
  rcases begins with ⟨_, rfl⟩ | ⟨seen, rfl⟩
  · rw [UInt32.sub_self, ite_self]
    exact Forward.refl 0
  · split
    · rename_i later
      rw [Forward, UInt32.sub_zero]
      exact near seen later
    · exact Forward.refl 0

theorem Begins.le (begins : Begins beside start t start') (steady : beside = true → start ≤ t) : start' ≤ t := by
  rcases begins with ⟨_, rfl⟩ | ⟨seen, rfl⟩
  · exact UInt32.le_refl _
  · exact steady seen

end

theorem begins_openVideo (c : Subscriber) (video : Frame) :
    Begins c.firstAudioPacketSeen c.startEpoch video.timestamp (openVideo c video).startEpoch :=
  begins_open ..

theorem begins_openAudio (c : Subscriber) (audio : Frame) :
    Begins c.firstVideoPacketSeen c.startEpoch audio.timestamp (openAudio c audio).startEpoch :=
  begins_open ..

theorem forward_nextVideo (c : Subscriber) (video : Frame) : Forward c.videoTime (nextVideo c video).videoTime := by
  simp only [nextVideo]
  split
  · rename_i forward
    exact forward_add forward
  · exact forward_add (by decide)

theorem forward_nextAudio (c : Subscriber) (audio : Frame) : Forward c.audioTime (nextAudio c audio).audioTime := by
  simp only [nextAudio]
  split
  · rename_i forward
    exact forward_add forward
  · exact forward_add (by decide)

theorem Timed.routeVideo (timed : Timed (c, log))
    (near : s.Opens video c → s.servesBurst c = false → s.avcConfig.isSome → c.firstAudioPacketSeen = true →
      c.startEpoch ≤ video.timestamp → video.timestamp - c.startEpoch < 0x80000000) :
    Timed ((s.routeVideoTo video c).1, log ++ (s.routeVideoTo video c).2) := by
  obtain ⟨onVideo, onAudio⟩ := timed
  generalize sent : s.routeVideoTo video c = out
  cases sent ▸ videoRound s video c with
  | off => exact ⟨(List.append_nil _).symm ▸ onVideo, (List.append_nil _).symm ▸ onAudio⟩
  | waits => exact ⟨(List.append_nil _).symm ▸ onVideo, (List.append_nil _).symm ▸ onAudio⟩
  | burst receives unseen =>
    obtain ⟨⟨n, zeros⟩, silent⟩ := timesOf_burst (s := s) c video
    simp only [unseen] at onVideo
    refine ⟨?_, ?_⟩
    · rw [timesOf_append, zeros]
      exact onVideo.start (isChain_opening fun _ => Forward.refl 0) List.getLast?_concat
    · rw [timesOf_append, silent]
      exact onAudio.keep rfl
  | first receives unseen alone gate =>
    have config := timesOf_avcConfig (s := s) c
    simp only [unseen] at onVideo
    refine ⟨?_, ?_⟩
    · rw [timesOf_append, timesOf_append, timesOf_append, config.1, (timesOf_notice c).1, List.nil_append]
      refine onVideo.start (isChain_opening fun some =>
        (begins_openVideo c video).forward (p := (· ≤ video.timestamp)) fun beside later => ?_) List.getLast?_concat
      refine near ⟨receives, unseen, gate⟩ alone ?_ beside later
      cases stored : s.avcConfig with
      | none => exact absurd (by rw [stored]; rfl) some
      | some _ => rfl
    · rw [timesOf_append, timesOf_append, timesOf_append, config.2, (timesOf_notice c).2]
      exact onAudio.keep rfl
  | later receives seen =>
    simp only [seen] at onVideo
    refine ⟨?_, ?_⟩
    · rw [timesOf_append, timesOf_append, (timesOf_notice c).1, List.nil_append]
      have now : (nextVideo c video).firstVideoPacketSeen = true := seen
      rw [now]
      exact onVideo.later (forward_nextVideo c video)
    · rw [timesOf_append, timesOf_append, (timesOf_notice c).2]
      exact onAudio.keep rfl

theorem Timed.routeAudio (timed : Timed (c, log))
    (near : c.receiveAudio = true → c.firstAudioPacketSeen = false → s.aacConfig.isSome →
      c.firstVideoPacketSeen = true → c.startEpoch < audio.timestamp → audio.timestamp - c.startEpoch < 0x80000000) :
    Timed ((s.routeAudioTo audio c).1, log ++ (s.routeAudioTo audio c).2) := by
  obtain ⟨onVideo, onAudio⟩ := timed
  generalize sent : s.routeAudioTo audio c = out
  cases sent ▸ audioRound s audio c with
  | off => exact ⟨(List.append_nil _).symm ▸ onVideo, (List.append_nil _).symm ▸ onAudio⟩
  | first receives unseen =>
    have config := timesOf_aacConfig (s := s) c
    simp only [unseen] at onAudio
    refine ⟨?_, ?_⟩
    · rw [timesOf_append, timesOf_append, timesOf_cons, timesOf_append, config.2, (timesOf_notice c).1]
      exact onVideo.keep rfl
    · rw [timesOf_append, timesOf_append, timesOf_cons, timesOf_append, config.1, (timesOf_notice c).2,
        List.nil_append]
      -- the opener and the frame itself carry the same time
      have forward (some : s.aacConfig.toList.length ≠ 0) : Forward 0 (openAudio c audio).audioTime := by
        refine (begins_openAudio c audio).forward (p := (· < audio.timestamp)) fun beside later =>
          near receives unseen ?_ beside later
        cases stored : s.aacConfig with
        | none => exact absurd (by rw [stored]; rfl) some
        | some _ => rfl
      have opener : Track true (openAudio c audio).audioTime
          (timesOf .audioData log ++ (List.replicate s.aacConfig.toList.length 0 ++
            [(openAudio c audio).audioTime])) :=
        onAudio.start (isChain_opening forward) List.getLast?_concat
      have both := opener.later (Forward.refl _)
      rw [List.append_assoc, List.append_assoc] at both
      exact both
  | later receives seen =>
    simp only [seen] at onAudio
    refine ⟨?_, ?_⟩
    · rw [timesOf_append, timesOf_append, (timesOf_notice c).1]
      exact onVideo.keep rfl
    · rw [timesOf_append, timesOf_append, (timesOf_notice c).2, List.nil_append]
      have now : (nextAudio c audio).firstAudioPacketSeen = true := seen
      rw [now]
      exact onAudio.later (forward_nextAudio c audio)

def EachTimed (s : AvDelivery) : Prop := ∀ key entry, s.subscribers.lookup key = some entry → Timed entry

theorem EachTimed.step {move : AvMove} (near : s.Near move) (timed : s.EachTimed) : (s.step move).EachTimed := by
  intro key entry found
  rcases step_cases found with ⟨_, _, _, rfl⟩ | ⟨⟨c, log⟩, had, rfl⟩
  · exact ⟨⟨List.isChain_nil, rfl⟩, ⟨List.isChain_nil, rfl⟩⟩
  · have before := timed key (c, log) had
    cases move with
    | audio audio => exact before.routeAudio (near key c log had)
    | video video => exact before.routeVideo (near key c log had)
    | join _ _ _ _ => exact before
    | leave _ => exact before
    | receiveAudio other receive =>
      simp only [entryAfter]
      split
      · exact ⟨before.video, before.audio⟩
      · exact before
    | receiveVideo other receive =>
      simp only [entryAfter]
      split
      · refine ⟨?_, ?_⟩
        · dsimp only
          split
          · rw [timesOf_append]
            exact before.video.keep rfl
          · exact before.video
        · dsimp only
          split
          · rw [timesOf_append]
            exact before.audio.keep rfl
          · exact before.audio
      · exact before

/-- Where neither kind starts more than half a circle after the other, no subscriber sees the time of
its video or of its audio step back. -/
theorem times_never_step_back (reach : Transition.Reach step Near {} s)
    {entry : Subscriber × List Delivery} (found : s.subscribers.lookup key = some entry) :
    (timesOf .videoData entry.2).IsChain Forward ∧ (timesOf .audioData entry.2).IsChain Forward := by
  have start : ({} : AvDelivery).EachTimed := fun key entry found =>
    absurd ((AList.lookup_empty key).symm.trans found) nofun
  have timed := reach.invariant start (fun near timed => timed.step near) key entry found
  exact ⟨timed.video.chain, timed.audio.chain⟩

def silence (t : UInt32) : Frame := ⟨t, [0x2f]⟩

def keyFrame (t : UInt32) : Frame := ⟨t, [0x17, 1]⟩

def interFrame (t : UInt32) : Frame := ⟨t, [0x27, 1]⟩

def sequenceHeader (t : UInt32) : Frame := ⟨t, [0x17, 0]⟩

/-- The clock of the publisher goes back and around. -/
def unsteady : List AvMove :=
  [.join (2, 1) false true true, .audio (silence 10), .video (sequenceHeader 20), .audio (silence 5),
    .video (keyFrame 0xfffffff0),
    .video (interFrame 3)]

theorem times_never_step_back_unsteady :
    ∃ entry, (unsteady.foldl step {}).subscribers.lookup (2, 1) = some entry ∧
      (timesOf .videoData entry.2).IsChain Forward ∧ (timesOf .audioData entry.2).IsChain Forward := by
  have audio {s : AvDelivery} {t : UInt32} (all : ∀ e ∈ s.subscribers.entries, e.2.1.firstVideoPacketSeen = true →
      e.2.1.startEpoch < t → t - e.2.1.startEpoch < 0x80000000) : s.Near (.audio (silence t)) :=
    fun _ _ _ found _ _ _ => each_of_entries (P := fun c => c.firstVideoPacketSeen = true → c.startEpoch < t →
      t - c.startEpoch < 0x80000000) all found
  have video {s : AvDelivery} {f : Frame} (all : ∀ e ∈ s.subscribers.entries, e.2.1.firstVideoPacketSeen = false →
      e.2.1.startEpoch ≤ f.timestamp → f.timestamp - e.2.1.startEpoch < 0x80000000) : s.Near (.video f) :=
    fun _ _ _ found opens _ _ _ =>
      each_of_entries (P := fun c => c.firstVideoPacketSeen = false → c.startEpoch ≤ f.timestamp →
      f.timestamp - c.startEpoch < 0x80000000) all found opens.2.1
  have near : Transition.Along step Near {} unsteady :=
    ⟨trivial, audio (by decide), video (by decide), audio (by decide), video (by decide), video (by decide), trivial⟩
  obtain ⟨entry, found⟩ := Option.isSome_iff_exists.mp
    (by decide : ((unsteady.foldl step {}).subscribers.lookup (2, 1)).isSome = true)
  exact ⟨entry, found, times_never_step_back (Transition.Reach.start.along near) found⟩

/-- Half a circle behind the first audio, the video starts with its header at 0. -/
theorem video_steps_back :
    ∃ entry, ([AvMove.join (2, 1) false true true, .audio (silence 0), .video (sequenceHeader 0x80000000)].foldl step
      {}).subscribers.lookup
      (2, 1) = some entry ∧ timesOf .videoData entry.2 = [0, 0x80000000] ∧ ¬Forward 0 0x80000000 :=
  ⟨_, rfl, rfl, by decide⟩

def published : List AvMove → List UInt32
  | [] => []
  | .audio frame :: earlier | .video frame :: earlier => frame.timestamp :: published earlier
  | _ :: earlier => published earlier

/-- The timestamps of the publisher do not decrease and span less than half a circle. -/
def Steady (history : List AvMove) (frame : Frame) : Prop :=
  ∀ t ∈ published history, t ≤ frame.timestamp ∧ frame.timestamp - t < 0x80000000

/-- A burst is sent to a subscriber that has heard no audio, or whose audio started at the same time. -/
def Aligned (s : AvDelivery) (video : Frame) : Prop :=
  ∀ key c log, s.subscribers.lookup key = some (c, log) → c.receiveVideo = true → c.firstVideoPacketSeen = false →
    c.firstAudioPacketSeen = true → (s.enqueueVideoFrame video).servesBurst c = true → video.timestamp = c.startEpoch

def SteadyAligned (s : AvDelivery) : AvMove → Prop
  | .audio audio => Steady s.history audio
  | .video video => Steady s.history video ∧ s.Aligned video
  | _ => True

/-- The clock a subscriber has for one kind of media. -/
structure Clock where
  seen : Bool
  time : UInt32
  epoch : UInt32

def videoClock (c : Subscriber) : Clock := ⟨c.firstVideoPacketSeen, c.videoTime, c.videoEpoch⟩

def audioClock (c : Subscriber) : Clock := ⟨c.firstAudioPacketSeen, c.audioTime, c.audioEpoch⟩

/-- A running clock is the publisher's, shifted. -/
structure Shifted (times : List UInt32) (start : UInt32) (clock : Clock) : Prop where
  time : clock.seen = true → clock.time = clock.epoch - start
  epoch : clock.seen = true → clock.epoch ∈ times
  start : clock.seen = true → start ∈ times

def NoLive (entries : List Delivery) : Prop := ∀ t msg, .live t msg ∉ entries

/-- All that was passed on has the shift that both clocks have. -/
structure Synced (times : List UInt32) (start : UInt32) (mine other : Clock) (log : List Delivery) : Prop where
  live : ∀ t msg, .live t msg ∈ log → msg.timestamp = t - start
  silent : mine.seen = false → other.seen = false → NoLive log
  mine : Shifted times start mine
  other : Shifted times start other

section
variable {mine other : Clock} {start t : UInt32} {entries pre : List Delivery}

theorem Shifted.mono (shifted : Shifted times start mine) : Shifted (t :: times) start mine where
  time := shifted.time
  epoch seen := List.mem_cons_of_mem _ (shifted.epoch seen)
  start seen := List.mem_cons_of_mem _ (shifted.start seen)

theorem Synced.symm (synced : Synced times start mine other log) : Synced times start other mine log :=
  ⟨synced.live, fun one two => synced.silent two one, synced.other, synced.mine⟩

theorem Synced.mono (synced : Synced times start mine other log) :
    Synced (t :: times) start mine other (log ++ []) := by
  rw [List.append_nil]
  exact ⟨synced.live, synced.silent, synced.mine.mono, synced.other.mono⟩

theorem shift_trans (start epoch t : UInt32) : epoch - start + (t - epoch) = t - start := by
  grind

theorem Synced.advance (synced : Synced times start mine other log) (seen : mine.seen = true)
    (new : ∀ t' msg, .live t' msg ∈ entries → t' = t ∧ msg.timestamp = mine.time + (t - mine.epoch)) :
    Synced (t :: times) start ⟨true, mine.time + (t - mine.epoch), t⟩ other (log ++ entries) := by
  have time : mine.time + (t - mine.epoch) = t - start := by rw [synced.mine.time seen, shift_trans]
  refine ⟨fun t' msg member => ?_, nofun, ⟨fun _ => time, fun _ => List.mem_cons_self, fun _ => ?_⟩,
    synced.other.mono⟩
  · rcases List.mem_append.mp member with before | now
    · exact synced.live t' msg before
    · obtain ⟨rfl, shown⟩ := new t' msg now
      rw [shown, time]
  · exact List.mem_cons_of_mem _ (synced.mine.start seen)

theorem Synced.begin (synced : Synced times start mine other log) (unseen : mine.seen = false) (start' : UInt32)
    (begins : Begins other.seen start t start')
    (new : ∀ t' msg, .live t' msg ∈ entries → t' = t ∧ msg.timestamp = t - start') :
    Synced (t :: times) start' ⟨true, t - start', t⟩ other (log ++ entries) := by
  refine ⟨fun t' msg member => ?_, nofun, ⟨fun _ => rfl, fun _ => List.mem_cons_self, fun _ => ?_⟩, ?_⟩
  · rcases List.mem_append.mp member with before | now
    · rcases begins with ⟨alone, _⟩ | ⟨_, rfl⟩
      · exact absurd before (synced.silent unseen alone t' msg)
      · exact synced.live t' msg before
    · obtain ⟨rfl, shown⟩ := new t' msg now
      exact shown
  · rcases begins with ⟨_, rfl⟩ | ⟨beside, rfl⟩
    · exact List.mem_cons_self
    · exact List.mem_cons_of_mem _ (synced.other.start beside)
  · rcases begins with ⟨alone, _⟩ | ⟨_, rfl⟩
    · have never : other.seen ≠ true := by rw [alone]; exact Bool.false_ne_true
      exact ⟨fun seen => absurd seen never, fun seen => absurd seen never, fun seen => absurd seen never⟩
    · exact synced.other.mono

theorem NoLive.append (first : NoLive log) (second : NoLive more) : NoLive (log ++ more) :=
  fun t msg member => (List.mem_append.mp member).elim (first t msg) (second t msg)

theorem mem_live_last {entry : Delivery} {msg : RtmpMessage} (none : NoLive pre)
    (member : .live t msg ∈ pre ++ [entry]) :
    .live t msg = entry :=
  (List.mem_append.mp member).elim (fun before => absurd before (none t msg)) List.mem_singleton.mp

end

theorem noLive_notice (c : Subscriber) : NoLive (notice c) := by
  unfold notice
  split
  · exact fun t msg member => nomatch List.mem_singleton.mp member
  · exact fun t msg member => nomatch member

theorem noLive_avcConfig (c : Subscriber) : NoLive (s.sendAvcConfig c) := by
  unfold sendAvcConfig
  cases s.avcConfig with
  | none => exact fun t msg member => nomatch member
  | some _ => exact fun t msg member => nomatch List.mem_singleton.mp member

theorem noLive_aacConfig (c : Subscriber) : NoLive (s.sendAacConfig c) := by
  unfold sendAacConfig
  cases s.aacConfig with
  | none => exact fun t msg member => nomatch member
  | some _ => exact fun t msg member => nomatch List.mem_singleton.mp member

theorem noLive_burst (c : Subscriber) (video : Frame) : NoLive (s.sendEnqueuedVideoFrames c video) := by
  intro t msg member
  simp only [sendEnqueuedVideoFrames, List.mem_append, List.mem_cons, List.mem_map, List.not_mem_nil, reduceCtorEq,
    and_false, exists_false, or_false] at member
  exact noLive_avcConfig c t msg member

abbrev EntrySynced (times : List UInt32) (entry : Subscriber × List Delivery) : Prop :=
  Synced times entry.1.startEpoch (videoClock entry.1) (audioClock entry.1) entry.2

theorem EntrySynced.routeVideo (synced : EntrySynced times (c, log))
    (steady : ∀ t ∈ times, t ≤ video.timestamp ∧ video.timestamp - t < 0x80000000)
    (aligned : c.receiveVideo = true → c.firstVideoPacketSeen = false → c.firstAudioPacketSeen = true →
      s.servesBurst c = true → video.timestamp = c.startEpoch) :
    EntrySynced (video.timestamp :: times) ((s.routeVideoTo video c).1, log ++ (s.routeVideoTo video c).2) := by
  generalize sent : s.routeVideoTo video c = out
  cases sent ▸ videoRound s video c with
  | off => exact synced.mono
  | waits => exact synced.mono
  | burst receives unseen serves =>
    have start : (openVideo c video).startEpoch = video.timestamp := by
      rcases begins_openVideo c video with ⟨_, start⟩ | ⟨beside, start⟩
      · exact start
      · exact start.trans (aligned receives unseen beside serves).symm
    have clock : videoClock (startVideo { c with keyFrameSent := true } video) =
        ⟨true, video.timestamp - (openVideo c video).startEpoch, video.timestamp⟩ := by
      rw [start, UInt32.sub_self]
      rfl
    show Synced _ (openVideo c video).startEpoch (videoClock (startVideo { c with keyFrameSent := true } video))
      (audioClock c) _
    rw [clock]
    exact synced.begin unseen _ (begins_openVideo c video) fun t msg member =>
      absurd member (noLive_burst c video t msg)
  | first receives unseen alone gate =>
    have time : (openVideo c video).videoTime = video.timestamp - (openVideo c video).startEpoch :=
      if_pos ((begins_openVideo c video).le fun beside => (steady _ (synced.other.start beside)).1)
    have clock : videoClock (openVideo c video) =
        ⟨true, video.timestamp - (openVideo c video).startEpoch, video.timestamp⟩ := by
      rw [← time]
      rfl
    show Synced _ (openVideo c video).startEpoch (videoClock (openVideo c video)) (audioClock c) _
    rw [clock]
    refine synced.begin unseen _ (begins_openVideo c video) fun t msg member => ?_
    rw [← List.append_assoc] at member
    cases mem_live_last ((noLive_avcConfig c).append (noLive_notice c)) member
    exact ⟨rfl, time⟩
  | later receives seen =>
    have forward : Forward c.videoEpoch video.timestamp := (steady _ (synced.mine.epoch seen)).2
    have time : (nextVideo c video).videoTime = c.videoTime + (video.timestamp - c.videoEpoch) := if_pos forward
    have clock :
        videoClock (nextVideo c video) = ⟨true, c.videoTime + (video.timestamp - c.videoEpoch), video.timestamp⟩ := by
      rw [← time, ← seen]
      rfl
    show Synced _ c.startEpoch (videoClock (nextVideo c video)) (audioClock c) _
    rw [clock, time]
    refine synced.advance seen fun t msg member => ?_
    cases mem_live_last (noLive_notice c) member
    exact ⟨rfl, rfl⟩

theorem EntrySynced.routeAudio (synced : EntrySynced times (c, log))
    (steady : ∀ t ∈ times, t ≤ audio.timestamp ∧ audio.timestamp - t < 0x80000000) :
    EntrySynced (audio.timestamp :: times) ((s.routeAudioTo audio c).1, log ++ (s.routeAudioTo audio c).2) := by
  generalize sent : s.routeAudioTo audio c = out
  cases sent ▸ audioRound s audio c with
  | off => exact synced.mono
  | first receives unseen =>
    have time : (openAudio c audio).audioTime = audio.timestamp - (openAudio c audio).startEpoch := by
      refine ite_eq_left_iff.mpr fun notLater => ?_
      have same := UInt32.le_antisymm
        ((begins_openAudio c audio).le fun beside => (steady _ (synced.mine.start beside)).1)
        (UInt32.not_lt.mp notLater)
      show 0 = audio.timestamp - (openAudio c audio).startEpoch
      rw [same, UInt32.sub_self]
    have clock : audioClock (openAudio c audio) =
        ⟨true, audio.timestamp - (openAudio c audio).startEpoch, audio.timestamp⟩ := by
      rw [← time]
      rfl
    refine Synced.symm ?_
    show Synced _ (openAudio c audio).startEpoch (audioClock (openAudio c audio)) (videoClock c) _
    rw [clock]
    refine synced.symm.begin unseen _ (begins_openAudio c audio) fun t msg member => ?_
    rcases List.mem_append.mp member with config | rest
    · exact absurd config (noLive_aacConfig c t msg)
    · rcases List.mem_cons.mp rest with opener | last
      · cases opener
        exact ⟨rfl, time⟩
      · cases mem_live_last (noLive_notice c) last
        exact ⟨rfl, time⟩
  | later receives seen =>
    have forward : Forward c.audioEpoch audio.timestamp := (steady _ (synced.other.epoch seen)).2
    have time : (nextAudio c audio).audioTime = c.audioTime + (audio.timestamp - c.audioEpoch) := by
      simp only [nextAudio, if_pos forward]
    have clock :
        audioClock (nextAudio c audio) = ⟨true, c.audioTime + (audio.timestamp - c.audioEpoch), audio.timestamp⟩ := by
      rw [← time, ← seen]
      rfl
    refine Synced.symm ?_
    show Synced _ c.startEpoch (audioClock (nextAudio c audio)) (videoClock c) _
    rw [clock, time]
    refine synced.symm.advance seen fun t msg member => ?_
    cases mem_live_last (noLive_notice c) member
    exact ⟨rfl, rfl⟩

def EachSynced (s : AvDelivery) : Prop :=
  ∀ key entry, s.subscribers.lookup key = some entry → EntrySynced (published s.history) entry

theorem EachSynced.step {move : AvMove} (steady : s.SteadyAligned move)
    (synced : s.EachSynced) : (s.step move).EachSynced := by
  intro key entry found
  rcases step_cases found with ⟨_, _, _, rfl⟩ | ⟨⟨c, log⟩, had, rfl⟩
  · have none : NoLive [.videoOn] := fun t msg member => nomatch List.mem_singleton.mp member
    exact ⟨fun t msg member => absurd member (none t msg), fun _ _ =>
      none, ⟨nofun, nofun, nofun⟩, ⟨nofun, nofun, nofun⟩⟩
  · have before := synced key (c, log) had
    cases move with
    | audio audio => exact before.routeAudio steady
    | video video => exact before.routeVideo steady.1 (steady.2 key c log had)
    | join _ _ _ _ => exact before
    | leave _ => exact before
    | receiveAudio other receive =>
      simp only [entryAfter]
      split
      · exact before
      · exact before
    | receiveVideo other receive =>
      simp only [entryAfter]
      split
      · have same {t : UInt32} {msg : RtmpMessage} (member :
          .live t msg ∈ if receive then log ++ [.videoOn] else log) :
            .live t msg ∈ log := by
          split at member
          · exact (List.mem_append.mp member).resolve_right fun last => nomatch List.mem_singleton.mp last
          · exact member
        exact ⟨fun t msg member => before.live t msg (same member),
          fun one two t msg member => before.silent one two t msg (same member), before.mine, before.other⟩
      · exact before

/-- With a steady publisher and no burst behind earlier audio, what a subscriber gets is the publisher's
stream, shifted by one constant. -/
theorem audio_video_in_sync (reach : Transition.Reach step SteadyAligned {} s)
    {entry : Subscriber × List Delivery} (found : s.subscribers.lookup key = some entry) :
    ∃ shift, ∀ t msg, .live t msg ∈ entry.2 → msg.timestamp = t - shift := by
  have start : ({} : AvDelivery).EachSynced := fun key entry found =>
    absurd ((AList.lookup_empty key).symm.trans found) nofun
  have synced := reach.invariant start (fun steady synced => synced.step steady) key entry found
  exact ⟨entry.1.startEpoch, synced.live⟩

/-- Two subscribers, one from the start on and one that comes in the middle of a group. -/
def steadyRun : List AvMove :=
  [.join (2, 1) false true true, .video (keyFrame 10), .audio (silence 15), .join (3, 1) true true true,
    .video (interFrame 20),
    .audio (silence 25), .video (interFrame 30)]

theorem audio_video_in_sync_steady :
    ∃ entry, (steadyRun.foldl step {}).subscribers.lookup (3, 1) = some entry ∧
      ∃ shift, ∀ t msg, .live t msg ∈ entry.2 → msg.timestamp = t - shift := by
  have audio {s : AvDelivery} {f : Frame}
      (all : (published s.history).all fun t => t ≤ f.timestamp ∧ f.timestamp - t < 0x80000000) :
        s.SteadyAligned (.audio f) :=
    fun t member => of_decide_eq_true (List.all_eq_true.mp all t member)
  have video {s : AvDelivery} {f : Frame} (all : s.SteadyAligned (.audio f))
      (each : ∀ e ∈ s.subscribers.entries, e.2.1.firstVideoPacketSeen = false → e.2.1.firstAudioPacketSeen = true →
        f.timestamp = e.2.1.startEpoch) : s.SteadyAligned (.video f) :=
    ⟨all, fun _ _ _ found _ unseen beside _ => each_of_entries (P := fun c => c.firstVideoPacketSeen = false →
      c.firstAudioPacketSeen = true → f.timestamp = c.startEpoch) each found unseen beside⟩
  have steady : Transition.Along step SteadyAligned {} steadyRun :=
    ⟨trivial, video (audio (by decide)) (by decide), audio (by decide), trivial,
      video (audio (by decide)) (by decide),
      audio (by decide), video (audio (by decide)) (by decide), trivial⟩
  obtain ⟨entry, found⟩ := Option.isSome_iff_exists.mp
    (by decide : ((steadyRun.foldl step {}).subscribers.lookup (3, 1)).isSome = true)
  exact ⟨entry, found, audio_video_in_sync (Transition.Reach.start.along steady) found⟩

/-- Audio is heard before the burst: the video starts over at 0. -/
def burstBehindAudio : List AvMove :=
  [.video (keyFrame 0), .join (2, 1) true true true, .audio (silence 10), .video (interFrame 20),
    .video (interFrame 30),
    .audio (silence 30)]

theorem burst_out_of_sync :
    ∃ entry, (burstBehindAudio.foldl step {}).subscribers.lookup (2, 1) = some entry ∧
      ¬∃ shift, ∀ t msg, .live t msg ∈ entry.2 → msg.timestamp = t - shift := by
  refine ⟨_, rfl, fun ⟨shift, all⟩ => ?_⟩
  have video : 10 = 30 - shift :=
    all 30 ((interFrame 30).videoTo 1 10) (List.mem_of_mem_dropLast (List.mem_of_getLast? rfl))
  have audio : 20 = 30 - shift := all 30 ((silence 30).audioTo 1 20) (List.mem_of_getLast? rfl)
  exact absurd (video.trans audio.symm) (by decide)

end AvDelivery

end Fms
