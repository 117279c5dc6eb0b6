import Fms.Base.FirstHit
import Fms.Media.AvDelivery

namespace Fms
open FirstHit

/-- An AVC frame proper: neither a sequence header nor one of the markers around a burst. -/
def Frame.isCoded (f : Frame) : Bool :=
  f.videoCodec = RtmpMessage.eAVC && f.hasPacketType 1 && f.frameType ≠ RtmpMessage.eVideoInfo

namespace Delivery

def isVideoOn : Delivery → Bool
  | .videoOn => true
  | _ => false

def video? : Delivery → Option Frame
  | .videoOn => none
  | .primed msg | .live _ msg => if msg.type = .videoData then msg.payload.map fun data =>
    ⟨msg.timestamp, data⟩ else none

def isCoded (entry : Delivery) : Bool := entry.video?.any Frame.isCoded

def isKeyframe (entry : Delivery) : Bool := entry.video?.any Frame.isKeyframe

end Delivery

namespace AvDelivery
open Delivery

/-- The last message with the type of a key frame was none: a sequence header, for one. -/
def bare : List AvMove → Bool
  | [] => false
  | .video video :: earlier => if video.isKeyframe then !video.isCoded else bare earlier
  | _ :: earlier => bare earlier

/-- No inter frame comes between a sequence header and the next key frame. -/
def KeyFollows (s : AvDelivery) : AvMove → Prop
  | .video video => video.isCoded = true → video.isKeyframe = true ∨ bare s.history = false
  | _ => True

abbrev Decodes (waiting : Bool) (log : List Delivery) : Prop :=
  Ok isVideoOn Delivery.isCoded Delivery.isKeyframe waiting log

abbrev waits (log : List Delivery) : Bool := FirstHit.after isVideoOn Delivery.isCoded true log

/-- What is cached starts with a key frame, or has no coded frame at all. -/
def CacheOk (bare : Bool) (frames : List Frame) : Prop :=
  ∀ head rest, frames = head :: rest → head.isKeyframe = true ∧
    (head.isCoded = true ∨ bare = true ∧ ∀ f ∈ frames, f.isCoded = false)

/-- Once something was sent to start from, either a coded frame was or none has come since. -/
structure Primed (bare : Bool) (entry : Subscriber × List Delivery) : Prop where
  decodes : Decodes true entry.2
  sent : entry.1.keyFrameSent = true → entry.1.receiveVideo = true ∧ (waits entry.2 = true → bare = true)

structure Startable (s : AvDelivery) : Prop where
  config : ∀ f, s.avcConfig = some f → f.isAvcConfig = true
  cache : CacheOk (bare s.history) s.videoQueue.frames
  primed : ∀ key entry, s.subscribers.lookup key = some entry → Primed (bare s.history) entry

variable {s : AvDelivery} {video : Frame} {bare : Bool}

theorem CacheOk.push {q : GopCache} (ok : CacheOk bare q.frames) (some : q.frames ≠ [])
    (follows : video.isCoded = true → bare = false) : CacheOk bare (q.push video).frames := by
  unfold GopCache.push
  split
  · exact nofun
  · intro head rest whole
    cases frames : q.frames with
    | nil => exact absurd frames some
    | cons first others =>
      rw [frames, List.cons_append] at whole
      obtain ⟨rfl, rfl⟩ := List.cons.inj whole
      obtain ⟨key, coded⟩ := ok first others frames
      refine ⟨key, coded.imp_right fun ⟨isBare, uncoded⟩ => ⟨isBare, fun f member => ?_⟩⟩
      rcases List.mem_append.mp member with before | last
      · exact uncoded f (frames ▸ before)
      · rw [List.mem_singleton.mp last]
        exact Bool.eq_false_iff.mpr fun coded => Bool.false_ne_true ((follows coded).symm.trans isBare)

def bareAfter (bare : Bool) (video : Frame) : Bool := if video.isKeyframe then !video.isCoded else bare

theorem CacheOk.add {q : GopCache} (ok : CacheOk bare q.frames)
    (follows : video.isCoded = true → video.isKeyframe = true ∨ bare = false) :
    CacheOk (bareAfter bare video) (q.add video video.isKeyframe).frames := by
  unfold GopCache.add bareAfter
  split
  · rename_i key
    unfold GopCache.push
    split
    · exact nofun
    · intro head rest whole
      obtain ⟨rfl, rfl⟩ := List.cons.inj whole
      refine ⟨key, ?_⟩
      cases coded : video.isCoded with
      | true => exact .inl rfl
      | false => exact .inr ⟨rfl, fun f member => by rw [List.mem_singleton.mp member, coded]⟩
  · rename_i inter
    split
    · exact ok
    · rename_i some
      refine ok.push (fun none => some ?_) fun coded => (follows coded).resolve_left inter
      rw [none]
      rfl

theorem isCoded_live (f : Frame) (t streamId time : UInt32) :
    (Delivery.live t (f.videoTo streamId time)).isCoded = f.isCoded := rfl

theorem Frame.isCoded_avcConfig {f : Frame} (config : f.isAvcConfig = true) : f.isCoded = false := by
  unfold Frame.isAvcConfig Frame.hasPacketType at config
  unfold Frame.isCoded Frame.hasPacketType
  simp only [Bool.and_eq_true, decide_eq_true_eq] at config
  rw [config.2]
  simp

theorem high_infoMsg (first : UInt8) :
    (((RtmpMessage.eVideoInfo <<< 4) ||| (first &&& 0x0f)) >>> 4) &&& 0x0f = RtmpMessage.eVideoInfo := by
  have bits : ∀ v : BitVec 8, ((((5 : BitVec 8) <<< 4) ||| (v &&& 0x0f)) >>> 4) &&& 0x0f = 5 := by decide +kernel
  exact UInt8.toBitVec_inj.mp (bits first.toBitVec)

theorem isCoded_infoMsg (video : Frame) (second : UInt8) : (infoMsg video second).isCoded = false := by
  have isInfo : (infoMsg video second).frameType = RtmpMessage.eVideoInfo := by
    show (((RtmpMessage.eVideoInfo <<< 4) ||| video.low) >>> 4) &&& 0x0f = RtmpMessage.eVideoInfo
    unfold Frame.low
    cases video.data.head? with
    | none => rfl
    | some first => exact high_infoMsg first
  simp [Frame.isCoded, isInfo]

/-- Neither a coded frame nor a switch. -/
def Idle (entries : List Delivery) : Prop := ∀ entry ∈ entries, isVideoOn entry = false ∧ entry.isCoded = false

theorem Idle.append {entries more : List Delivery} (idle : Idle entries)
    (later : Idle more) : Idle (entries ++ more) :=
  fun entry member => (List.mem_append.mp member).elim (idle entry) (later entry)

theorem idle_notice (c : Subscriber) : Idle (notice c) := by
  unfold notice
  split
  · intro entry member
    rw [List.mem_singleton.mp member]
    exact ⟨rfl, rfl⟩
  · exact nofun

theorem idle_sendAvcConfig (config : ∀ f, s.avcConfig = some f → f.isAvcConfig = true) (c : Subscriber) :
    Idle (s.sendAvcConfig c) := by
  unfold sendAvcConfig
  cases found : s.avcConfig with
  | none => exact nofun
  | some f =>
    intro entry member
    rw [List.mem_singleton.mp member]
    exact ⟨rfl, Frame.isCoded_avcConfig (config f found)⟩

theorem idle_live_audio (f : Frame) (t streamId time : UInt32) : Idle [.live t (f.audioTo streamId time)] := by
  intro entry member
  rw [List.mem_singleton.mp member]
  exact ⟨rfl, rfl⟩

theorem idle_sendAacConfig (c : Subscriber) : Idle (s.sendAacConfig c) := by
  unfold sendAacConfig
  cases s.aacConfig with
  | none => exact nofun
  | some f =>
    intro entry member
    rw [List.mem_singleton.mp member]
    exact ⟨rfl, rfl⟩

variable {c c' : Subscriber} {log more : List Delivery}

theorem Primed.idle (primed : Primed bare (c, log)) (idle : Idle more) (sent : c'.keyFrameSent = c.keyFrameSent)
    (receives : c'.receiveVideo = c.receiveVideo) : Primed bare (c', log ++ more) where
  decodes := ok_append.mpr ⟨primed.decodes, ok_of_free fun entry member => (idle entry member).2⟩
  sent started := by
    rw [sent] at started
    have before := primed.sent started
    refine ⟨receives.trans before.1, fun waiting => before.2 ?_⟩
    rwa [waits, after_append, after_of_free idle] at waiting

theorem Primed.routeAudio (primed : Primed bare (c, log)) (audio : Frame) :
    Primed bare ((s.routeAudioTo audio c).1, log ++ (s.routeAudioTo audio c).2) := by
  generalize sent : s.routeAudioTo audio c = out
  cases sent ▸ audioRound s audio c with
  | off => exact primed.idle nofun rfl rfl
  | first =>
    exact primed.idle ((idle_sendAacConfig c).append
      ((idle_live_audio _ _ _ _).append ((idle_notice c).append (idle_live_audio _ _ _ _)))) rfl rfl
  | later => exact primed.idle ((idle_notice c).append (idle_live_audio _ _ _ _)) rfl rfl

/-- A frame is passed on: where a coded one is waited for it is a key frame, and one that is not coded
leaves the last key frame bare. -/
theorem Primed.live {t time : UInt32} {pre : List Delivery} (primed : Primed bare (c, log)) (idle : Idle pre)
    (receives : c'.receiveVideo = true) (key : waits log = true → video.isCoded = true → video.isKeyframe = true)
    (isBare : waits log = true → video.isCoded = false → bareAfter bare video = true) (streamId : UInt32) :
    Primed (bareAfter bare video) (c', log ++ (pre ++ [.live t (video.videoTo streamId time)])) := by
  have still : FirstHit.after isVideoOn Delivery.isCoded true (log ++ pre) = waits log := by
    rw [after_append, after_of_free idle]
  rw [← List.append_assoc]
  refine ⟨ok_append.mpr ⟨ok_append.mpr ⟨primed.decodes, ok_of_free fun entry member => (idle entry member).2⟩, ?_⟩,
    fun _ => ?_⟩
  · rw [still]
    exact ⟨key, trivial⟩
  · refine ⟨receives, fun waiting => ?_⟩
    rw [waits, after_append, still] at waiting
    have parts : waits log = true ∧ video.isCoded = false := by
      simpa [FirstHit.after, FirstHit.next, isVideoOn, isCoded_live] using waiting
    exact isBare parts.1 parts.2

theorem Primed.burst (primed : Primed bare (c, log)) (config : ∀ f, s.avcConfig = some f → f.isAvcConfig = true)
    (cache : CacheOk (bareAfter bare video) s.videoQueue.frames) (some : s.videoQueue.frames ≠ [])
    (receives : c'.receiveVideo = true) :
    Primed (bareAfter bare video) (c', log ++ s.sendEnqueuedVideoFrames c video) := by
  obtain ⟨head, rest, frames⟩ := List.exists_cons_of_ne_nil some
  have marker (second : UInt8) : Idle [.primed ((infoMsg video second).videoTo c.streamId 0)] := by
    intro entry member
    rw [List.mem_singleton.mp member]
    exact ⟨rfl, isCoded_infoMsg video second⟩
  have opening := (idle_sendAvcConfig config c).append (marker 0)
  have whole :
    s.sendEnqueuedVideoFrames c video = (s.sendAvcConfig c ++ [.primed ((infoMsg video 0).videoTo c.streamId 0)]) ++
      ((s.videoQueue.frames.map fun frame => .primed (frame.videoTo c.streamId 0)) ++
        [.primed ((infoMsg video 1).videoTo c.streamId 0)]) := by
    simp [sendEnqueuedVideoFrames]
  obtain ⟨key, coded | ⟨isBare, uncoded⟩⟩ := cache head rest frames
  · -- the first frame of the burst is the one that is waited for
    have good : Decodes (waits log) (s.sendEnqueuedVideoFrames c video) ∧
        FirstHit.after isVideoOn Delivery.isCoded (waits log) (s.sendEnqueuedVideoFrames c video) = false := by
      rw [whole, frames, List.map_cons, List.cons_append]
      refine ok_of_good opening coded key fun entry member => ?_
      rcases List.mem_cons.mp member with rfl | later
      · rfl
      · rcases List.mem_append.mp later with inside | last
        · obtain ⟨frame, _, rfl⟩ := List.mem_map.mp inside
          rfl
        · exact (marker 1 entry last).1
    refine ⟨ok_append.mpr ⟨primed.decodes, good.1⟩, fun _ => ⟨receives, fun waiting => ?_⟩⟩
    rw [waits, after_append, good.2] at waiting
    cases waiting
  · have idle : Idle (s.sendEnqueuedVideoFrames c video) := by
      rw [whole]
      refine opening.append (Idle.append (fun entry member => ?_) (marker 1))
      obtain ⟨frame, inside, rfl⟩ := List.mem_map.mp member
      exact ⟨rfl, uncoded frame inside⟩
    exact ⟨ok_append.mpr ⟨primed.decodes, ok_of_free fun entry member => (idle entry member).2⟩, fun _ =>
      ⟨receives, fun _ => isBare⟩⟩

/-- Where there is only one frame to start from, it is the current one. -/
theorem isKeyframe_of_primable (q : GopCache) (one : (q.add video video.isKeyframe).frames.length = 1) :
    video.isKeyframe = true := by
  unfold GopCache.add at one
  split at one
  · assumption
  · split at one
    · rename_i none
      rw [List.isEmpty_iff.mp none] at one
      cases one
    · rename_i some
      unfold GopCache.push at one
      split at one
      · cases one
      · have positive : 0 < q.frames.length := by
          rw [List.length_pos_iff]
          exact fun none => some (List.isEmpty_iff.mpr none)
        simp only [List.length_append, List.length_singleton] at one
        omega

theorem Primed.routeVideo (primed : Primed bare (c, log)) (config : ∀ f, s.avcConfig = some f → f.isAvcConfig = true)
    (cache : CacheOk (bareAfter bare video) s.videoQueue.frames) (q : GopCache)
    (added : s.videoQueue = q.add video video.isKeyframe)
    (follows : video.isCoded = true → video.isKeyframe = true ∨ bare = false) :
    Primed (bareAfter bare video) ((s.routeVideoTo video c).1, log ++ (s.routeVideoTo video c).2) := by
  have key (gate : c.keyFrameSent = true ∨ video.isKeyframe = true) (waiting : waits log = true)
    (coded : video.isCoded = true) :
      video.isKeyframe = true := by
    refine gate.elim (fun sent => (follows coded).resolve_right fun covered => ?_) id
    exact Bool.false_ne_true (covered.symm.trans ((primed.sent sent).2 waiting))
  have isBare (gate : c.keyFrameSent = true ∨ video.isKeyframe = true) (waiting : waits log = true)
      (uncoded : video.isCoded = false) : bareAfter bare video = true := by
    unfold bareAfter
    split
    · rw [uncoded]
      rfl
    · rename_i inter
      exact (primed.sent (gate.resolve_right inter)).2 waiting
  generalize sent : s.routeVideoTo video c = out
  cases sent ▸ videoRound s video c with
  | off silent =>
    rw [List.append_nil]
    refine ⟨primed.decodes, fun sent => absurd (primed.sent sent).1 ?_⟩
    rw [silent]
    exact Bool.false_ne_true
  | waits unsent =>
    rw [List.append_nil]
    exact ⟨primed.decodes, fun sent => absurd (unsent.symm.trans sent) Bool.false_ne_true⟩
  | burst receives _ serves =>
    refine primed.burst config cache (fun none => ?_) receives
    simp [servesBurst, none] at serves
  | first receives _ alone gate =>
    have gate : c.keyFrameSent = true ∨ video.isKeyframe = true := by
      refine gate.imp_right fun rest => rest.elim id fun prime => isKeyframe_of_primable q ?_
      simp only [primable, Bool.and_eq_true, Bool.not_eq_true', List.isEmpty_eq_false_iff,
        ← List.length_pos_iff] at prime
      simp only [servesBurst, prime.1.1, Bool.true_and, decide_eq_false_iff_not] at alone
      rw [← added]
      omega
    have on : (openVideo c video).receiveVideo = true := receives
    rw [← List.append_assoc]
    exact primed.live ((idle_sendAvcConfig config c).append (idle_notice c)) on (key gate) (isBare gate) c.streamId
  | later receives _ gate =>
    have on : (nextVideo c video).receiveVideo = true := receives
    exact primed.live (idle_notice c) on (key gate) (isBare gate) c.streamId

variable {move : AvMove}

/-- What any other step does to a subscriber. -/
theorem Primed.entryAfter {entry : Subscriber × List Delivery} (primed : Primed bare entry)
    (other : ∀ video, move ≠ .video video) (key : StreamClientId) : Primed bare (s.entryAfter key move entry) := by
  cases move with
  | audio audio => exact primed.routeAudio audio
  | video video => exact absurd rfl (other video)
  | join _ _ _ _ => exact primed
  | leave _ => exact primed
  | receiveAudio _ receive =>
    simp only [AvDelivery.entryAfter]
    split
    · exact ⟨primed.decodes, primed.sent⟩
    · exact primed
  | receiveVideo _ receive =>
    simp only [AvDelivery.entryAfter]
    split
    · refine ⟨?_, nofun⟩
      dsimp only
      split
      · exact ok_append.mpr ⟨primed.decodes, nofun, trivial⟩
      · exact primed.decodes
    · exact primed

theorem bare_cons (other : ∀ video, move ≠ .video video) (history : List AvMove) :
    AvDelivery.bare (move :: history) = AvDelivery.bare history := by
  cases move with
  | video video => exact absurd rfl (other video)
  | _ => rfl

theorem Startable.step (follows : s.KeyFollows move)
    (ok : s.Startable) : (s.step move).Startable := by
  have new (b : Bool) (key : StreamClientId) (streamWasPlaying receiveAudio receiveVideo : Bool) :
      Primed b (newEntry key streamWasPlaying receiveAudio receiveVideo) := ⟨⟨nofun, trivial⟩, nofun⟩
  by_cases other : ∀ video, move ≠ .video video
  · obtain ⟨config, queue⟩ := step_video_kept (s := s) other
    have still : AvDelivery.bare (s.step move).history = AvDelivery.bare s.history := bare_cons other s.history
    refine ⟨config ▸ ok.config, ?_, fun key entry found => ?_⟩
    · rw [still, queue]
      exact ok.cache
    · rw [still]
      rcases step_cases found with ⟨_, _, _, rfl⟩ | ⟨before, had, rfl⟩
      · exact new ..
      · exact (ok.primed key before had).entryAfter other key
  · obtain ⟨video, rfl⟩ := not_forall_not.mp other
    have config (f : Frame) (stored : (s.enqueueVideoFrame video).avcConfig = some f) : f.isAvcConfig = true := by
      simp only [enqueueVideoFrame] at stored
      split at stored
      · cases stored
        assumption
      · exact ok.config f stored
    have cache := ok.cache.add follows
    refine ⟨config, cache, fun key entry found => ?_⟩
    rcases step_cases found with ⟨_, _, _, rfl⟩ | ⟨before, had, rfl⟩
    · exact new ..
    · exact (ok.primed key before had).routeVideo config cache s.videoQueue rfl follows

/-- The first coded frame of a list is a key frame. -/
def KeyFirst (frames : List Frame) : Prop :=
  ∀ before f after, frames = before ++ f :: after → (∀ g ∈ before, g.isCoded = false) → f.isCoded = true →
    f.isKeyframe = true

theorem CacheOk.keyFirst {frames : List Frame} (ok : CacheOk bare frames) : KeyFirst frames := by
  intro before f after whole uncoded coded
  cases before with
  | nil => exact (ok f after whole).1
  | cons head before =>
    rcases (ok head _ whole).2 with first | ⟨_, none⟩
    · exact absurd first (by rw [uncoded head List.mem_cons_self]; exact Bool.false_ne_true)
    · have inside : f ∈ frames := by
        rw [whole]
        exact List.mem_append_right _ List.mem_cons_self
      exact absurd coded (by rw [none f inside]; exact Bool.false_ne_true)

/-- The first coded frame behind each switch-on of the video is a key frame. -/
def StartsAtKey (log : List Delivery) : Prop :=
  ∀ before between entry after, log = before ++ .videoOn :: (between ++ entry :: after) →
    (∀ other ∈ between, other.isCoded = false) → entry.isCoded = true → entry.isKeyframe = true

/-- Where no inter frame comes between a sequence header and the next key frame, every subscriber
starts at a key frame, and so does the cache. -/
theorem starts_at_key_frame (reach : Transition.Reach step KeyFollows {} s) :
    (∀ key entry, s.subscribers.lookup key = some entry → StartsAtKey entry.2) ∧ KeyFirst s.videoQueue.frames := by
  have start : ({} : AvDelivery).Startable :=
    ⟨nofun, nofun, fun key entry found => absurd ((AList.lookup_empty key).symm.trans found) nofun⟩
  have ok : s.Startable := reach.invariant start fun follows ok => ok.step follows
  refine ⟨fun key entry found => ?_, ok.cache.keyFirst⟩
  intro before between frame after whole misses hit
  have decodes := (ok.primed key entry found).decodes
  rw [whole] at decodes
  exact decodes.first rfl misses hit

def avcHeader : Frame := ⟨0, [0x17, 0]⟩

def avcKey : Frame := ⟨40, [0x17, 1, 1]⟩

def avcInter : Frame := ⟨80, [0x27, 1, 2]⟩

/-- One subscriber waits for the publisher, one comes in the middle of a group and switches its video off and on. -/
def joinAndSwitch : List AvMove :=
  [.join (2, 1) false true true, .video avcHeader, .video avcKey, .join (3, 1) true true true, .video avcInter,
    .receiveVideo (3, 1) false, .receiveVideo (3, 1) true, .video avcInter, .video avcKey]

theorem starts_at_key_frame_switched :
    (∀ key entry, (joinAndSwitch.foldl step {}).subscribers.lookup key = some entry → StartsAtKey entry.2) ∧
      KeyFirst (joinAndSwitch.foldl step {}).videoQueue.frames := by
  refine starts_at_key_frame
    (Transition.Reach.start.along ⟨trivial, nofun, fun _ => .inl rfl, trivial, fun _ => .inr rfl,
    trivial, trivial, fun _ => .inr rfl, fun _ => .inl rfl, trivial⟩)

def interBehindHeader : List AvMove := [.join (2, 1) false true true, .video avcHeader, .video avcInter]

/-- The sequence header passes for the key frame that is waited for. -/
theorem inter_frame_first :
    (∃ entry, (interBehindHeader.foldl step {}).subscribers.lookup (2, 1) = some entry ∧ ¬StartsAtKey entry.2) ∧
      ¬KeyFirst (interBehindHeader.foldl step {}).videoQueue.frames := by
  refine ⟨⟨_, rfl, fun starts => ?_⟩, fun first => ?_⟩
  · have key :=
      starts [] [.primed (avcHeader.videoTo 1 0), .primed (bufferReady { streamWasPlaying := false, streamId := 1 }),
      .live 0 (avcHeader.videoTo 1 0)] (.live 80 (avcInter.videoTo 1 80)) [] rfl (by decide) rfl
    cases key
  · have key := first [avcHeader] avcInter [] rfl (by decide) rfl
    cases key

end AvDelivery

end Fms
