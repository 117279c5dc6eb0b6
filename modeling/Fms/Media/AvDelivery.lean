import Fms.App.SendQueue
import Fms.Base.Serial
import Fms.Base.Transition
import Fms.Media.StreamRegistry
import Fms.Session.ChannelMap

namespace Fms
open ByteWire ChannelMap Serial

/-- An audio or video message as the publisher sent it. -/
structure Frame where
  timestamp : UInt32
  data : Bytes

namespace Frame

def high (f : Frame) : UInt8 := f.data.head?.elim 0 fun first => (first >>> 4) &&& 0x0f

def low (f : Frame) : UInt8 := f.data.head?.elim 0 fun first => first &&& 0x0f

def videoCodec (f : Frame) : UInt8 := f.low

def frameType (f : Frame) : UInt8 := f.high

def audioCodec (f : Frame) : UInt8 := f.high

def isKeyframe (f : Frame) : Bool := f.frameType = RtmpMessage.eKeyFrame

/-- The second byte of an AVC or AAC message. -/
def hasPacketType (f : Frame) (type : UInt8) : Bool := f.data[1]? = some type

/-- An AVC sequence header, which has the type of a key frame. -/
def isAvcConfig (f : Frame) : Bool := f.isKeyframe && f.videoCodec = RtmpMessage.eAVC && f.hasPacketType 0

def isAacConfig (f : Frame) : Bool := f.audioCodec = RtmpMessage.eAAC && f.hasPacketType 0

def videoTo (f : Frame) (streamId timestamp : UInt32) : RtmpMessage :=
  { type := .videoData, streamId, channelId := streamToChannel streamId .video, timestamp, payload := some f.data }

def audioTo (f : Frame) (streamId timestamp : UInt32) : RtmpMessage :=
  { type := .audioData, streamId, channelId := streamToChannel streamId .audio, timestamp, payload := some f.data }

end Frame

/-- `gop_cache`: the frames since the publisher's last key frame. -/
structure GopCache where
  frames : List Frame := []
  bytes : Nat := 0

namespace GopCache

def eMaxFrames : Nat := 3000
def eMaxBytes : Nat := 16 * 1024 * 1024

def push (q : GopCache) (frame : Frame) : GopCache :=
  if q.frames.length ≥ eMaxFrames ∨ q.bytes + frame.data.length > eMaxBytes then {}
  else { frames := q.frames ++ [frame], bytes := q.bytes + frame.data.length }

/-- A key frame starts a new group; any other frame extends the current one. -/
def add (q : GopCache) (frame : Frame) (keyframe : Bool) : GopCache :=
  if keyframe then push {} frame
  else if q.frames.isEmpty then q
  else q.push frame

end GopCache

/-- `stream_client`: a subscriber with its clocks. -/
structure Subscriber extends StreamClient where
  streamId : UInt32
  bufferEmpty : Bool := true
  firstAudioPacketSeen : Bool := false
  firstVideoPacketSeen : Bool := false
  videoEpoch : UInt32 := 0
  audioEpoch : UInt32 := 0
  videoTime : UInt32 := 0
  audioTime : UInt32 := 0
  startEpoch : UInt32 := 0

/-- What becomes of a subscriber: its video is switched on, a message goes out to prime it, or a
message of the publisher is passed on. -/
inductive Delivery
  | videoOn
  | primed (msg : RtmpMessage)
  | live (publisherTime : UInt32) (msg : RtmpMessage)

/-- A request or a message that concerns a published stream. -/
inductive AvMove
  | audio (frame : Frame)
  | video (frame : Frame)
  | join (key : StreamClientId) (streamWasPlaying receiveAudio receiveVideo : Bool)
  | leave (key : StreamClientId)
  | receiveAudio (key : StreamClientId) (receive : Bool)
  | receiveVideo (key : StreamClientId) (receive : Bool)

/-- A `broadcast_stream` with its subscribers and what each was sent, and all that happened to the
stream, the latest first. -/
structure AvDelivery where
  videoQueue : GopCache := {}
  avcConfig : Option Frame := none
  aacConfig : Option Frame := none
  subscribers : Dict StreamClientId (Subscriber × List Delivery) := ∅
  history : List AvMove := []

namespace AvDelivery

def enqueueVideoFrame (s : AvDelivery) (video : Frame) : AvDelivery :=
  { s with
    avcConfig := if video.isAvcConfig then some video else s.avcConfig
    videoQueue := s.videoQueue.add video video.isKeyframe }

/-- The notice that goes out before the first message into an empty buffer. -/
def bufferReady (c : Subscriber) : RtmpMessage :=
  { type := .ping, streamId := 0, channelId := 2, timestamp := 0, payload := some (beBytes 2 32 ++ u32Be c.streamId) }

def deliverToSubscriber (c : Subscriber) (entry : Delivery) : Subscriber × List Delivery :=
  if c.bufferEmpty then ({ c with bufferEmpty := false }, [.primed (bufferReady c), entry]) else (c, [entry])

def sendAvcConfig (s : AvDelivery) (c : Subscriber) : List Delivery :=
  (s.avcConfig.map fun config => .primed (config.videoTo c.streamId 0)).toList

/-- The markers around a burst. -/
def infoMsg (video : Frame) (second : UInt8) : Frame where
  timestamp := 0
  data := [(RtmpMessage.eVideoInfo <<< 4) ||| video.videoCodec, second]

def sendEnqueuedVideoFrames (s : AvDelivery) (c : Subscriber) (video : Frame) : List Delivery :=
  s.sendAvcConfig c ++ .primed ((infoMsg video 0).videoTo c.streamId 0) ::
    (s.videoQueue.frames.map fun frame => .primed (frame.videoTo c.streamId 0)) ++
    [.primed ((infoMsg video 1).videoTo c.streamId 0)]

/-- The stream was playing when the subscriber came, and there is more than the current frame to
catch up on. -/
def servesBurst (s : AvDelivery) (c : Subscriber) : Bool := c.streamWasPlaying && s.videoQueue.frames.length > 1

def startVideo (c : Subscriber) (video : Frame) : Subscriber :=
  { c with
    firstVideoPacketSeen := true
    videoEpoch := video.timestamp
    videoTime := 0
    startEpoch := if !c.firstAudioPacketSeen then video.timestamp else c.startEpoch }

def sendVideoFrame (s : AvDelivery) (c : Subscriber) (video : Frame) : Subscriber × List Delivery :=
  let c := { c with keyFrameSent := true }
  if !c.firstVideoPacketSeen then
    let c := startVideo c video
    if s.servesBurst c then (c, s.sendEnqueuedVideoFrames c video)
    else
      let c := { c with videoTime := if video.timestamp ≥ c.startEpoch then video.timestamp - c.startEpoch else 0 }
      let (c', sent) := deliverToSubscriber c (.live video.timestamp (video.videoTo c.streamId c.videoTime))
      (c', s.sendAvcConfig c ++ sent)
  else
    let c := { c with
      videoTime := if Forward c.videoEpoch video.timestamp then c.videoTime + (video.timestamp - c.videoEpoch)
        else c.videoTime + 1
      videoEpoch := video.timestamp }
    deliverToSubscriber c (.live video.timestamp (video.videoTo c.streamId c.videoTime))

/-- A subscriber that came late can start from the cache. -/
def primable (s : AvDelivery) (c : Subscriber) : Bool :=
  c.streamWasPlaying && !c.firstVideoPacketSeen && !s.videoQueue.frames.isEmpty

def routeVideoTo (s : AvDelivery) (video : Frame) (c : Subscriber) : Subscriber × List Delivery :=
  if !c.receiveVideo then (c, [])
  else if !c.keyFrameSent && !video.isKeyframe && !s.primable c then (c, [])
  else s.sendVideoFrame c video

def storeAacConfig (s : AvDelivery) (audio : Frame) : AvDelivery :=
  { s with aacConfig := if audio.isAacConfig then some audio else s.aacConfig }

def sendAacConfig (s : AvDelivery) (c : Subscriber) : List Delivery :=
  (s.aacConfig.map fun config => .primed (config.audioTo c.streamId 0)).toList

def startAudio (c : Subscriber) (audio : Frame) : Subscriber :=
  let c := { c with startEpoch := if !c.firstVideoPacketSeen then audio.timestamp else c.startEpoch }
  { c with
    firstAudioPacketSeen := true
    audioEpoch := audio.timestamp
    audioTime := if audio.timestamp > c.startEpoch then audio.timestamp - c.startEpoch else 0 }

def sendAudioFrame (s : AvDelivery) (c : Subscriber) (audio : Frame) : Subscriber × List Delivery :=
  if !c.firstAudioPacketSeen then
    let c := startAudio c audio
    let opener : Frame := ⟨audio.timestamp, []⟩
    let (c', sent) := deliverToSubscriber c (.live audio.timestamp (audio.audioTo c.streamId c.audioTime))
    (c', s.sendAacConfig c ++ .live audio.timestamp (opener.audioTo c.streamId c.audioTime) :: sent)
  else
    let c := { c with
      audioTime := c.audioTime + if Forward c.audioEpoch audio.timestamp then audio.timestamp - c.audioEpoch else 0
      audioEpoch := audio.timestamp }
    deliverToSubscriber c (.live audio.timestamp (audio.audioTo c.streamId c.audioTime))

def routeAudioTo (s : AvDelivery) (audio : Frame) (c : Subscriber) : Subscriber × List Delivery :=
  if !c.receiveAudio then (c, []) else s.sendAudioFrame c audio

/-- `for_each_subscriber`. -/
def forEachSubscriber (s : AvDelivery) (send : Subscriber → Subscriber × List Delivery) : AvDelivery :=
  { s with subscribers := s.subscribers.filterMap fun _ (c, log) => some ((send c).1, log ++ (send c).2) }

def updateSubscriber (s : AvDelivery) (key : StreamClientId)
    (change : Subscriber × List Delivery → Subscriber × List Delivery) :
    AvDelivery :=
  match s.subscribers.lookup key with
  | some entry => { s with subscribers := s.subscribers.insert key (change entry) }
  | none => s

def act (s : AvDelivery) : AvMove → AvDelivery
  | .audio audio => let s := s.storeAacConfig audio; s.forEachSubscriber (s.routeAudioTo audio)
  | .video video => let s := s.enqueueVideoFrame video; s.forEachSubscriber (s.routeVideoTo video)
  | .join key streamWasPlaying receiveAudio receiveVideo =>
    let c : Subscriber := { streamWasPlaying, receiveAudio, receiveVideo, streamId := UInt32.ofNat key.2 }
    { s with subscribers := s.subscribers.insert key (c, [.videoOn]) }
  | .leave key => { s with subscribers := s.subscribers.erase key }
  | .receiveAudio key receive => s.updateSubscriber key fun (c, log) => ({ c with receiveAudio := receive }, log)
  | .receiveVideo key receive => s.updateSubscriber key fun (c, log) =>
      ({ c with receiveVideo := receive, keyFrameSent := false }, if receive then log ++ [.videoOn] else log)

def step (s : AvDelivery) (move : AvMove) : AvDelivery := { s.act move with history := move :: s.history }

def entryAfter (s : AvDelivery) (key : StreamClientId) : AvMove → Subscriber × List Delivery →
    Subscriber × List Delivery
  | .audio audio, (c, log) =>
    let sent := (s.storeAacConfig audio).routeAudioTo audio c
    (sent.1, log ++ sent.2)
  | .video video, (c, log) =>
    let sent := (s.enqueueVideoFrame video).routeVideoTo video c
    (sent.1, log ++ sent.2)
  | .receiveAudio other receive, (c, log) =>
    if key = other then ({ c with receiveAudio := receive }, log) else (c, log)
  | .receiveVideo other receive, (c, log) =>
    if key = other then ({ c with receiveVideo := receive, keyFrameSent := false },
      if receive then log ++ [.videoOn] else log)
    else (c, log)
  | .join _ _ _ _, entry | .leave _, entry => entry

def newEntry (key : StreamClientId) (streamWasPlaying receiveAudio receiveVideo : Bool) :
    Subscriber × List Delivery :=
  ({ streamWasPlaying, receiveAudio, receiveVideo, streamId := UInt32.ofNat key.2 }, [.videoOn])

variable {s : AvDelivery} {key : StreamClientId} {entry : Subscriber × List Delivery} {move : AvMove}

theorem lookup_forEach {send : Subscriber → Subscriber × List Delivery}
    (found : (s.forEachSubscriber send).subscribers.lookup key = some entry) :
    ∃ before, s.subscribers.lookup key = some before ∧
      entry = ((send before.1).1, before.2 ++ (send before.1).2) := by
  rw [forEachSubscriber, Dict.lookup_filterMap] at found
  obtain ⟨before, had, now⟩ := Option.bind_eq_some_iff.mp found
  exact ⟨before, had, (Option.some.inj now).symm⟩

theorem lookup_update {other : StreamClientId} {change : Subscriber × List Delivery → Subscriber × List Delivery}
    (found : (s.updateSubscriber other change).subscribers.lookup key = some entry) :
    ∃ before, s.subscribers.lookup key = some before ∧ entry = if key = other then change before else before := by
  unfold updateSubscriber at found
  split at found
  · rename_i old had
    rw [Dict.lookup_insert_if] at found
    split at found
    · rename_i same
      cases found
      exact ⟨old, same ▸ had, (if_pos same).symm⟩
    · rename_i apart
      exact ⟨entry, found, (if_neg apart).symm⟩
  · rename_i none
    refine ⟨entry, found, (if_neg fun same => ?_).symm⟩
    rw [same, none] at found
    cases found

theorem step_video_kept (other : ∀ video, move ≠ .video video) :
    (s.step move).avcConfig = s.avcConfig ∧ (s.step move).videoQueue = s.videoQueue := by
  have kept (key : StreamClientId) (change : Subscriber × List Delivery → Subscriber × List Delivery) :
      (s.updateSubscriber key change).avcConfig = s.avcConfig ∧
        (s.updateSubscriber key change).videoQueue = s.videoQueue := by
    unfold updateSubscriber
    split
    · exact ⟨rfl, rfl⟩
    · exact ⟨rfl, rfl⟩
  cases move with
  | video video => exact absurd rfl (other video)
  | audio _ => exact ⟨rfl, rfl⟩
  | join _ _ _ _ => exact ⟨rfl, rfl⟩
  | leave _ => exact ⟨rfl, rfl⟩
  | receiveAudio key _ => exact kept key _
  | receiveVideo key _ => exact kept key _

theorem step_cases (found : (s.step move).subscribers.lookup key = some entry) :
    (∃ streamWasPlaying receiveAudio receiveVideo, entry = newEntry key streamWasPlaying receiveAudio receiveVideo) ∨
      ∃ before, s.subscribers.lookup key = some before ∧ entry = s.entryAfter key move before := by
  change (s.act move).subscribers.lookup key = some entry at found
  cases move with
  | audio audio => exact .inr (lookup_forEach found)
  | video video => exact .inr (lookup_forEach found)
  | join other streamWasPlaying receiveAudio receiveVideo =>
    rw [act, Dict.lookup_insert_if] at found
    split at found
    · rename_i same
      subst same
      exact .inl ⟨streamWasPlaying, receiveAudio, receiveVideo, (Option.some.inj found).symm⟩
    · exact .inr ⟨entry, found, rfl⟩
  | leave other =>
    rw [act, Dict.lookup_erase_if] at found
    split at found
    · cases found
    · exact .inr ⟨entry, found, rfl⟩
  | receiveAudio other receive => exact .inr (lookup_update found)
  | receiveVideo other receive => exact .inr (lookup_update found)

def notice (c : Subscriber) : List Delivery := if c.bufferEmpty then [.primed (bufferReady c)] else []

theorem deliverToSubscriber_eq (c : Subscriber) (entry : Delivery) :
    deliverToSubscriber c entry = ({ c with bufferEmpty := false }, notice c ++ [entry]) := by
  unfold deliverToSubscriber notice
  cases buffer : c.bufferEmpty with
  | true => rfl
  | false =>
    simp only [Bool.false_eq_true, if_false, List.nil_append]
    rw [← buffer]

/-- The subscriber after its first video frame, where that one is not part of a burst. -/
def openVideo (c : Subscriber) (video : Frame) : Subscriber :=
  let c := startVideo { c with keyFrameSent := true } video
  { c with
    videoTime := if video.timestamp ≥ c.startEpoch then video.timestamp - c.startEpoch else 0
    bufferEmpty := false }

def nextVideo (c : Subscriber) (video : Frame) : Subscriber :=
  { c with
    keyFrameSent := true
    videoTime := if Forward c.videoEpoch video.timestamp then c.videoTime +
      (video.timestamp - c.videoEpoch) else c.videoTime + 1
    videoEpoch := video.timestamp
    bufferEmpty := false }

/-- What passing a video frame on to a subscriber comes to. -/
inductive VideoRound (s : AvDelivery) (video : Frame) (c : Subscriber) : Subscriber × List Delivery → Prop
  | off : c.receiveVideo = false → VideoRound s video c (c, [])
  | waits : c.keyFrameSent = false → VideoRound s video c (c, [])
  | burst : c.receiveVideo = true → c.firstVideoPacketSeen = false → s.servesBurst c = true →
      VideoRound s video c (startVideo { c with keyFrameSent := true } video, s.sendEnqueuedVideoFrames c video)
  | first : c.receiveVideo = true → c.firstVideoPacketSeen = false → s.servesBurst c = false →
      (c.keyFrameSent = true ∨ video.isKeyframe = true ∨ s.primable c = true) →
      VideoRound s video c (openVideo c video, s.sendAvcConfig c ++ (notice c ++
        [.live video.timestamp (video.videoTo c.streamId (openVideo c video).videoTime)]))
  | later : c.receiveVideo = true → c.firstVideoPacketSeen = true →
      (c.keyFrameSent = true ∨ video.isKeyframe = true) →
      VideoRound s video c (nextVideo c video, notice c ++
        [.live video.timestamp (video.videoTo c.streamId (nextVideo c video).videoTime)])

theorem videoRound (s : AvDelivery) (video : Frame)
    (c : Subscriber) : VideoRound s video c (s.routeVideoTo video c) := by
  unfold routeVideoTo
  cases receives : c.receiveVideo with
  | false => exact .off receives
  | true =>
    simp only [Bool.not_true, Bool.false_eq_true, if_false]
    split
    · rename_i closed
      simp only [Bool.and_eq_true, Bool.not_eq_true'] at closed
      exact .waits closed.1.1
    · rename_i passed
      have gate : c.keyFrameSent = true ∨ video.isKeyframe = true ∨ s.primable c = true := by
        cases sent : c.keyFrameSent <;> cases key : video.isKeyframe <;> cases prime : s.primable c <;> simp_all
      unfold sendVideoFrame
      dsimp only
      split
      · rename_i unseen
        have seen : c.firstVideoPacketSeen = false := by simpa using unseen
        split
        · rename_i burst
          exact .burst receives seen burst
        · rename_i calm
          rw [deliverToSubscriber_eq]
          exact .first receives seen (Bool.eq_false_iff.mpr calm) gate
      · rename_i known
        have seen : c.firstVideoPacketSeen = true := by simpa using known
        rw [deliverToSubscriber_eq]
        refine .later receives seen (gate.imp_right fun rest => rest.resolve_right fun prime => ?_)
        simp [primable, seen] at prime

def openAudio (c : Subscriber) (audio : Frame) : Subscriber := { startAudio c audio with bufferEmpty := false }

def nextAudio (c : Subscriber) (audio : Frame) : Subscriber :=
  { c with
    audioTime := c.audioTime + if Forward c.audioEpoch audio.timestamp then audio.timestamp - c.audioEpoch else 0
    audioEpoch := audio.timestamp
    bufferEmpty := false }

/-- What passing an audio frame on to a subscriber comes to. -/
inductive AudioRound (s : AvDelivery) (audio : Frame) (c : Subscriber) : Subscriber × List Delivery → Prop
  | off : c.receiveAudio = false → AudioRound s audio c (c, [])
  | first : c.receiveAudio = true → c.firstAudioPacketSeen = false →
      AudioRound s audio c (openAudio c audio, s.sendAacConfig c ++
        .live audio.timestamp (Frame.audioTo ⟨audio.timestamp, []⟩ c.streamId (openAudio c audio).audioTime) ::
        (notice c ++ [.live audio.timestamp (audio.audioTo c.streamId (openAudio c audio).audioTime)]))
  | later : c.receiveAudio = true → c.firstAudioPacketSeen = true →
      AudioRound s audio c (nextAudio c audio, notice c ++
        [.live audio.timestamp (audio.audioTo c.streamId (nextAudio c audio).audioTime)])

theorem audioRound (s : AvDelivery) (audio : Frame)
    (c : Subscriber) : AudioRound s audio c (s.routeAudioTo audio c) := by
  unfold routeAudioTo
  cases receives : c.receiveAudio with
  | false => exact .off receives
  | true =>
    simp only [Bool.not_true, Bool.false_eq_true, if_false]
    unfold sendAudioFrame
    dsimp only
    split
    · rename_i unseen
      rw [deliverToSubscriber_eq]
      exact .first receives (by simpa using unseen)
    · rename_i known
      rw [deliverToSubscriber_eq]
      exact .later receives (by simpa using known)

end AvDelivery

end Fms
