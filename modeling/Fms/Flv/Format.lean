import Fms.ByteBuffer

namespace Fms
open ByteWire

inductive FlvKind
  | audio
  | video
  | script
  deriving DecidableEq

def FlvKind.code : FlvKind → UInt8
  | .audio => 0x08
  | .video => 0x09
  | .script => 0x12

/-- A buffer and its size, which is a 32-bit one. -/
structure FlvBody where
  bytes : Bytes
  sized : bytes.length < 2 ^ 32

def FlvBody.size (body : FlvBody) : UInt32 := UInt32.ofNat body.bytes.length

/-- `flv_writer`, with the bytes of its file. -/
structure FlvWriter where
  file : Bytes
  prevTagSize : UInt32 := 0
  audioTs : UInt32 := 0
  prevAudioTs : UInt32 := 0
  videoTs : UInt32 := 0
  prevVideoTs : UInt32 := 0
  startEpoch : UInt32 := 0
  firstAudioFrame : Bool := true
  firstVideoFrame : Bool := true

namespace FlvWriter

def eMaxTagSize : UInt32 := 0xFFFFFF

def header : Bytes := [0x46, 0x4c, 0x56, 0x01, 0x05, 0x00, 0x00, 0x00, 0x09]

def write (w : FlvWriter) (bytes : Bytes) : FlvWriter := { w with file := w.file ++ bytes }

def writePreviousTagSize (w : FlvWriter) : FlvWriter := w.write (u32Be w.prevTagSize)

/-- A fresh file, after `prepare_file`. -/
def prepareFile : FlvWriter := writePreviousTagSize { file := header }

/-- `write_timestamp`: the low three bytes, and then the high one. -/
def timestampBytes (timestamp : UInt32) : Bytes := u24Be timestamp ++ [UInt8.ofNat (timestamp.toNat / 2 ^ 24)]

def writeTag (w : FlvWriter) (type : UInt8) (size timestamp : UInt32) : Bool × FlvWriter :=
  if size > eMaxTagSize then (false, w)
  else (true, w.write ([type] ++ u24Be size ++ timestampBytes timestamp ++ u24Be 0))

/-- The end of all three functions: the tag, its body and its size. -/
def writeBody (w : FlvWriter) (kind : FlvKind) (body : FlvBody) (timestamp : UInt32) : FlvWriter :=
  match w.writeTag kind.code body.size timestamp with
  | (false, w) => w
  | (true, w) =>
    let w := w.write body.bytes
    writePreviousTagSize { w with prevTagSize := body.size + 11 }

/-- A step back writes no time at all. -/
def advance (written timestamp reference : UInt32) : UInt32 :=
  let delta := (timestamp - reference).toInt32
  if delta > 0 then written + delta.toUInt32 else written

/-- The clock of the audio frames: it starts with the file, or after the first video frame. -/
def stampAudio (w : FlvWriter) (timestamp : UInt32) : FlvWriter :=
  let w :=
    if w.firstAudioFrame then
      let w := { w with firstAudioFrame := false }
      if w.firstVideoFrame then { w with audioTs := 0, startEpoch := timestamp }
      else { w with audioTs := advance 0 timestamp w.startEpoch }
    else { w with audioTs := advance w.audioTs timestamp w.prevAudioTs }
  { w with prevAudioTs := timestamp }

def stampVideo (w : FlvWriter) (timestamp : UInt32) : FlvWriter :=
  let w :=
    if w.firstVideoFrame then
      let w := { w with firstVideoFrame := false }
      if w.firstAudioFrame then { w with videoTs := 0, startEpoch := timestamp }
      else { w with videoTs := advance 0 timestamp w.startEpoch }
    else { w with videoTs := advance w.videoTs timestamp w.prevVideoTs }
  { w with prevVideoTs := timestamp }

def writeAudio (w : FlvWriter) (body : FlvBody) (timestamp : UInt32) : FlvWriter :=
  (w.stampAudio timestamp).writeBody .audio body (w.stampAudio timestamp).audioTs

def writeVideo (w : FlvWriter) (body : FlvBody) (timestamp : UInt32) : FlvWriter :=
  (w.stampVideo timestamp).writeBody .video body (w.stampVideo timestamp).videoTs

def writeScript (w : FlvWriter) (body : FlvBody) (timestamp : UInt32) : FlvWriter :=
  w.writeBody .script body timestamp

end FlvWriter

/-- One call of the writer. -/
structure FlvCall where
  kind : FlvKind
  body : FlvBody
  timestamp : UInt32

def FlvWriter.step (w : FlvWriter) (call : FlvCall) : FlvWriter :=
  match call.kind with
  | .audio => w.writeAudio call.body call.timestamp
  | .video => w.writeVideo call.body call.timestamp
  | .script => w.writeScript call.body call.timestamp

/-- A frame that the reader returns. -/
structure FlvFrame where
  kind : FlvKind
  body : Bytes
  timestamp : UInt32
  deriving DecidableEq

/-- An input stream that is only moved forwards: the bytes ahead of it, and whether it has
failed. A stream that was moved past its end has none ahead. -/
structure InputFile where
  ahead : Bytes
  good : Bool := true

namespace InputFile

def read (f : InputFile) (n : Nat) : Bytes × InputFile :=
  if f.good && n ≤ f.ahead.length then (f.ahead.take n, { f with ahead := f.ahead.drop n })
  else ([], { f with good := false })

/-- `seekg` from the current position; it does nothing to a stream that has failed. -/
def seek (f : InputFile) (n : Nat) : InputFile := if f.good then { f with ahead := f.ahead.drop n } else f

/-- A byte that was zero before. -/
def readU8 (f : InputFile) : UInt8 × InputFile :=
  let (bytes, f) := f.read 1
  (bytes.headD 0, f)

/-- `read_be`, from the bytes read so far. -/
def readBe : Nat → UInt32 → InputFile → UInt32 × InputFile
  | 0, tmp, f => (tmp, f)
  | n + 1, tmp, f =>
    match f.read 1 with
    | ([b], f) => readBe n (tmp <<< 8 ||| b.toUInt32) f
    | (_, f) => (0, f)

def readUint32_3 (f : InputFile) : UInt32 × InputFile := readBe 3 0 f

variable {f : InputFile} {n : Nat}

theorem read_good (good : (f.read n).2.good = true) :
    f.good = true ∧ (f.read n).2.ahead.length + n = f.ahead.length := by
  unfold read at good ⊢
  split at good
  · rename_i enough
    rw [if_pos enough]
    simp only [Bool.and_eq_true, decide_eq_true_eq] at enough
    refine ⟨enough.1, ?_⟩
    simp only [List.length_drop]
    omega
  · cases good

theorem seek_good (good : (f.seek n).good = true) : f.good = true ∧ (f.seek n).ahead.length ≤ f.ahead.length := by
  unfold seek at good ⊢
  split
  · rename_i before
    exact ⟨before, by simp⟩
  · rename_i failed
    rw [if_neg failed] at good
    exact absurd good failed

theorem readU8_good (good : f.readU8.2.good = true) :
    f.good = true ∧ f.readU8.2.ahead.length + 1 = f.ahead.length := read_good good

theorem readBe_good {tmp : UInt32} (good : (readBe n tmp f).2.good = true) :
    f.good = true ∧ (readBe n tmp f).2.ahead.length ≤ f.ahead.length := by
  induction n generalizing tmp f with
  | zero => exact ⟨good, Nat.le_refl _⟩
  | succ n ih =>
    have first : (f.read 1).2.good = true → f.good = true ∧
      (f.read 1).2.ahead.length + 1 = f.ahead.length := read_good
    rw [readBe] at good ⊢
    generalize f.read 1 = got at first good ⊢
    obtain ⟨bytes, rest⟩ := got
    dsimp only at first
    split at good
    · rename_i b g byte
      cases byte
      obtain ⟨before, shorter⟩ := ih good
      obtain ⟨earlier, one⟩ := first before
      exact ⟨earlier, Nat.le_trans shorter (by omega)⟩
    · rename_i other g byte short
      cases short
      obtain ⟨earlier, one⟩ := first good
      refine ⟨earlier, ?_⟩
      dsimp only
      omega

theorem readUint32_3_good (good : f.readUint32_3.2.good = true) :
    f.good = true ∧ f.readUint32_3.2.ahead.length ≤ f.ahead.length := readBe_good good

end InputFile

namespace FlvReader

/-- The file is opened and moved past its header; `read_metadata` puts it back there. -/
def openFile (data : Bytes) : InputFile := InputFile.seek ⟨data, true⟩ 13

/-- What one round of `read_frame` does. -/
inductive Round
  | stop (f : InputFile)
  | frame (frame : FlvFrame) (f : InputFile)
  | skip (f : InputFile)

def readBody (kind : FlvKind) (size ts : UInt32) (f : InputFile) : Round :=
  let (body, f) := f.read size.toNat
  if !f.good then .stop f else .frame ⟨kind, body, ts⟩ (f.seek 4)

/-- The fields in front of a body: its type, its size and its timestamp. -/
def readHeader (f : InputFile) : (UInt8 × UInt32 × UInt32) × InputFile :=
  let c := f.readU8
  let size := c.2.readUint32_3
  let ts := size.2.readUint32_3
  let tsExtended := ts.2.readU8
  ((c.1, size.1, ts.1 ||| tsExtended.1.toUInt32 <<< 24), tsExtended.2.seek 3)

def readTag (f : InputFile) : Round :=
  if !f.good then .stop f
  else
    let ((c, size, ts), f) := readHeader f
    if !f.good then .stop f
    else if c = 0x08 then readBody .audio size ts f
    else if c = 0x09 then readBody .video size ts f
    else .skip (f.seek (size + 4).toNat)

theorem readHeader_good {f : InputFile} (good : (readHeader f).2.good = true) :
    (readHeader f).2.ahead.length < f.ahead.length := by
  unfold readHeader at good ⊢
  dsimp only at good ⊢
  obtain ⟨extended, after⟩ := InputFile.seek_good good
  obtain ⟨stamped, first⟩ := InputFile.readU8_good extended
  obtain ⟨sized, second⟩ := InputFile.readUint32_3_good stamped
  obtain ⟨typed, third⟩ := InputFile.readUint32_3_good sized
  obtain ⟨_, fourth⟩ := InputFile.readU8_good typed
  omega

theorem readTag_skip {f g : InputFile} (skipped : readTag f = .skip g) : g.ahead.length < f.ahead.length := by
  have shorter : (readHeader f).2.good = true → (readHeader f).2.ahead.length < f.ahead.length := readHeader_good
  unfold readTag readBody at skipped
  generalize readHeader f = header at skipped shorter
  obtain ⟨⟨c, size, ts⟩, h⟩ := header
  dsimp only at shorter
  split at skipped
  · cases skipped
  · dsimp only at skipped
    split at skipped
    · cases skipped
    · rename_i good
      have open_ : h.good = true := by simpa using good
      split at skipped
      · split at skipped <;> cases skipped
      · split at skipped
        · split at skipped <;> cases skipped
        · cases skipped
          refine Nat.lt_of_le_of_lt ?_ (shorter open_)
          simp [InputFile.seek, open_]

/-- `read_frame`: the frame that was read, and the stream after it. -/
def readFrame (f : InputFile) : Option FlvFrame × InputFile :=
  match _ : readTag f with
  | .stop g => (none, g)
  | .frame frame g => (some frame, g)
  | .skip g => readFrame g
termination_by f.ahead.length
decreasing_by exact readTag_skip (by assumption)

/-- The results of so many calls in a row. -/
def readFrames : Nat → InputFile → List (Option FlvFrame)
  | 0, _ => []
  | n + 1, f => (readFrame f).1 :: readFrames n (readFrame f).2

end FlvReader
end Fms
