import Fms.Flv.Format

namespace Fms
open ByteWire

variable {kind : FlvKind} {body : FlvBody} {timestamp : UInt32} {f g : InputFile}

namespace InputFile

theorem read_append (bytes rest : Bytes) : read ⟨bytes ++ rest, true⟩ bytes.length = (bytes, ⟨rest, true⟩) := by
  simp [read]

theorem seek_append (bytes rest : Bytes) : seek ⟨bytes ++ rest, true⟩ bytes.length = ⟨rest, true⟩ := by
  simp [seek]

theorem readU8_cons (b : UInt8) (rest : Bytes) : readU8 ⟨b :: rest, true⟩ = (b, ⟨rest, true⟩) := by
  simp [readU8, read]

theorem toNat_shift_or {tmp : UInt32} (b : UInt8) (small : tmp.toNat < 2 ^ 24) :
    (tmp <<< 8 ||| b.toUInt32).toNat = tmp.toNat * 256 + b.toNat := by
  have byte := b.toNat_lt
  rw [UInt32.toNat_or, UInt32.toNat_shiftLeft, UInt8.toNat_toUInt32]
  have shifted : tmp.toNat <<< ((8 : UInt32).toNat % 32) % 2 ^ 32 = tmp.toNat <<< 8 := by
    show tmp.toNat <<< 8 % 2 ^ 32 = _
    rw [Nat.shiftLeft_eq]
    omega
  rw [shifted, ← Nat.shiftLeft_add_eq_or_of_lt byte, Nat.shiftLeft_eq]

/-- `read_be` spells the bytes it reads after those read so far. -/
theorem readBe_append {bytes : Bytes} {tmp : UInt32} {width : Nat} (few : bytes.length + width ≤ 4)
    (small : tmp.toNat < 256 ^ width) (rest : Bytes) :
    readBe bytes.length tmp ⟨bytes ++ rest, true⟩ =
      (UInt32.ofNat (bytes.foldl (fun acc b => acc * 256 + b.toNat) tmp.toNat), ⟨rest, true⟩) := by
  induction bytes generalizing tmp width with
  | nil => simp [readBe]
  | cons b bytes ih =>
    have first : read ⟨b :: (bytes ++ rest), true⟩ 1 = ([b], ⟨bytes ++ rest, true⟩) := read_append [b] (bytes ++ rest)
    rw [List.length_cons] at few
    have room : 256 ^ width ≤ 256 ^ 3 := Nat.pow_le_pow_right (by decide) (by omega)
    have next := toNat_shift_or b (show tmp.toNat < 2 ^ 24 by omega)
    have byte := b.toNat_lt
    have grown : (tmp <<< 8 ||| b.toUInt32).toNat < 256 ^ (width + 1) := by
      rw [next, pow_succ]
      omega
    rw [List.length_cons, readBe, List.cons_append, first]
    simp only [ih (by omega) grown, List.foldl_cons, next]

theorem readUint32_3_u24Be (v : UInt32) (rest : Bytes) :
    readUint32_3 ⟨u24Be v ++ rest, true⟩ = (UInt32.ofNat (v.toNat % 2 ^ 24), ⟨rest, true⟩) := by
  have few : (u24Be v).length + 0 ≤ 4 := by simp
  have read := readBe_append few (show (0 : UInt32).toNat < 256 ^ 0 by decide) rest
  rw [length_u24Be] at read
  rw [readUint32_3, read, u24Be, foldl_beBytes]
  simp

end InputFile

namespace FlvWriter

theorem timestamp_parts (ts : UInt32) :
    UInt32.ofNat (ts.toNat % 2 ^ 24) ||| (UInt8.ofNat (ts.toNat / 2 ^ 24)).toUInt32 <<< 24 = ts := by
  refine UInt32.toNat_inj.mp ?_
  have below := ts.toNat_lt
  have high : (UInt8.ofNat (ts.toNat / 2 ^ 24)).toUInt32.toNat = ts.toNat / 2 ^ 24 := by
    rw [UInt8.toNat_toUInt32, UInt8.toNat_ofNat']
    omega
  have low : (UInt32.ofNat (ts.toNat % 2 ^ 24)).toNat = ts.toNat % 2 ^ 24 := toNat_word (by omega)
  have shifted : (ts.toNat / 2 ^ 24) <<< ((24 : UInt32).toNat % 32) % 2 ^ 32 = (ts.toNat / 2 ^ 24) <<< 24 := by
    show (ts.toNat / 2 ^ 24) <<< 24 % 2 ^ 32 = _
    rw [Nat.shiftLeft_eq]
    omega
  rw [UInt32.toNat_or, UInt32.toNat_shiftLeft, low, high, shifted, Nat.or_comm,
    ← Nat.shiftLeft_add_eq_or_of_lt (Nat.mod_lt _ (by decide)), Nat.shiftLeft_eq]
  omega

/-- A tag in the file, for a frame or a script of a size it can say. -/
def tagBytes (tag : FlvFrame) : Bytes :=
  let size := UInt32.ofNat tag.body.length
  [tag.kind.code] ++ u24Be size ++ timestampBytes tag.timestamp ++ u24Be 0 ++ tag.body ++ u32Be (size + 11)

end FlvWriter

/-- The call is not refused. -/
def FlvCall.fits (call : FlvCall) : Bool := call.body.size ≤ FlvWriter.eMaxTagSize

namespace FlvWriter
variable {w : FlvWriter}

/-- The timestamp that the writer has stored for a call it just served. -/
def stored (w : FlvWriter) (call : FlvCall) : UInt32 :=
  match call.kind with
  | .audio => w.audioTs
  | .video => w.videoTs
  | .script => call.timestamp

/-- The calls that were accepted, each with the timestamp that was stored for it. -/
def accepted : FlvWriter → List FlvCall → List FlvFrame
  | _, [] => []
  | w, call :: calls =>
    let tag : FlvFrame := ⟨call.kind, call.body.bytes, (w.step call).stored call⟩
    if call.fits then tag :: accepted (w.step call) calls else accepted (w.step call) calls

theorem writeBody_refused (large : body.size > eMaxTagSize) : w.writeBody kind body timestamp = w := by
  rw [writeBody, writeTag, if_pos large]

theorem writeBody_file (fits : ¬body.size > eMaxTagSize) :
    (w.writeBody kind body timestamp).file = w.file ++ tagBytes ⟨kind, body.bytes, timestamp⟩ := by
  rw [writeBody, writeTag, if_neg fits]
  simp only [write, writePreviousTagSize, tagBytes, List.append_assoc]
  rfl

theorem writeBody_audioTs : (w.writeBody kind body timestamp).audioTs = w.audioTs := by
  rw [writeBody, writeTag]
  split <;> rename_i found <;> split at found <;> cases found <;> rfl

theorem writeBody_videoTs : (w.writeBody kind body timestamp).videoTs = w.videoTs := by
  rw [writeBody, writeTag]
  split <;> rename_i found <;> split at found <;> cases found <;> rfl

theorem stampAudio_file (timestamp : UInt32) : (w.stampAudio timestamp).file = w.file := by
  unfold stampAudio
  dsimp only
  split
  · split <;> rfl
  · rfl

theorem stampVideo_file (timestamp : UInt32) : (w.stampVideo timestamp).file = w.file := by
  unfold stampVideo
  dsimp only
  split
  · split <;> rfl
  · rfl

/-- A call appends its tag, or nothing if it is refused. -/
theorem step_file (call : FlvCall) :
    (w.step call).file =
      w.file ++ if call.fits then tagBytes ⟨call.kind, call.body.bytes, (w.step call).stored call⟩ else [] := by
  have appended {v : FlvWriter} {timestamp : UInt32} (before : v.file = w.file) :
      (v.writeBody call.kind call.body timestamp).file =
        w.file ++ if call.fits then tagBytes ⟨call.kind, call.body.bytes, timestamp⟩ else [] := by
    by_cases fits : call.body.size ≤ eMaxTagSize
    · rw [writeBody_file (UInt32.not_lt.mpr fits), before, FlvCall.fits, decide_eq_true fits]
      rfl
    · rw [writeBody_refused (UInt32.not_le.mp fits), before, FlvCall.fits, decide_eq_false fits]
      exact (List.append_nil _).symm
  obtain ⟨kind, body, timestamp⟩ := call
  cases kind with
  | audio =>
    have stamp : (w.step ⟨.audio, body, timestamp⟩).stored ⟨.audio, body, timestamp⟩ =
        (w.stampAudio timestamp).audioTs :=
      writeBody_audioTs
    rw [stamp]
    exact appended (stampAudio_file timestamp)
  | video =>
    have stamp : (w.step ⟨.video, body, timestamp⟩).stored ⟨.video, body, timestamp⟩ =
        (w.stampVideo timestamp).videoTs :=
      writeBody_videoTs
    rw [stamp]
    exact appended (stampVideo_file timestamp)
  | script => exact appended rfl

theorem foldl_file (calls : List FlvCall) :
    (calls.foldl step w).file = w.file ++ (accepted w calls).flatMap tagBytes := by
  induction calls generalizing w with
  | nil => exact (List.append_nil _).symm
  | cons call calls ih =>
    rw [List.foldl_cons, ih, step_file, accepted, List.append_assoc]
    split <;> rfl

theorem accepted_length {calls : List FlvCall} : ∀ tag ∈ accepted w calls, tag.body.length ≤ 0xFFFFFF := by
  induction calls generalizing w with
  | nil => exact fun tag member => absurd member List.not_mem_nil
  | cons call calls ih =>
    intro tag member
    rw [accepted] at member
    split at member
    · rename_i fits
      rcases List.mem_cons.mp member with rfl | later
      · have small := UInt32.le_iff_toNat_le.mp (of_decide_eq_true fits)
        rw [FlvBody.size, UInt32.toNat_ofNat', Nat.mod_eq_of_lt call.body.sized] at small
        exact small
      · exact ih tag later
    · exact ih tag member

end FlvWriter

/-- A complete tag of a file, whoever wrote it. -/
structure FlvTag where
  type : UInt8
  timestamp : UInt32
  body : Bytes
  streamId : UInt32 := 0
  previousTagSize : UInt32 := UInt32.ofNat body.length + 11
  sized : body.length < 2 ^ 24

namespace FlvTag

def bytes (tag : FlvTag) : Bytes :=
  [tag.type] ++ u24Be (UInt32.ofNat tag.body.length) ++ FlvWriter.timestampBytes tag.timestamp ++
    u24Be tag.streamId ++
    tag.body ++ u32Be tag.previousTagSize

/-- The frame that it holds, if it is one of audio or video. -/
def frame (tag : FlvTag) : Option FlvFrame :=
  if tag.type = 0x08 then some ⟨.audio, tag.body, tag.timestamp⟩
  else if tag.type = 0x09 then some ⟨.video, tag.body, tag.timestamp⟩
  else none

theorem size_toNat (tag : FlvTag) : (UInt32.ofNat tag.body.length).toNat = tag.body.length :=
  toNat_word (by have := tag.sized; omega)

end FlvTag

namespace FlvReader
open FlvWriter InputFile

variable {tag : FlvTag} {rest : Bytes}

theorem readHeader_tag : readHeader ⟨tag.bytes ++ rest, true⟩ =
    ((tag.type, UInt32.ofNat tag.body.length, tag.timestamp),
      ⟨tag.body ++ (u32Be tag.previousTagSize ++ rest), true⟩) := by
  have sized : UInt32.ofNat ((UInt32.ofNat tag.body.length).toNat % 2 ^ 24) = UInt32.ofNat tag.body.length := by
    rw [tag.size_toNat, Nat.mod_eq_of_lt tag.sized]
  have skips := seek_append (u24Be tag.streamId) (tag.body ++ (u32Be tag.previousTagSize ++ rest))
  rw [length_u24Be] at skips
  unfold readHeader
  simp only [FlvTag.bytes, timestampBytes, List.append_assoc, readU8_cons, readUint32_3_u24Be, sized,
    List.cons_append, List.nil_append, timestamp_parts, skips]

theorem seek_body : seek ⟨tag.body ++ (u32Be tag.previousTagSize ++ rest), true⟩
    (tag.body.length + 4) = ⟨rest, true⟩ := by
  have both := seek_append (tag.body ++ u32Be tag.previousTagSize) rest
  rwa [List.length_append, length_u32Be, List.append_assoc] at both

theorem readTag_tag : readTag ⟨tag.bytes ++ rest, true⟩ =
    match tag.frame with
    | some frame => .frame frame ⟨rest, true⟩
    | none => .skip ⟨rest, true⟩ := by
  have size := tag.size_toNat
  have small := tag.sized
  have body := read_append tag.body (u32Be tag.previousTagSize ++ rest)
  have trailer := seek_append (u32Be tag.previousTagSize) rest
  rw [length_u32Be] at trailer
  have total : (UInt32.ofNat tag.body.length + 4).toNat = tag.body.length + 4 := by
    rw [UInt32.toNat_add, size]
    show (tag.body.length + 4) % 2 ^ 32 = _
    omega
  unfold readTag FlvTag.frame
  simp only [Bool.not_true, Bool.false_eq_true, if_false, readHeader_tag]
  split
  · simp [readBody, size, body, trailer]
  · split
    · simp [readBody, size, body, trailer]
    · simp [total, seek_body]

theorem readTag_recorded {tag : FlvFrame} (small : tag.body.length ≤ 0xFFFFFF) (rest : Bytes) :
    readTag ⟨tagBytes tag ++ rest, true⟩ = if tag.kind = .script then .skip ⟨rest, true⟩ else .frame tag
      ⟨rest, true⟩ := by
  obtain ⟨kind, body, timestamp⟩ := tag
  have round :=
    @readTag_tag { type := kind.code, timestamp := timestamp, body := body, sized := Nat.lt_succ_of_le small } rest
  cases kind <;> exact round

theorem readFrame_skip (skipped : readTag f = .skip g) : readFrame f = readFrame g := by
  rw [readFrame]
  split
  · rename_i other
    cases skipped.symm.trans other
  · rename_i other
    cases skipped.symm.trans other
  · rename_i other
    cases skipped.symm.trans other
    rfl

theorem readFrame_frame {frame : FlvFrame} (found : readTag f = .frame frame g) : readFrame f = (some frame, g) := by
  rw [readFrame]
  split
  · rename_i other
    cases found.symm.trans other
  · rename_i other
    cases found.symm.trans other
    rfl
  · rename_i other
    cases found.symm.trans other

theorem readFrame_stop (stopped : readTag f = .stop g) : readFrame f = (none, g) := by
  rw [readFrame]
  split
  · rename_i other
    cases stopped.symm.trans other
    rfl
  · rename_i other
    cases stopped.symm.trans other
  · rename_i other
    cases stopped.symm.trans other

theorem readFrames_end (n : Nat) (good : Bool) : readFrames n ⟨[], good⟩ = List.replicate n none := by
  have stops : readFrame ⟨[], good⟩ = (none, ⟨[], false⟩) := by
    cases good <;> exact readFrame_stop rfl
  induction n generalizing good with
  | zero => rfl
  | succ n ih => rw [readFrames, stops, ih false (readFrame_stop rfl), List.replicate_succ]

theorem readFrames_tags {tags : List FlvFrame} (small : ∀ tag ∈ tags, tag.body.length ≤ 0xFFFFFF) (n : Nat) :
    readFrames ((tags.filter fun tag => tag.kind ≠ .script).length + n) ⟨tags.flatMap tagBytes, true⟩ =
      (tags.filter fun tag => tag.kind ≠ .script).map some ++ List.replicate n none := by
  induction tags with
  | nil => simpa using readFrames_end n true
  | cons tag tags ih =>
    have later := ih fun other member => small other (List.mem_cons_of_mem _ member)
    have round := readTag_recorded (small tag List.mem_cons_self) (tags.flatMap tagBytes)
    rw [List.flatMap_cons]
    by_cases script : tag.kind = .script
    · rw [if_pos script] at round
      rw [List.filter_cons_of_neg (by simp [script]), ← later]
      generalize (tags.filter fun tag => tag.kind ≠ .script).length + n = calls
      cases calls with
      | zero => rfl
      | succ calls => rw [readFrames, readFrames, readFrame_skip round]
    · rw [if_neg script] at round
      rw [List.filter_cons_of_pos (by simp [script]), List.length_cons, Nat.add_right_comm, readFrames,
        readFrame_frame round, later]
      rfl

/-- Whatever is recorded, the reader returns exactly the accepted audio and video calls, in
order and with the timestamps that were stored for them, and then the end of the file. -/
theorem recording_reads_back (calls : List FlvCall) (n : Nat) :
    let frames := (accepted prepareFile calls).filter fun tag => tag.kind ≠ .script
    readFrames (frames.length + n) (openFile (calls.foldl FlvWriter.step prepareFile).file) =
      frames.map some ++ List.replicate n none := by
  have file : openFile (calls.foldl FlvWriter.step prepareFile).file =
      ⟨(accepted prepareFile calls).flatMap tagBytes, true⟩ := by
    rw [foldl_file]
    exact seek_append prepareFile.file _
  dsimp only
  rw [file]
  exact readFrames_tags accepted_length n

end FlvReader
end Fms
