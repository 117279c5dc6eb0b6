import Fms.App.SendQueue
import Fms.Flv.RoundTrip

namespace Fms
open ByteWire

namespace FlvReader

/-- The header of a tag, and the first byte of a video body, after which the stream is moved back to the body. -/
def peek (f : InputFile) : (UInt8 × UInt32 × UInt32) × UInt8 × InputFile :=
  let header := readHeader f
  (header.1, if header.1.1 = 0x09 ∧ header.1.2.1 > 0 then header.2.readU8 else (0, header.2))

theorem peek_good {f : InputFile} {n : Nat} (good : (peek f).2.2.good = true) :
    ((readHeader f).2.seek n).ahead.length < f.ahead.length := by
  have before : (readHeader f).2.good = true := by
    unfold peek at good
    dsimp only at good
    split at good
    · exact (InputFile.readU8_good good).1
    · exact good
  have shorter := readHeader_good before
  unfold InputFile.seek
  rw [if_pos before]
  simp only [List.length_drop]
  omega

/-- The loop of `seek`, with what is ahead of the last key frame it has passed. -/
def seekFrom (ms : UInt32) (keyframe : Option Bytes) (f : InputFile) : InputFile :=
  let (type, size, ts) := (peek f).1
  if _ : (peek f).2.2.good then
    let isKey := type = 0x09 && (peek f).2.1 >>> 4 = RtmpMessage.eKeyFrame
    if (type = 0x08 || type = 0x09) && ts ≥ ms then ⟨if isKey then f.ahead else keyframe.getD f.ahead, true⟩
    else seekFrom ms (if isKey then some f.ahead else keyframe) ((readHeader f).2.seek (size.toNat + 4))
  else (peek f).2.2
termination_by f.ahead.length
decreasing_by exact peek_good (by assumption)

/-- `seek` in an open file: its stream is cleared and moved past the header, wherever it was. -/
def seek (data : Bytes) (_ : InputFile) (ms : UInt32) : InputFile := seekFrom ms none (openFile data)

end FlvReader

namespace FlvTag

def isFrame (tag : FlvTag) : Bool := tag.type = 0x08 || tag.type = 0x09

theorem isFrame_eq (tag : FlvTag) : tag.isFrame = tag.frame.isSome := by
  unfold isFrame frame
  split_ifs <;> simp_all

/-- A video tag that is not empty and whose first byte has 1 in its high half. -/
def isKey (tag : FlvTag) : Bool := tag.type = 0x09 && tag.body.headD 0 >>> 4 = RtmpMessage.eKeyFrame

def reaches (ms : UInt32) (tag : FlvTag) : Bool := tag.isFrame && tag.timestamp ≥ ms

end FlvTag

namespace FlvReader
open FlvWriter InputFile

variable {tag : FlvTag} {rest : Bytes} {ms : UInt32}

theorem peek_tag : ∃ first g, (tag.type = 0x09 → first = tag.body.headD 0) ∧ g.good = true ∧
    peek ⟨tag.bytes ++ rest, true⟩ = ((tag.type, UInt32.ofNat tag.body.length, tag.timestamp), first, g) := by
  have sized : UInt32.ofNat tag.body.length > 0 ↔ 0 < tag.body.length := by
    rw [gt_iff_lt, UInt32.lt_iff_toNat_lt, tag.size_toNat]
    rfl
  unfold peek
  simp only [readHeader_tag, sized]
  split
  · rename_i video
    cases body : tag.body with
    | nil => rw [body] at video; exact absurd video.2 (Nat.lt_irrefl 0)
    | cons b others =>
      rw [List.cons_append, readU8_cons]
      exact ⟨b, _, fun _ => rfl, rfl, rfl⟩
  · rename_i other
    refine ⟨0, _, fun video => ?_, rfl, rfl⟩
    have empty : tag.body = [] := List.eq_nil_of_length_eq_zero (by simpa [video] using other)
    rw [empty]
    rfl

theorem seekFrom_tag (keyframe : Option Bytes) : seekFrom ms keyframe ⟨tag.bytes ++ rest, true⟩ =
    if tag.reaches ms then ⟨if tag.isKey then tag.bytes ++ rest else keyframe.getD (tag.bytes ++ rest), true⟩
    else seekFrom ms (if tag.isKey then some (tag.bytes ++ rest) else keyframe) ⟨rest, true⟩ := by
  obtain ⟨first, g, video, good, peeked⟩ := @peek_tag tag rest
  have key : (decide (tag.type = 0x09) && decide (first >>> 4 = RtmpMessage.eKeyFrame)) = tag.isKey := by
    unfold FlvTag.isKey
    by_cases type : tag.type = 0x09
    · rw [video type]
    · simp [type]
  rw [seekFrom, peeked]
  dsimp only
  rw [dif_pos good, key, readHeader_tag, tag.size_toNat, seek_body]
  rfl

/-- The tags from where a seek lands on, if it does, when those from the last key frame on are known. -/
def landing (ms : UInt32) (keyframe : Option (List FlvTag)) : List FlvTag → Option (List FlvTag)
  | [] => none
  | tag :: rest =>
    if tag.reaches ms then some (if tag.isKey then tag :: rest else keyframe.getD (tag :: rest))
    else landing ms (if tag.isKey then some (tag :: rest) else keyframe) rest

/-- The stream at the first of some tags; past the last one it has failed. -/
def streamAt (tags : Option (List FlvTag)) : InputFile :=
  match tags with
  | some tags => ⟨tags.flatMap FlvTag.bytes, true⟩
  | none => ⟨[], false⟩

variable {tags before after : List FlvTag} {keyframe : Option (List FlvTag)}

theorem seekFrom_tags : seekFrom ms (keyframe.map fun tags => tags.flatMap FlvTag.bytes)
    ⟨tags.flatMap FlvTag.bytes, true⟩ =
    streamAt (landing ms keyframe tags) := by
  induction tags generalizing keyframe with
  | nil =>
    rw [seekFrom]
    rfl
  | cons tag rest ih =>
    rw [List.flatMap_cons, seekFrom_tag, landing]
    split
    · split
      · rfl
      · cases keyframe <;> rfl
    · rw [← ih]
      split <;> rfl

theorem seek_tags {start : Bytes} (header : start.length = 13) (f : InputFile) :
    seek (start ++ tags.flatMap FlvTag.bytes) f ms = streamAt (landing ms none tags) := by
  have opened : openFile (start ++ tags.flatMap FlvTag.bytes) = ⟨tags.flatMap FlvTag.bytes, true⟩ := by
    have past := seek_append start (tags.flatMap FlvTag.bytes)
    rwa [header] at past
  rw [seek, opened]
  exact @seekFrom_tags ms tags none

/-- Tags that are passed leave at most a key frame behind. -/
theorem landing_pass (rest : List FlvTag) (passed : ∀ tag ∈ before, ¬tag.reaches ms) :
    ∃ last, ((∀ tag ∈ before, ¬tag.isKey) → last = keyframe) ∧
      landing ms keyframe (before ++ rest) = landing ms last rest := by
  induction before generalizing keyframe with
  | nil => exact ⟨keyframe, fun _ => rfl, rfl⟩
  | cons tag before ih =>
    obtain ⟨last, none, same⟩ := @ih (if tag.isKey then some (tag :: (before ++ rest)) else keyframe)
      fun other member => passed other (List.mem_cons_of_mem _ member)
    refine ⟨last, fun inter => ?_, ?_⟩
    · rw [none fun other member => inter other (List.mem_cons_of_mem _ member), if_neg (inter tag List.mem_cons_self)]
    · rw [List.cons_append, landing, if_neg (passed tag List.mem_cons_self), same]

theorem isFrame_of_isKey (key : tag.isKey = true) : tag.isFrame = true := by
  unfold FlvTag.isKey at key
  unfold FlvTag.isFrame
  rw [Bool.and_eq_true] at key
  rw [key.1, Bool.or_true]

def fromFrame : List FlvTag → Option (List FlvTag)
  | [] => none
  | tag :: rest => if tag.isFrame then some (tag :: rest) else fromFrame rest

theorem readFrame_tags : readFrame ⟨tags.flatMap FlvTag.bytes, true⟩ =
    ((fromFrame tags).bind fun tags => tags.head?.bind FlvTag.frame, streamAt ((fromFrame tags).map List.tail)) := by
  induction tags with
  | nil => exact readFrame_stop rfl
  | cons tag rest ih =>
    have round := @readTag_tag tag (rest.flatMap FlvTag.bytes)
    rw [List.flatMap_cons, fromFrame, tag.isFrame_eq]
    cases frame : tag.frame with
    | some found =>
      rw [frame] at round
      rw [readFrame_frame round]
      exact congrArg (·, _) frame.symm
    | none =>
      rw [frame] at round
      rw [readFrame_skip round]
      exact ih

theorem readFrame_isFrame (frame : tag.isFrame = true) :
    readFrame (streamAt (some (tag :: after))) = (tag.frame, ⟨after.flatMap FlvTag.bytes, true⟩) := by
  have read := @readFrame_tags (tag :: after)
  rw [fromFrame, if_pos frame] at read
  exact read

/-- A seek in a file of complete tags lands at the first frame that is late enough if that is a key
frame or none comes before it, and at the last key frame before it otherwise. Without a frame that is late enough it is at the end. -/
theorem seek_lands (start : Bytes) (header : start.length = 13) (tags : List FlvTag) (f : InputFile) (ms : UInt32) :
    let next := readFrame (seek (start ++ tags.flatMap FlvTag.bytes) f ms)
    ((∀ tag ∈ tags, ¬tag.reaches ms) → next.1 = none) ∧
    ∀ before first after, tags = before ++ first :: after → (∀ tag ∈ before, ¬tag.reaches ms) → first.reaches ms →
      ((first.isKey ∨ ∀ tag ∈ before, ¬tag.isKey) → next = (first.frame, ⟨after.flatMap FlvTag.bytes, true⟩)) ∧
      ∀ early key late, before = early ++ key :: late → key.isKey → (∀ tag ∈ late, ¬tag.isKey) → ¬first.isKey →
        next = (key.frame, ⟨(late ++ first :: after).flatMap FlvTag.bytes, true⟩) := by
  dsimp only
  rw [seek_tags header f]
  refine ⟨fun none_ => ?_, fun before first after whole passed reached => ?_⟩
  · obtain ⟨last, _, same⟩ := @landing_pass ms tags none [] none_
    rw [List.append_nil] at same
    rw [same]
    exact congrArg Prod.fst (readFrame_stop rfl)
  · subst whole
    have frame : first.isFrame = true := (Bool.and_eq_true _ _ ▸ reached).1
    refine ⟨fun direct => ?_, fun early key late split isKey inter plain => ?_⟩
    · obtain ⟨last, kept, same⟩ := @landing_pass ms before none (first :: after) passed
      have at_ : landing ms last (first :: after) = some (first :: after) := by
        rw [landing, if_pos reached]
        rcases direct with key | inter
        · rw [if_pos key]
        · rw [kept inter]
          split <;> rfl
      rw [same, at_]
      exact readFrame_isFrame frame
    · subst split
      rw [List.forall_mem_append, List.forall_mem_cons] at passed
      obtain ⟨last, _, upTo⟩ := @landing_pass ms early none (key :: (late ++ first :: after)) passed.1
      have past : landing ms last (key :: (late ++ first :: after)) =
          landing ms (some (key :: (late ++ first :: after))) (late ++ first :: after) := by
        rw [landing, if_neg passed.2.1, if_pos isKey]
      obtain ⟨last, kept, same⟩ :=
        @landing_pass ms late (some (key :: (late ++ first :: after))) (first :: after) passed.2.2
      have at_ : landing ms last (first :: after) = some (key :: (late ++ first :: after)) := by
        rw [landing, if_pos reached, if_neg plain, kept inter]
        rfl
      rw [List.append_assoc, List.cons_append, upTo, past, same, at_]
      exact readFrame_isFrame (isFrame_of_isKey isKey)

/-- An inter frame is late enough, and the key frame before it is not. -/
theorem seek_lands_key :
    let key : FlvTag := { type := 9, timestamp := 0, body := [0x17], sized := by decide }
    let inter : FlvTag := { type := 9, timestamp := 40, body := [0x27], sized := by decide }
    readFrame (seek (List.replicate 13 0 ++ [key, inter].flatMap FlvTag.bytes) ⟨[], false⟩ 20) =
      (key.frame, ⟨[inter].flatMap FlvTag.bytes, true⟩) := by
  intro key inter
  exact ((seek_lands (List.replicate 13 0) rfl [key, inter] ⟨[], false⟩ 20).2 [key] inter [] rfl (by decide)
    (by decide)).2
    [] key [] rfl (by decide) (by decide) (by decide)

end FlvReader
end Fms
