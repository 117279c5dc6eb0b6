import Fms.Flv.RoundTrip
import Fms.Rtmp.LastValue

namespace Fms
open ByteWire Fallible Amf

/-- A tag of an aggregate, as its fields can say it. -/
structure Tag where
  type : UInt8
  timestamp : UInt32
  streamId : UInt32
  body : Bytes
  trailer : Bytes
  counted : body.length < 2 ^ 24
  narrow : streamId.toNat < 2 ^ 24
  four : trailer.length = 4

namespace Tag

def bytes (tag : Tag) : Bytes :=
  tag.type :: (u24Be (UInt32.ofNat tag.body.length) ++ (FlvWriter.timestampBytes tag.timestamp ++
    (u24Be tag.streamId ++ (tag.body ++ tag.trailer))))

/-- What the reader of the aggregate makes of the fields, and of the time it computes. -/
def header (tag : Tag) (timestamp : UInt32) : RtmpHeader :=
  { messageType := tag.type, messageLength := UInt32.ofNat tag.body.length, timestamp, streamId := tag.streamId }

/-- The time of a tag's message: as long after the whole as the tag is after the first one. -/
def time (whole : UInt32) (tags : List Tag) (tag : Tag) : UInt32 :=
  whole + (tag.timestamp - (tags.head?.map Tag.timestamp).getD 0)

end Tag

/-- Inside a scope of the budget: the outermost one starts it. -/
def Amf.Decoder.opened (s : Decoder) : Decoder :=
  { s with budget := if s.scopes = 0 then {} else s.budget, scopes := s.scopes + 1 }

mutual
/-- The stamps of the sub-messages, at every depth. -/
def Decoded.stamps : Decoded → List Stamp
  | .aggregate messages => stampsOfAll messages
  | _ => []

def stampsOfAll : List (Stamp × Message Decoded) → List Stamp
  | [] => []
  | (stamp, message) :: rest => stamp :: (message.stamps ++ stampsOfAll rest)

def Message.stamps : Message Decoded → List Stamp
  | .encoded value => value.stamps
  | _ => []
end

section
variable (a b c d : UInt32)

mutual
theorem Decoded.adoptStream_adoptStream (value : Decoded) :
    (value.adoptStream a b).adoptStream c d = value.adoptStream c d := by
  cases value with
  | aggregate messages =>
    simp only [Decoded.adoptStream]
    rw [adoptAll_adoptAll messages]
  | _ => rfl

theorem adoptAll_adoptAll (messages : List (Stamp × Message Decoded)) :
    adoptAll c d (adoptAll a b messages) = adoptAll c d messages := by
  match messages with
  | [] => rfl
  | (stamp, message) :: rest =>
    simp only [adoptAll]
    rw [Message.adoptStream_adoptStream message, adoptAll_adoptAll rest]

theorem Message.adoptStream_adoptStream (message : Message Decoded) :
    (message.adoptStream a b).adoptStream c d = message.adoptStream c d := by
  cases message with
  | encoded value =>
    simp only [Message.adoptStream]
    rw [Decoded.adoptStream_adoptStream value]
  | _ => rfl
end

mutual
theorem Decoded.adopted (value : Decoded) : ∀ stamp ∈ (value.adoptStream a b).stamps, stamp.streamId = a ∧
    stamp.channelId = b := by
  cases value with
  | aggregate messages =>
    rw [Decoded.adoptStream, Decoded.stamps]
    exact adoptedAll messages
  | _ => exact fun _ none => absurd none List.not_mem_nil

theorem adoptedAll (messages : List (Stamp × Message Decoded)) :
    ∀ stamp ∈ stampsOfAll (adoptAll a b messages), stamp.streamId = a ∧ stamp.channelId = b := by
  match messages with
  | [] => exact fun _ none => absurd none List.not_mem_nil
  | (first, message) :: rest =>
    intro stamp member
    rw [adoptAll, stampsOfAll] at member
    rcases List.mem_cons.mp member with rfl | member
    · exact ⟨rfl, rfl⟩
    · rcases List.mem_append.mp member with inner | later
      · exact Message.adopted message stamp inner
      · exact adoptedAll rest stamp later

theorem Message.adopted (message : Message Decoded) :
    ∀ stamp ∈ (message.adoptStream a b).stamps, stamp.streamId = a ∧ stamp.channelId = b := by
  cases message with
  | encoded value =>
    rw [Message.adoptStream, Message.stamps]
    exact Decoded.adopted value
  | _ => exact fun _ none => absurd none List.not_mem_nil
end

end

namespace RtmpProtocol

/-- A message decoded by itself from a body of its own. -/
def decodeBody (sub : RtmpHeader → Decode (Option (Message Decoded))) (h : RtmpHeader) (body : Bytes) (s : Decoder) :
    Option (Message Decoded) × Decoder :=
  match sub h { s with input := body } with
  | (.ok message, t) => (message, t)
  | (.error _, t) => (none, t)

/-- What the tags give one after the other, at the times given. Each finds the heap and the budget as
those before it left them, and its own body. -/
def decodeTags (sub : RtmpHeader → Decode (Option (Message Decoded))) (time : Tag → UInt32) :
    List Tag → Decoder → List (Option (Message Decoded)) × Decoder
  | [], s => ([], s)
  | tag :: rest, s =>
    let (message, t) := decodeBody sub (tag.header (time tag)) tag.body s
    let (messages, u) := decodeTags sub time rest t
    (message :: messages, u)

/-- The sub-messages: one for each tag that gave a message, in order. -/
def subMessages (stamp : Tag → Stamp) (tags : List Tag) (outcomes : List (Option (Message Decoded))) :
    List (Stamp × Message Decoded) :=
  (tags.zip outcomes).filterMap fun (tag, outcome) => outcome.map (stamp tag, ·)

/-- What it throws does not end the reading of an aggregate. -/
def Contained (message : Decode (Option (Message Decoded))) : Prop :=
  ∀ s e t, message s = (.error e, t) → e = .bufferEof

section
variable {sub : RtmpHeader → Decode (Option (Message Decoded))} {time : Tag → UInt32} {tag : Tag} {tags : List Tag}
  {s : Decoder} {rest : Bytes}

theorem decodeTags_input (sub : RtmpHeader → Decode (Option (Message Decoded))) (time : Tag → UInt32)
    (tags : List Tag) (input : Bytes) (s : Decoder) :
    (decodeTags sub time tags { s with input }).1 = (decodeTags sub time tags s).1 ∧
      ∀ rest, { (decodeTags sub time tags { s with input }).2 with input := rest } =
        { (decodeTags sub time tags s).2 with input := rest } := by
  cases tags with
  | nil => exact ⟨rfl, fun _ => rfl⟩
  | cons tag tags => exact ⟨rfl, fun _ => rfl⟩

theorem subMessages_cons (stamp : Tag → Stamp) (outcome : Option (Message Decoded))
    (outcomes : List (Option (Message Decoded))) :
    subMessages stamp (tag :: tags) (outcome :: outcomes) =
      (outcome.map (stamp tag, ·)).toList ++ subMessages stamp tags outcomes := by
  cases outcome <;> rfl

theorem dropOverread_bounded (contained : ∀ h, Contained (sub h)) (h : RtmpHeader) {body : Bytes} {len : Nat}
    (cut : s.input.take len = body) : dropOverread (bounded len (sub h)) s =
      (.ok (decodeBody sub h body s).1, { (decodeBody sub h body s).2 with input := s.input }) := by
  have inner : bounded len (sub h) s = ((sub h { s with input := body }).1,
      { (sub h { s with input := body }).2 with input := s.input }) := by
    rw [← cut]
    rfl
  unfold decodeBody
  rcases run : sub h { s with input := body } with ⟨result, t⟩
  rw [run] at inner
  cases result with
  | ok message => exact tryCatch_ok inner
  | error e =>
    cases contained h _ e t run
    exact tryCatch_error inner

theorem tryU24Be_low (v : UInt32) (rest : Bytes) :
    tryU24Be (u24Be v ++ rest) = some (UInt32.ofNat (v.toNat % 2 ^ 24), rest) := by
  simp only [tryU24Be, tryWord, takeBytes_append (length_u24Be v), Option.map_some]
  rw [u24Be, beNat_beBytes, show 256 ^ 3 = 2 ^ 24 from rfl]

/-- The time the reader computes from the last sub-message's. -/
def nextTime (ts wire : UInt32) : Option (UInt32 × UInt32) → UInt32
  | none => ts
  | some (prevTs, prevCalcTs) => prevCalcTs + wire - prevTs

theorem readTag_bytes (ts : UInt32) (prev : Option (UInt32 × UInt32)) (input : s.input = tag.bytes ++ rest) :
    readTag ts prev s = (.ok (tag.header (nextTime ts tag.timestamp prev), tag.timestamp),
      { s with input := tag.body ++ (tag.trailer ++ rest) }) := by
  have size : (UInt32.ofNat tag.body.length).toNat < 2 ^ 24 :=
    (toNat_word (tag.counted.trans (by decide))).trans_lt tag.counted
  have fields : s.input = tag.type :: (u24Be (UInt32.ofNat tag.body.length) ++ (u24Be tag.timestamp ++
      (UInt8.ofNat (tag.timestamp.toNat / 2 ^ 24) ::
        (u24Be tag.streamId ++ (tag.body ++ (tag.trailer ++ rest)))))) := by
    rw [input, Tag.bytes, FlvWriter.timestampBytes]
    simp only [List.cons_append, List.append_assoc, List.nil_append]
  have type : tryU8 s.input = some (tag.type, u24Be (UInt32.ofNat tag.body.length) ++ _) := congrArg tryU8 fields
  unfold readTag
  rw [lift_bind type, lift_bind (tryU24Be_u24Be size _), lift_bind (tryU24Be_low _ _),
    lift_bind (a := UInt8.ofNat _) rfl]
  simp only [FlvWriter.timestamp_parts]
  rw [lift_bind (tryU24Be_u24Be tag.narrow _)]
  rfl

theorem takeSubMessage_body (contained : ∀ h, Contained (sub h)) (messages : List (Stamp × Message Decoded))
    {h : RtmpHeader} {wire : UInt32}
    (size : h.messageLength.toNat = tag.body.length) (input : s.input = tag.body ++ (tag.trailer ++ rest)) :
    takeSubMessage sub messages h wire s =
      (.ok
        (.inl (some (wire, h.timestamp), messages ++ ((decodeBody sub h tag.body s).1.map fun m =>
          (h.stamp, m)).toList)),
        { (decodeBody sub h tag.body s).2 with input := rest }) := by
  have cut : s.input.take tag.body.length = tag.body := by rw [input, List.take_left]
  have left : s.input.drop tag.body.length = tag.trailer ++ rest := by rw [input, List.drop_left]
  have fits : tag.body.length ≤ s.input.length := by
    rw [input, List.length_append]
    omega
  let outcome := decodeBody sub h tag.body s
  unfold takeSubMessage
  simp only [size]
  refine (bind_ok (a := s.input.length) (t := s) rfl).trans ?_
  rw [if_neg (not_lt.mpr fits)]
  refine (bind_ok (dropOverread_bounded contained h cut)).trans ?_
  -- past the body
  let behind : Decoder := { outcome.2 with input := tag.trailer ++ rest }
  have skipped : Yields (skip tag.body.length .bufferEof) { outcome.2 with input := s.input } () behind :=
    yields_skip.mpr ⟨fits, by simp only [behind, left]⟩
  refine (bind_ok skipped).trans ?_
  refine (bind_ok (a := behind.input.length) (t := behind) rfl).trans ?_
  have four : ¬behind.input.length < 4 := by
    simp only [behind, List.length_append, tag.four]
    omega
  rw [if_neg four]
  refine (bind_ok (a := ()) (t := { behind with input := rest }) (yields_skip.mpr ⟨not_lt.mp four, ?_⟩)).trans rfl
  simp only [behind, ← tag.four, List.drop_left]

/-- Where the loop is: nothing was read yet and the first tag says when it all began, or the last one
read is as long after that as its time says. -/
def Paced (whole first : UInt32) (tags : List Tag) : Option (UInt32 × UInt32) → Prop
  | none => ∀ tag ∈ tags.head?, tag.timestamp = first
  | some (wire, time) => time = whole + (wire - first)

theorem Paced.nextTime {whole first : UInt32} {prev : Option (UInt32 × UInt32)}
    (paced : Paced whole first (tag :: tags) prev) :
    nextTime whole tag.timestamp prev = whole + (tag.timestamp - first) := by
  cases prev with
  | none =>
    rw [← paced tag rfl, UInt32.sub_self, UInt32.add_zero]
    rfl
  | some last =>
    obtain ⟨wire, before⟩ := last
    obtain rfl : before = whole + (wire - first) := paced
    show whole + (wire - first) + tag.timestamp - wire = _
    grind

theorem readSubMessage_bytes (contained : ∀ h, Contained (sub h)) {whole first : UInt32}
    {prev : Option (UInt32 × UInt32)}
    (messages : List (Stamp × Message Decoded)) (paced : Paced whole first (tag :: tags) prev)
    (room : messages.length < eMaxSubMessages) (input : s.input = tag.bytes ++ rest) :
    let h := tag.header (whole + (tag.timestamp - first))
    readSubMessage sub whole (prev, messages) s =
      (.ok (.inl (some (tag.timestamp, whole + (tag.timestamp - first)),
          messages ++ ((decodeBody sub h tag.body s).1.map fun m => (h.stamp, m)).toList)),
        { (decodeBody sub h tag.body s).2 with input := rest }) := by
  have more : s.input.length ≠ 0 := by
    rw [input, Tag.bytes, List.cons_append]
    exact Nat.succ_ne_zero _
  have tagged := readTag_bytes whole prev input
  rw [paced.nextTime] at tagged
  unfold readSubMessage
  refine (bind_ok (a := s.input.length) (t := s) rfl).trans ?_
  rw [if_neg more, if_neg room.ne]
  refine (bind_ok tagged).trans ?_
  exact takeSubMessage_body contained messages (toNat_word (tag.counted.trans (by decide))) rfl

theorem iterate_tags (contained : ∀ h, Contained (sub h)) (whole first : UInt32) (prev : Option (UInt32 × UInt32))
    (messages : List (Stamp × Message Decoded)) (fuel : Nat) (paced : Paced whole first tags prev)
    (room : messages.length + tags.length ≤ eMaxSubMessages) (enough : tags.length < fuel)
    (input : s.input = tags.flatMap Tag.bytes) :
    let time (tag : Tag) := whole + (tag.timestamp - first)
    iterate .bufferEof (readSubMessage sub whole) fuel (prev, messages) s =
      (.ok (messages ++ subMessages (fun tag => (tag.header (time tag)).stamp) tags (decodeTags sub time tags s).1),
        { (decodeTags sub time tags s).2 with input := [] }) := by
  -- one tag a round; what a body gives does not depend on the bytes around it
  induction tags generalizing prev messages fuel s with
  | nil =>
    obtain ⟨fuel, rfl⟩ := Nat.exists_eq_add_of_lt enough
    have done : readSubMessage sub whole (prev, messages) s = (.ok (.inr messages), s) := by
      unfold readSubMessage
      refine (bind_ok (a := s.input.length) (t := s) rfl).trans ?_
      rw [input]
      rfl
    refine (bind_ok done).trans ?_
    have ended : s = { s with input := [] } := congrArg (fun i => { s with input := i }) input
    show (Except.ok messages, s) = (Except.ok (messages ++ []), { s with input := [] })
    rw [List.append_nil, ← ended]
  | cons tag tags ih =>
    obtain ⟨fuel, rfl⟩ := Nat.exists_eq_add_of_lt enough
    rw [List.length_cons] at room
    have round := readSubMessage_bytes contained messages paced (by omega) input
    have one (given : Option (Message Decoded)) (stamp : Stamp) :
        (given.map fun m => (stamp, m)).toList.length ≤ 1 := by
      cases given
      · exact Nat.zero_le _
      · exact Nat.le_refl _
    refine (bind_ok round).trans ?_
    refine (ih (some (tag.timestamp, whole + (tag.timestamp - first))) _ _ rfl ?_ ?_ rfl).trans ?_
    · have more := one (decodeBody sub (tag.header (whole + (tag.timestamp - first))) tag.body s).1
        (tag.header (whole + (tag.timestamp - first))).stamp
      rw [List.length_append]
      omega
    · rw [List.length_cons]
      omega
    · obtain ⟨results, state⟩ := decodeTags_input sub (fun tag => whole + (tag.timestamp - first)) tags
        (tags.flatMap Tag.bytes) (decodeBody sub (tag.header (whole + (tag.timestamp - first))) tag.body s).2
      refine Prod.ext (congrArg Except.ok ?_) (state [])
      show _ = messages ++ subMessages _ (tag :: tags) (_ :: _)
      rw [subMessages_cons, ← List.append_assoc]
      exact congrArg (fun outcomes => _ ++ subMessages _ tags outcomes) results

theorem length_tags (tags : List Tag) : tags.length ≤ (tags.flatMap Tag.bytes).length := by
  induction tags with
  | nil => exact Nat.le_refl _
  | cons tag tags ih =>
    rw [List.flatMap_cons, List.length_append, Tag.bytes, List.length_cons, List.length_cons]
    omega

theorem deserializeAggregate_bytes (contained : ∀ h, Contained (sub h)) (whole : UInt32)
    (few : tags.length ≤ eMaxSubMessages) (input : s.input = tags.flatMap Tag.bytes) :
    (deserializeAggregate sub whole s).1 = .ok
    (.aggregate (subMessages (fun tag => (tag.header (tag.time whole tags)).stamp) tags
      (decodeTags sub (Tag.time whole tags) tags s.opened).1)) := by
  have enough : tags.length < s.opened.input.length + 1 := by
    show tags.length < s.input.length + 1
    rw [input]
    exact Nat.lt_succ_of_le (length_tags tags)
  have loop := iterate_tags contained (s := s.opened) whole ((tags.head?.map Tag.timestamp).getD 0) none []
    (s.opened.input.length + 1) (fun tag head => by rw [Option.mem_def.mp head]; rfl)
    (by rwa [List.length_nil, Nat.zero_add]) enough input
  have inside : (do
      let messages ← iterate .bufferEof (readSubMessage sub whole) ((← available) + 1) (none, [])
      return .aggregate messages : Decode Decoded) s.opened = _ :=
    (bind_ok (a := s.opened.input.length) (t := s.opened) rfl).trans (bind_ok loop)
  exact congrArg Prod.fst inside

end

theorem contained_encoded (body : Decode Decoded) : Contained (encoded body) := by
  intro s e t run
  have ended := congrArg Prod.fst ((encoded_eq body s).symm.trans run)
  rcases result : (body s).1 with cause | value
  · by_cases excess : cause = .bufferEof
    · simp only [result, if_pos excess] at ended
      cases ended
      exact excess
    · simp only [result, if_neg excess] at ended
      cases ended
  · simp only [result] at ended
    cases ended

theorem contained_deserializeWith {aggregate : Decode (Option (Message Decoded))} (contained : Contained aggregate)
    (h : RtmpHeader) : Contained (deserializeWith aggregate h) := by
  unfold deserializeWith
  split
  case h_6 => exact contained
  case h_7 => exact fun _ _ _ never => by cases never
  all_goals exact contained_encoded _

theorem contained_deserializeAt (levels : Nat) (h : RtmpHeader) : Contained (deserializeAt levels h) := by
  cases levels with
  | zero => exact contained_deserializeWith (fun _ _ _ never => by cases never) h
  | succ levels =>
    refine contained_deserializeWith (fun s e t run => ?_) h
    rcases inner : encoded (deserializeAggregate (deserializeAt levels) h.timestamp) s with ⟨cause | message, u⟩
    · cases (bind_error inner).symm.trans run
      exact contained_encoded _ _ _ _ inner
    · cases (bind_ok inner).symm.trans run

/-- The message of an aggregate with that many levels left. Its sub-messages are what the tags gave,
each at its time and with the ids of the whole. A tag that holds tags is unpacked in the same way, at
the time computed for it. -/
def Unpacks (streamId channelId : UInt32) : Nat → UInt32 → List Tag → Decoder → Message Decoded → Prop
  | 0, _, _, _, _ => False
  | levels + 1, whole, tags, s, message =>
    let outcomes (tags' : List Tag) := decodeTags (deserializeAt levels) (Tag.time whole tags) tags' s.opened
    message = .encoded (.aggregate (subMessages (fun tag => ⟨tag.time whole tags, streamId, channelId⟩) tags
      ((outcomes tags).1.map (Option.map (Message.adoptStream streamId channelId))))) ∧
    ∀ before tag after inner, tags = before ++ tag :: after → MessageType.ofCode tag.type = some .aggregate →
      levels ≠ 0 → tag.body = inner.flatMap Tag.bytes → inner.length ≤ eMaxSubMessages →
      ∃ nested, (outcomes tags).1[before.length]? = some (some nested) ∧
        Unpacks streamId channelId levels (tag.time whole tags) inner { (outcomes before).2 with input := tag.body }
          (nested.adoptStream streamId channelId)

theorem adoptAll_subMessages (a b : UInt32) (stamp : Tag → Stamp) (tags : List Tag)
    (outcomes : List (Option (Message Decoded))) :
    adoptAll a b (subMessages stamp tags outcomes) =
      subMessages (fun tag => { stamp tag with streamId := a, channelId := b }) tags
        (outcomes.map (Option.map (Message.adoptStream a b))) := by
  induction tags generalizing outcomes with
  | nil => rfl
  | cons tag tags ih =>
    cases outcomes with
    | nil => rfl
    | cons outcome outcomes =>
      rw [List.map_cons, subMessages_cons, subMessages_cons, ← ih]
      cases outcome with
      | none => rfl
      | some message => rfl

theorem decodeTags_split {sub : RtmpHeader → Decode (Option (Message Decoded))} {time : Tag → UInt32}
    (before : List Tag) (tag : Tag) (after : List Tag) (s : Decoder) :
    (decodeTags sub time (before ++ tag :: after) s).1[before.length]? =
      some (decodeBody sub (tag.header (time tag)) tag.body (decodeTags sub time before s).2).1 := by
  induction before generalizing s with
  | nil => rfl
  | cons first before ih => exact ih _

variable {s : Decoder} {tags : List Tag}

theorem Unpacks.adopted {a b : UInt32} {levels : Nat} {whole : UInt32}
    {message : Message Decoded} (unpacks : Unpacks a b levels whole tags s message) (c d : UInt32) :
    Unpacks c d levels whole tags s (message.adoptStream c d) := by
  induction levels generalizing whole tags s message with
  | zero => exact unpacks
  | succ levels ih =>
    obtain ⟨rfl, nests⟩ := unpacks
    refine ⟨?_, fun before tag after inner place kind more body few => ?_⟩
    · have last : Option.map (Message.adoptStream c d) ∘ Option.map (Message.adoptStream a b) =
          Option.map (Message.adoptStream c d) := by
        funext outcome
        cases outcome with
        | none => rfl
        | some message => exact congrArg some (Message.adoptStream_adoptStream a b c d message)
      rw [Message.adoptStream, Decoded.adoptStream, adoptAll_subMessages, List.map_map, last]
    · obtain ⟨nested, here, rest⟩ := nests before tag after inner place kind more body few
      refine ⟨nested, here, ?_⟩
      rw [← Message.adoptStream_adoptStream a b c d nested]
      exact ih rest

variable {h : RtmpHeader}

theorem deserializeAt_aggregate (levels : Nat)
    (kind : MessageType.ofCode h.messageType = some .aggregate) (few : tags.length ≤ eMaxSubMessages)
    (input : s.input = tags.flatMap Tag.bytes) : (deserializeAt (levels + 1) h s).1 =
      .ok
        (some
          (.encoded (.aggregate (subMessages (fun tag => ⟨tag.time h.timestamp tags, h.streamId, h.channelId⟩) tags
        ((decodeTags (deserializeAt levels) (Tag.time h.timestamp tags) tags s.opened).1.map
          (Option.map (Message.adoptStream h.streamId h.channelId))))))) := by
  have body := deserializeAggregate_bytes (contained_deserializeAt levels) h.timestamp few input
  unfold deserializeAt deserializeWith
  simp only [kind]
  rw [map_apply, encoded_eq, body]
  refine congrArg (fun messages => Except.ok (some (Message.encoded (Decoded.aggregate messages)))) ?_
  exact adoptAll_subMessages _ _ _ _ _

theorem unpacks_bytes {levels : Nat}
    (kind : MessageType.ofCode h.messageType = some .aggregate) (few : tags.length ≤ eMaxSubMessages)
    (input : s.input = tags.flatMap Tag.bytes) : ∃ message, (deserializeAt (levels + 1) h s).1 = .ok (some message) ∧
      Unpacks h.streamId h.channelId (levels + 1) h.timestamp tags s message := by
  induction levels generalizing h s tags with
  | zero => exact ⟨_, deserializeAt_aggregate _ kind few input, rfl, fun _ _ _ _ _ _ more => absurd rfl more⟩
  | succ levels ih =>
    refine ⟨_, deserializeAt_aggregate _ kind few input, rfl,
      fun before tag after inner place nests _ body fits => ?_⟩
    -- the tag is read by the same function, as a message at its own time
    let entered := (decodeTags (deserializeAt (levels + 1)) (Tag.time h.timestamp tags) before s.opened).2
    obtain ⟨nested, run, unpacks⟩ :=
      ih (h := tag.header (tag.time h.timestamp tags)) (s := { entered with input := tag.body })
      nests fits body
    refine ⟨nested, ?_, unpacks.adopted _ _⟩
    have outcome :
      (decodeBody (deserializeAt (levels + 1)) (tag.header (tag.time h.timestamp tags)) tag.body entered).1 =
        some nested := by
      unfold decodeBody
      rcases result :
        deserializeAt (levels + 1) (tag.header (tag.time h.timestamp tags)) { entered with input := tag.body }
        with ⟨given, t⟩
      rw [result] at run
      cases run
      rfl
    rw [← outcome, ← decodeTags_split before tag after s.opened, ← place]

theorem Unpacks.ids {a b : UInt32} {levels : Nat} {whole : UInt32}
    {message : Message Decoded} (unpacks : Unpacks a b levels whole tags s message) :
    ∀ stamp ∈ message.stamps, stamp.streamId = a ∧ stamp.channelId = b := by
  cases levels with
  | zero => exact unpacks.elim
  | succ levels =>
    obtain ⟨rfl, _⟩ := unpacks
    rw [Message.stamps, Decoded.stamps]
    have all := adoptedAll a b (subMessages (fun tag => ⟨tag.time whole tags, a, b⟩) tags
      (decodeTags (deserializeAt levels) (Tag.time whole tags) tags s.opened).1)
    rwa [adoptAll_subMessages] at all

/-- An aggregate of well-framed tags: each is read with what those before it have left of the budget,
and those that give a message are the sub-messages. -/
theorem aggregate_unpacked (levels : Nat) (h : RtmpHeader) (s : Decoder) (tags : List Tag)
    (kind : MessageType.ofCode h.messageType = some .aggregate) (few : tags.length ≤ eMaxSubMessages)
    (input : s.input = tags.flatMap Tag.bytes) : ∃ message, (deserializeAt (levels + 1) h s).1 = .ok (some message) ∧
      Unpacks h.streamId h.channelId (levels + 1) h.timestamp tags s message ∧
      ∀ stamp ∈ message.stamps, stamp.streamId = h.streamId ∧ stamp.channelId = h.channelId := by
  obtain ⟨message, run, unpacks⟩ := unpacks_bytes kind few input
  exact ⟨message, run, unpacks, unpacks.ids⟩

def audioTag (timestamp : UInt32) : Tag :=
  { type := 8, timestamp, streamId := 3, body := [1], trailer := [0, 0, 0, 12]
    counted := by decide, narrow := by decide, four := rfl }

/-- Audio, a notification that is cut off, and an aggregate. -/
def mixedTags : List Tag :=
  [audioTag 100, { audioTag 120 with type := 0x12, body := [2, 0], counted := by decide },
    { audioTag 150 with type := 22, body := [audioTag 5, audioTag 9].flatMap Tag.bytes, counted := by decide }]

theorem aggregate_unpacked_mixed :
    let h : RtmpHeader := { messageType := 22, timestamp := 1000, streamId := 7, channelId := 4 }
    let s : Decoder := { input := mixedTags.flatMap Tag.bytes }
    ∃ message, (deserializeAt 4 h s).1 = .ok (some message) ∧ Unpacks 7 4 4 1000 mixedTags s message ∧
      ∀ stamp ∈ message.stamps, stamp.streamId = 7 ∧ stamp.channelId = 4 :=
  aggregate_unpacked 3 { messageType := 22, timestamp := 1000, streamId := 7, channelId := 4 }
    { input := mixedTags.flatMap Tag.bytes } mixedTags rfl (by decide) rfl

example :
    ((deserializeAt 4 { messageType := 22, timestamp := 1000 }
      { input := mixedTags.flatMap Tag.bytes }).1.toOption.join.map
    fun message => message.stamps.map Stamp.timestamp) = some [1000, 1050, 1050, 1054] := by decide +kernel

def notifyTag (body : Bytes) (counted : body.length < 2 ^ 24) : Tag :=
  { type := 0x12, timestamp := 0, streamId := 0, body, trailer := [0, 0, 0, 0], counted,
    narrow := by decide, four := rfl }

/-- A function without a name, and its one parameter. -/
def notifyBody {d : Nat} (v : Value0 d) : Bytes := [2, 0, 0] ++ Amf0.encode d v

theorem readFunction_nameless (rest : Bytes) : readFunction ([2, 0, 0] ++ rest) = some ([], rest) := by
  have name : Amf0.readShortString (beBytes 2 ([] : Bytes).length ++ [] ++ rest) = some ([], rest) :=
    Amf0.readShortString_writeShortString (Nat.zero_le _) rest
  have marker :
    tryU8 ([2, 0, 0] ++ rest) = some (Amf0.Marker.string.toByte, beBytes 2 ([] : Bytes).length ++ [] ++ rest) := rfl
  simp only [readFunction, marker, Option.bind_eq_bind, Option.bind_some, if_true, name]

theorem yields_notifyBody {d : Nat} {v : Value0 d} (back : Amf0.RoundTrips v) (visible : 0 < (Amf0.encode d v).length)
    (input : s.input = notifyBody v)
    (ready : Ready (Amf0.encode d v) (Amf0.nodes d v) (Amf0.encode d v).length
      { s.opened with input := Amf0.encode d v }) :
    ∃ a t, Yields deserializeNotify s (.notify [] [a]) t ∧ Shows0 t.heap s.heap.length d a v := by
  let fresh : Decoder :=
    { s.opened with input := Amf0.encode d v, refs := [], stringRefs := [], traitsRefs := [], depth := 0 }
  have room : Ready (Amf0.encode d v) (Amf0.nodes d v + 0) ((Amf0.encode d v).length + 0) fresh :=
    ⟨rfl, ready.nodes, ready.strings⟩
  obtain ⟨a, u, run, ⟨ended, _, _⟩, _, shows⟩ := back.readHere (s := fresh) rfl room
  have last : Yields (readParameters 63) u [] u := by
    refine (bind_ok (a := u.input.length) (t := u) rfl).trans ?_
    rw [ended]
    rfl
  have params : Yields (readParameters eMaxParameters) fresh [a] u := by
    refine (bind_ok (a := fresh.input.length) (t := fresh) rfl).trans ?_
    rw [if_pos visible]
    exact (bind_ok run).trans (bind_ok last)
  refine ⟨a, { u with scopes := u.scopes - 1 }, ?_, shows⟩
  unfold deserializeNotify readScope
  refine yields_guarded.mpr ⟨u, ?_, rfl⟩
  refine (bind_ok (a := ()) (t := s.opened) rfl).trans ?_
  refine (bind_ok (a := ()) (t := { fresh with input := s.input }) rfl).trans ?_
  have function : readFunction { fresh with input := s.input }.input = some ([], Amf0.encode d v) := by
    show readFunction s.input = _
    rw [input]
    exact readFunction_nameless _
  exact (lift_bind function).trans (bind_ok params)

theorem readHere_spent (top : s.depth = 0) (inside : s.scopes ≠ 0)
    (spent : ReadBudget.eMaxNodes ≤ s.budget.nodes) :
    ∃ t, Amf0.readHere s = (.error .amf0Read, t) := by
  let fresh : Decoder :=
    { s with refs := [], stringRefs := [], traitsRefs := [], budget := if s.inScope then s.budget else {} }
  have kept : fresh.budget = s.budget := if_pos (decide_eq_true inside)
  have charged : chargeNode .amf0Read { fresh with depth := fresh.depth + 1 } =
      (.error .amf0Read,
        { fresh with
          depth := fresh.depth + 1
          budget := { fresh.budget with nodes := fresh.budget.nodes + 1 } }) := by
    rw [chargeNode_eq, if_pos]
    rw [kept]
    exact Nat.lt_succ_of_le spent
  have refused : (Amf0.readAt anyRef (31 + 1) fresh).1 = .error .amf0Read := by
    rw [Amf0.readAt, level]
    refine (congrArg Prod.fst (bind_ok (a := ()) (t := { fresh with depth := fresh.depth + 1 }) rfl)).trans ?_
    exact congrArg Prod.fst (bind_error charged)
  exact ⟨_, (Amf0.readHere_top top).trans ((bind_ok (a := ()) (t := fresh) rfl).trans (Prod.ext refused rfl))⟩

theorem deserializeNotify_spent (inside : s.scopes ≠ 0) (spent : ReadBudget.eMaxNodes ≤ s.budget.nodes)
    {byte : UInt8} {rest : Bytes} (input : s.input = [2, 0, 0] ++ byte :: rest) :
    (deserializeNotify s).1 = .error .amf0Read := by
  let fresh : Decoder :=
    { s.opened with input := byte :: rest, refs := [], stringRefs := [], traitsRefs := [], depth := 0 }
  have kept : fresh.budget = s.budget := if_neg inside
  obtain ⟨t, refused⟩ := readHere_spent (s := fresh) rfl (Nat.succ_ne_zero _) (kept ▸ spent)
  have params : readParameters eMaxParameters fresh = (.error .amf0Read, t) :=
    (bind_ok (a := rest.length + 1) (t := fresh) rfl).trans (bind_error refused)
  have function : readFunction { fresh with input := s.input }.input = some ([], byte :: rest) := by
    show readFunction s.input = _
    rw [input]
    exact readFunction_nameless _
  have body : (do
      modify fun s => { s with budget := if s.scopes = 0 then {} else s.budget, scopes := s.scopes + 1 }
      newCodec
      let function ← lift readFunction
      let params ← readParameters eMaxParameters
      return .notify function params : Decode Decoded) s = (.error .amf0Read, t) := by
    refine (bind_ok (a := ()) (t := s.opened) rfl).trans ?_
    refine (bind_ok (a := ()) (t := { fresh with input := s.input }) rfl).trans ?_
    exact (lift_bind function).trans (bind_error params)
  exact congrArg Prod.fst body

theorem deserializeAt_notify (levels : Nat)
    (kind : MessageType.ofCode h.messageType = some .notify) :
    deserializeAt levels h = encoded deserializeNotify := by
  cases levels with
  | zero => simp only [deserializeAt, deserializeWith, kind]
  | succ levels => simp only [deserializeAt, deserializeWith, kind]

section
variable {n : Nat} {h : RtmpHeader} {s : Decoder}

theorem deserializeAt_filling (levels : Nat) (full : n + 2 = ReadBudget.eMaxNodes)
    (kind : MessageType.ofCode h.messageType = some .notify)
    (untouched : s.opened.budget = {}) (input : s.input = notifyBody (repeated .null (n + 1))) :
    ∃ a t, deserializeAt levels h s = (.ok (some (.encoded (.notify [] [a]))), t) ∧
      Shows0 t.heap s.heap.length eMaxDepth a (repeated .null (n + 1)) := by
  have blank : Blank .null := .inl rfl
  have limit : ReadBudget.eMaxNodes = 65536 := rfl
  have size := length_repeated (n := n + 1) blank
  have back := roundTrips_repeated (n := n + 1) blank (by omega) (by omega)
  have ready : Ready (Amf0.encode eMaxDepth (repeated .null (n + 1))) (Amf0.nodes eMaxDepth (repeated .null (n + 1)))
      (Amf0.encode eMaxDepth (repeated .null (n + 1))).length
      { s.opened with input := Amf0.encode eMaxDepth (repeated .null (n + 1)) } := by
    have most : 65541 ≤ ReadBudget.eMaxStringBytes := by decide
    refine ⟨rfl, ?_, ?_⟩
    · show s.opened.budget.nodes + _ ≤ _
      rw [untouched, nodes_repeated]
      show 0 + (1 + (n + 1)) ≤ _
      omega
    · show s.opened.budget.stringBytes + _ ≤ _
      rw [untouched, size]
      show 0 + (5 + (n + 1)) ≤ _
      omega
  obtain ⟨a, t, run, shows⟩ := yields_notifyBody back (by omega) input ready
  refine ⟨a, t, ?_, shows⟩
  rw [deserializeAt_notify levels kind, encoded_eq, show deserializeNotify s = _ from run]

theorem spent_filling (levels : Nat) (full : n + 2 = ReadBudget.eMaxNodes)
    (kind : MessageType.ofCode h.messageType = some .notify)
    (empty : s.heap = []) (untouched : s.budget = {}) (inside : s.scopes ≠ 0) (top : s.depth = 0)
    (input : s.input = notifyBody (repeated .null (n + 1))) :
    ∃ message t, deserializeAt levels h s = (.ok (some message), t) ∧ t.scopes ≠ 0 ∧
      ReadBudget.eMaxNodes ≤ t.budget.nodes := by
  obtain ⟨a, t, run, shows⟩ := deserializeAt_filling levels full kind ((if_neg inside).trans untouched) input
  have start : Within s 0 s := by
    refine ⟨rfl, rfl, inside, ?_, Nat.le_add_right _ _, Nat.le_add_right _ _, Nat.le_add_right _ _⟩
    rw [untouched]
    exact Nat.zero_le _
  have within := ((decodes_deserializeAt levels h).inner s 0 top).yields start run
  refine ⟨_, t, run, within.inside, ?_⟩
  -- every element of the array was paid for, and so was the array
  obtain ⟨b, rest, here, length, _⟩ := repeated_shown shows
  have held := places_one here
  simp only [Cell.links, Node0.links, Node0.container, List.append_nil, List.length_cons] at held
  have paid : places t.heap + (0 + 1) ≤ places s.heap + t.budget.accepted := within.places
  have none : places s.heap = 0 := by
    rw [empty]
    rfl
  have most : t.budget.accepted ≤ t.budget.nodes := Nat.min_le_left _ _
  omega

end

/-- Each of the two bodies is a message by itself; in one aggregate the first uses up the budget and
the second is dropped. -/
theorem crowded_tags : ∃ one other : Tag, (∀ tag ∈ [one, other], ∃ message,
      (deserializeAt 3 (tag.header (tag.time 0 [one, other])) { input := tag.body }).1 = .ok (some message)) ∧
    ∃ messages, (deserializeAt 4 { messageType := 22 } { input := [one, other].flatMap Tag.bytes }).1 =
      .ok (some (.encoded (.aggregate messages))) ∧ messages.length = 1 := by
  obtain ⟨n, full⟩ : ∃ n, n + 2 = ReadBudget.eMaxNodes := ⟨65534, rfl⟩
  have counted : (notifyBody (repeated .null (n + 1))).length < 2 ^ 24 := by
    have limit : ReadBudget.eMaxNodes = 65536 := rfl
    rw [notifyBody, List.length_append, length_repeated (.inl rfl)]
    show 3 + (5 + (n + 1)) < _
    omega
  let one := notifyTag (notifyBody (repeated .null (n + 1))) counted
  let other := notifyTag [2, 0, 0, 5] (by decide)
  refine ⟨one, other, ?_, _, deserializeAt_aggregate 3 rfl (Nat.le_of_ble_eq_true rfl) rfl, ?_⟩
  · intro tag member
    rcases List.mem_pair.mp member with rfl | rfl
    · obtain ⟨a, t, run, _⟩ := deserializeAt_filling 3 (h := one.header (one.time 0 [one, other]))
        (s := { input := one.body }) full rfl rfl rfl
      exact ⟨_, congrArg Prod.fst run⟩
    · exact ⟨_, rfl⟩
  · let start : Decoder := { input := [one, other].flatMap Tag.bytes }
    obtain ⟨message, t, run, inside, spent⟩ := spent_filling 3 (h := one.header (one.time 0 [one, other]))
      (s := { start.opened with input := one.body }) full rfl rfl rfl Nat.one_ne_zero rfl rfl
    have first : decodeBody (deserializeAt 3) (one.header (one.time 0 [one, other])) one.body start.opened =
        (some message, t) := by
      rw [decodeBody, run]
    have second :
        (decodeBody (deserializeAt 3) (other.header (other.time 0 [one, other])) other.body t).1 = none := by
      have refused := deserializeNotify_spent (s := { t with input := other.body }) inside spent rfl
      have dropped : deserializeAt 3 (other.header (other.time 0 [one, other])) { t with input := other.body } =
          (.ok none, (deserializeNotify { t with input := other.body }).2) := by
        rw [deserializeAt_notify 3 rfl, encoded_eq, refused]
        rfl
      rw [decodeBody, dropped]
    have outcomes : (decodeTags (deserializeAt 3) (Tag.time 0 [one, other]) [one, other] start.opened).1 =
        [some message, none] := by
      simp only [decodeTags, first, second]
    show (subMessages _ [one, other]
      ((decodeTags (deserializeAt 3) (Tag.time 0 [one, other]) [one, other] start.opened).1.map _)).length = 1
    rw [outcomes]
    rfl

end RtmpProtocol

end Fms
