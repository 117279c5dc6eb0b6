import Fms.Amf.RoundTrip3

namespace Fms.Amf
open ByteWire Fallible Heap

variable {value bytes : Bytes} {b cost : Nat} {P : List Cell → Prop}

section
variable {α β γ δ : Type} {R R' : α → γ → Prop} {S S' : β → δ → Prop}

theorem Node0.Rel.mono (weaker : ∀ {a b}, R a b → R' a b) (also : ∀ {a b}, S a b → S' a b) {node : Node0 α β}
    {node' : Node0 γ δ} (rel : Node0.Rel R S node node') : Node0.Rel R' S' node node' := by
  cases rel with
  | scalar value => exact .scalar value
  | object members => exact .object (members.mono weaker)
  | ecmaArray entries => exact .ecmaArray (entries.mono weaker)
  | strictArray values => exact .strictArray (values.imp fun _ _ => weaker)
  | typedObject members => exact .typedObject (members.mono weaker)
  | amf3Container data => exact .amf3Container (also data)

end

section
variable {heap heap' : List Cell} {lo lo' d a : Nat}

theorem Shows0.above {v : Value0 d} (shows : Shows0 heap lo d a v) (lower : lo' ≤ lo) : Shows0 heap lo' d a v := by
  induction d generalizing a with
  | zero => nomatch v
  | succ d ih =>
    obtain ⟨above, node, here, rel⟩ := shows
    exact ⟨lower.trans above, node, here, rel.mono ih fun inner => inner.above lower⟩

theorem Shows0.stable {v : Value0 d} {skip : Set Nat} (shows : Shows0 heap lo d a v) (beyond : Beyond skip heap heap')
    (below : ∀ i ∈ skip, i < lo) : Shows0 heap' lo d a v := by
  induction d generalizing a with
  | zero => nomatch v
  | succ d ih =>
    obtain ⟨above, node, here, rel⟩ := shows
    have inside := (List.getElem?_eq_some_iff.mp here).1
    refine ⟨above, node, (beyond.2 a inside fun member => ?_).trans here, rel.mono ih fun inner =>
      inner.stable beyond below⟩
    exact Nat.not_lt.mpr above (below a member)

end

/-- Strings, names and class names fit a 16-bit length. A long string is never made of more
than 32 bits can count. -/
def Node0.Short {α β : Type} : Node0 α β → Prop
  | .scalar (.string value) => value.length ≤ Amf0.eMaxShortString
  | .scalar (.longString data) => data.length < 2 ^ 32
  | .object members => ∀ entry ∈ members.entries, entry.1.length ≤ Amf0.eMaxShortString
  | .ecmaArray entries => ∀ entry ∈ entries, entry.1.length ≤ Amf0.eMaxShortString
  | .typedObject className members =>
    className.length ≤ Amf0.eMaxShortString ∧ ∀ entry ∈ members.entries, entry.1.length ≤ Amf0.eMaxShortString
  | _ => True

def Value0.WellFormed : (d : Nat) → Value0 d → Prop
  | 0, v => nomatch v
  | d + 1, v => Node0.Short v ∧ (∀ w ∈ Node0.links v, WellFormed d w) ∧ ∀ w ∈ Node0.container v, Value3.WellFormed d w

namespace Amf0

/-- What `read_strict_array` asks for before it reads the count: at every strict array, its
elements and all that follows it take three bytes. In the other containers at least the end
marker follows, so only the arrays that a chain of last elements leads to can lack it. -/
def Roomy : (d : Nat) → Value0 d → Bytes → Prop
  | 0, v, _ => nomatch v
  | d + 1, .strictArray values, t =>
    3 ≤ (values.flatMap (encode d) ++ t).length ∧
      ∀ (pre : List (Value0 d)) w post, values = pre ++ w :: post → Roomy d w (post.flatMap (encode d) ++ t)
  | _ + 1, _, _ => True

theorem roomy_of_three {d : Nat} (v : Value0 d) {t : Bytes} (three : 3 ≤ t.length) : Roomy d v t := by
  induction d generalizing t with
  | zero => nomatch v
  | succ d ih =>
    have more (bytes : Bytes) : 3 ≤ (bytes ++ t).length := by
      rw [List.length_append]
      omega
    cases v with
    | strictArray values => exact ⟨more _, fun pre w post _ => ih w (more _)⟩
    | _ => trivial

theorem writeShortString_short (short : value.length ≤ eMaxShortString) :
    writeShortString value value.length = beBytes 2 value.length ++ value := by
  rw [writeShortString, Nat.min_eq_left short, List.take_length]

theorem readShortString_writeShortString (short : value.length ≤ eMaxShortString) (rest : Bytes) :
    readShortString (beBytes 2 value.length ++ value ++ rest) = some (value, rest) := by
  have word : value.length % 256 ^ 2 = value.length := Nat.mod_eq_of_lt (Nat.lt_succ_of_le short)
  rw [List.append_assoc, readShortString, tryU16Be, takeBytes_append (length_beBytes 2 _)]
  simp only [Option.map_some, Option.bind_eq_bind, Option.bind_some, beNat_beBytes, word]
  exact takeBytes_append rfl rest

theorem readNumber_writeNumber (bits : UInt64) (rest : Bytes) :
    readNumber (writeNumber bits ++ rest) = some (bits, rest) :=
  Amf3.readDouble_writeDouble bits rest

theorem length_lt_word {n : Nat} (small : n ≤ ReadBudget.eMaxStringBytes) : (UInt32.ofNat n).toNat = n :=
  toNat_word (small.trans_lt (by decide))

theorem readXmlDocument_writeXmlDocument (small : value.length ≤ ReadBudget.eMaxStringBytes) (rest : Bytes) :
    readXmlDocument (writeXmlDocument value ++ rest) = some (value, rest) := by
  rw [writeXmlDocument, List.append_assoc, readXmlDocument, tryU32Be_u32Be]
  simp only [Option.bind_eq_bind, Option.bind_some, length_lt_word small]
  exact takeBytes_append rfl rest

theorem readLongString_writeLongString {data : Bytes} (small : data.length ≤ ReadBudget.eMaxStringBytes)
    (rest : Bytes) :
    readLongString (writeLongString data ++ rest) = (data, rest) := by
  have word : data.length % 2 ^ 32 = data.length := Nat.mod_eq_of_lt (small.trans_lt (by decide))
  rw [writeLongString, word, List.take_length, List.append_assoc, readLongString, tryU32Be_u32Be]
  simp only [length_lt_word small, takeBytes_append rfl rest, Option.getD_some]

/-- Members and the end marker, as written. -/
def encodeProperties (d : Nat) (entries : List (Bytes × Value0 d)) : Bytes :=
  entries.flatMap (fun entry => beBytes 2 entry.1.length ++ entry.1 ++ encode d entry.2) ++ endOfObject

theorem three_le_encodeProperties {d : Nat} (entries : List (Bytes × Value0 d)) (t : Bytes) :
    3 ≤ (encodeProperties d entries ++ t).length := by
  simp only [encodeProperties, endOfObject, List.length_append, List.length_cons]
  omega

theorem flatten_writeProperties {d : Nat} (length : Bytes → Nat) {entries : List (Bytes × Value0 d)}
    (short : ∀ entry ∈ entries, entry.1.length ≤ eMaxShortString ∧ length entry.1 = entry.1.length) :
    Part.flatten (Sum.elim (encode d) (Amf3.encode d)) (writeProperties length entries) =
      encodeProperties d entries := by
  rw [writeProperties, Part.flatten_append, Part.flatten_flatMap, encodeProperties]
  congr 1
  refine List.flatMap_congr fun entry member => ?_
  obtain ⟨fits, same⟩ := short entry member
  simp only [Part.flatten, Sum.elim_inl, List.append_nil, same, writeShortString_short fits]

theorem total_writeProperties {α β : Type} {cost : α → Nat} {cost3 : β → Nat} {length : Bytes → Nat}
    (entries : List (Bytes × α)) :
    Part.total (Sum.elim cost cost3) (writeProperties length entries) =
      (entries.map fun entry => cost entry.2).sum := by
  simp [writeProperties, Part.total]

theorem encode_marker : (d : Nat) → (v : Value0 d) →
    ∃ (marker : Marker) (rest : Bytes), encode d v = marker.toByte :: rest
  | 0, v => nomatch v
  | _ + 1, .scalar (.number _) => ⟨.number, _, rfl⟩
  | _ + 1, .scalar (.boolean _) => ⟨.boolean, _, rfl⟩
  | _ + 1, .scalar (.string _) => ⟨.string, _, rfl⟩
  | _ + 1, .scalar .null => ⟨.null, _, rfl⟩
  | _ + 1, .scalar .undefined => ⟨.undefined, _, rfl⟩
  | _ + 1, .scalar (.date _) => ⟨.date, _, rfl⟩
  | _ + 1, .scalar (.longString _) => ⟨.longString, _, rfl⟩
  | _ + 1, .scalar .unsupported => ⟨.unsupported, _, rfl⟩
  | _ + 1, .scalar (.xmlDocument _) => ⟨.xmlDocument, _, rfl⟩
  | _ + 1, .object _ => ⟨.object, _, rfl⟩
  | _ + 1, .ecmaArray _ => ⟨.ecmaArray, _, rfl⟩
  | _ + 1, .strictArray _ => ⟨.strictArray, _, rfl⟩
  | _ + 1, .typedObject _ _ => ⟨.typedObject, _, rfl⟩
  | _ + 1, .amf3Container _ => ⟨.amf3Container, _, rfl⟩

theorem encode_pos (d : Nat) (v : Value0 d) : 1 ≤ (encode d v).length := by
  obtain ⟨marker, rest, whole⟩ := encode_marker d v
  rw [whole]
  exact Nat.succ_pos _

theorem marker_ne_end (marker : Marker) : marker.toByte ≠ 0x09 := by
  cases marker <;> decide

/-- A member is not taken for the end marker: an empty name is followed by the marker of a
value. -/
theorem property_ne_end {d : Nat} {key : Bytes} (short : key.length ≤ eMaxShortString) (w : Value0 d) (rest : Bytes) :
    (beBytes 2 key.length ++ key ++ encode d w ++ rest).take 3 ≠ endOfObject := by
  intro same
  obtain ⟨marker, tail, whole⟩ := encode_marker d w
  have two : beBytes 2 key.length = [0, 0] := by
    have first := congrArg (List.take 2) same
    rw [List.take_take, List.append_assoc, List.append_assoc] at first
    rwa [Nat.min_eq_left (by decide), List.take_append_of_le_length (by simp),
      List.take_of_length_le (by simp)] at first
  have none : key.length = 0 := by
    have number := congrArg beNat two
    rwa [beNat_beBytes, show key.length % 256 ^ 2 = key.length from Nat.mod_eq_of_lt
      (Nat.lt_succ_of_le short)] at number
  rw [List.length_eq_zero_iff.mp none, whole] at same
  exact marker_ne_end marker (congrArg (fun l => l.getD 2 0) same)

/-- The value is read back where `t` follows. -/
def ReadsBack (policy : RefPolicy) (d : Nat) (v : Value0 d) (t : Bytes) : Prop :=
  ∀ heap, Accepts (· = heap) (readAt policy d) (encode d v) (nodes d v) t fun a h =>
    Beyond ∅ heap h ∧ Shows0 h heap.length d a v

/-- The container that `made` describes, with its members so far. -/
def HasProperties (d a : Nat) (made : List (Bytes × Nat) → Cell → Prop) (done : List (Bytes × Value0 d))
    (h : List Cell) (c : Cell) : Prop :=
  ∃ entries, made entries c ∧ Entries (Shows0 h (a + 1) d) entries done

def HasElements (d a : Nat) (done : List (Value0 d)) (h : List Cell) (c : Cell) : Prop :=
  ∃ values, c = .amf0 (.strictArray values) ∧ List.Forall₂ (Shows0 h (a + 1) d) values done

section
variable {policy : RefPolicy} {heap : List Cell} {cell : Cell} {d a : Nat} {t : Bytes}

theorem shows_stable {h h' : List Cell} {v : Value0 d} (beyond : Beyond {a} h h') (shows : Shows0 h (a + 1) d b v) :
    Shows0 h' (a + 1) d b v :=
  shows.stable beyond fun _ member => (Set.mem_singleton_iff.mp member) ▸ Nat.lt_succ_self a

theorem HasProperties.stable (made : List (Bytes × Nat) → Cell → Prop) (done : List (Bytes × Value0 d)) :
    Stable a (HasProperties d a made done) :=
  fun _ _ _ beyond ⟨entries, isMade, all⟩ => ⟨entries, isMade, all.mono (shows_stable beyond)⟩

theorem HasElements.stable (done : List (Value0 d)) : Stable a (HasElements d a done) :=
  fun _ _ _ beyond ⟨values, isMade, all⟩ => ⟨values, isMade, all.imp fun _ _ => shows_stable beyond⟩

theorem ReadsBack.inside {v : Value0 d} (back : ReadsBack policy d v t) (h : List Cell) (inside : a < h.length) :
    Accepts (· = h) (readAt policy d) (encode d v) (nodes d v) t fun b h' =>
      Beyond ∅ h h' ∧ Shows0 h' (a + 1) d b v :=
  (back h).weaken fun _ _ both => ⟨both.1, both.2.above inside⟩

theorem accepts_peek {α : Type} {Q : α → List Cell → Prop} {f : Bytes → Decode α}
    (accepts : Accepts P (f (bytes ++ t)) bytes cost t Q) : Accepts P (do f (← get).input) bytes cost t Q := by
  intro s nodes strings ready before
  obtain ⟨x, s', run, after⟩ := accepts ready before
  rw [← ready.input] at run
  exact ⟨x, s', yields_bind.mpr ⟨s, s, yields_get.mpr ⟨rfl, rfl⟩, run⟩, after⟩

theorem accepts_readProperty {key : Bytes} {w : Value0 d} (short : key.length ≤ eMaxShortString)
    (back : ReadsBack policy d w t)
    {J J' : List Cell → Cell → Prop} (stable : Stable heap.length J) (stable' : Stable heap.length J')
    (step : ∀ h c b, J h c → Shows0 h (heap.length + 1) d b w → J' h (addEntry key b c)) :
    Accepts (Filling heap cell J) (readProperty (readAt policy d) heap.length)
      (beBytes 2 key.length ++ key ++ encode d w) (nodes d w) t fun more h =>
        more = true ∧ Filling heap cell J' h := by
  have enough : 3 ≤ (beBytes 2 key.length ++ key ++ encode d w ++ t).length := by
    have := encode_pos d w
    simp only [List.length_append, length_beBytes]
    omega
  refine accepts_peek (f := fun r => if r.length ≥ 3 ∧ r.take 3 ≠ endOfObject then _ else _) ?_
  rw [if_pos ⟨enough, property_ne_end short w t⟩]
  refine Accepts.free (accepts_lift (readShortString_writeShortString short _)) ?_
  rw [← bind_assoc]
  exact Accepts.last (accepts_put back.inside stable stable' step) fun _ => accepts_pure fun h holds => ⟨rfl, holds⟩

theorem accepts_readProperties {made : List (Bytes × Nat) → Cell → Prop} (all : List (Bytes × Value0 d))
    (short : ∀ entry ∈ all, entry.1.length ≤ eMaxShortString)
    (adds : ∀ done entry rest, all = done ++ entry :: rest → ∀ entries c b,
      entries.map Prod.fst = done.map Prod.fst → made entries c →
        made (entries ++ [(entry.1, b)]) (addEntry entry.1 b c))
    (back : ∀ entry ∈ all, ∀ t : Bytes, 3 ≤ t.length → ReadsBack policy d entry.2 t) :
    Accepts (Filling heap cell (HasProperties d heap.length made [])) (readProperties (readAt policy d) heap.length)
      (encodeProperties d all) (all.map fun entry => nodes d entry.2).sum t
      fun _ => Filling heap cell (HasProperties d heap.length made all) := by
  refine Accepts.still accepts_available ?_
  have first (entry : Bytes × Value0 d) : 1 ≤ (beBytes 2 entry.1.length ++ entry.1 ++ encode d entry.2).length := by
    have := encode_pos d entry.2
    simp only [List.length_append]
    omega
  have count := Amf3.length_le_flatMap first all
  have ended : Accepts (Filling heap cell (HasProperties d heap.length made all))
      (do let _ ← lift (takeBytes 3)) endOfObject 0 t fun _ =>
        Filling heap cell (HasProperties d heap.length made all) :=
    Accepts.ends (accepts_lift (takeBytes_append rfl t)) (accepts_pure fun h holds => holds)
  have members : Accepts (Filling heap cell (HasProperties d heap.length made []))
      (loop .bufferEof (readProperty (readAt policy d) heap.length)
        ((encodeProperties d all ++ t).length + 1))
      (all.flatMap (fun entry => beBytes 2 entry.1.length ++ entry.1 ++ encode d entry.2) ++ [])
      (all.map fun entry => nodes d entry.2).sum (endOfObject ++ t)
      fun _ => Filling heap cell (HasProperties d heap.length made all) := by
    refine accepts_loop (P := fun done => Filling heap cell (HasProperties d heap.length made done)) all
      (fun done entry rest split => ?_) ?_ ?_
    · have member : entry ∈ all := split ▸ List.mem_append_right _ (List.mem_cons_self ..)
      refine accepts_readProperty (short entry member) (back entry member _ ?_) (HasProperties.stable made done)
        (HasProperties.stable made _) ?_
      · simp only [List.length_append, endOfObject, List.length_cons]
        omega
      · rintro h c b ⟨entries, isMade, related⟩ shows
        exact ⟨_, adds done entry rest split entries c b related.keys isMade,
          List.rel_append related (.cons ⟨rfl, shows⟩ .nil)⟩
    · refine accepts_peek (f := fun r => if r.length ≥ 3 ∧ r.take 3 ≠ endOfObject then _ else _) ?_
      rw [if_neg fun more => more.2 rfl]
      exact accepts_pure fun h holds => ⟨rfl, holds⟩
    · simp only [encodeProperties, List.length_append]
      omega
  rw [List.append_nil] at members
  exact members.bind fun _ => ended

theorem ofByte_toByte (marker : Marker) : Marker.ofByte marker.toByte = some marker := by
  cases marker <;> decide

theorem accepts_marker {Q : Nat → List Cell → Prop} (marker : Marker)
    (accepts : Accepts P (readBody policy (d + 1) (readAt policy d) (Amf3.readAt policy d) marker) bytes cost t Q) :
    Accepts P (readAt policy (d + 1)) (marker.toByte :: bytes) (1 + cost) t Q := by
  refine (Accepts.known (accepts_chargeNode _) ?_).level
  show Accepts P _ ([marker.toByte] ++ bytes) cost t Q
  refine Accepts.free (a := marker.toByte) (accepts_lift rfl) ?_
  rw [ofByte_toByte]
  exact accepts

theorem accepts_scalar (value : Scalar0) (short : Node0.Short (.scalar value : Node0 (Value0 d) (Value3 d))) :
    Accepts (· = heap) (readAt policy (d + 1)) (writeScalar value) 1 t fun a h =>
      a = heap.length ∧ h = heap ++ [.amf0 (.scalar value)] := by
  refine Accepts.of_small fun small => ?_
  cases value with
  | number bits =>
    exact accepts_marker .number (Accepts.ends (accepts_lift (readNumber_writeNumber bits t)) (accepts_alloc heap _))
  | boolean value =>
    refine accepts_marker .boolean (Accepts.ends (a := value) (accepts_lift ?_) (accepts_alloc heap _))
    cases value <;> rfl
  | string value =>
    have fits : value.length ≤ eMaxShortString := short
    have whole : writeScalar (.string value) = Marker.string.toByte :: (beBytes 2 value.length ++ value) := by
      rw [writeScalar, show value.length % 2 ^ 16 = value.length from Nat.mod_eq_of_lt (Nat.lt_succ_of_le fits),
        writeShortString_short fits]
    rw [whole]
    exact accepts_marker .string
      (Accepts.ends (accepts_lift (readShortString_writeShortString fits t)) (accepts_alloc heap _))
  | null => exact accepts_marker .null (accepts_alloc heap _)
  | undefined => exact accepts_marker .undefined (accepts_alloc heap _)
  | date bits =>
    have read : readDate (writeNumber bits ++ [0, 0] ++ t) = some (bits, t) := by
      rw [List.append_assoc, readDate, readNumber_writeNumber]
      rfl
    exact accepts_marker .date (Accepts.ends (accepts_lift read) (accepts_alloc heap _))
  | longString data =>
    have fits : data.length ≤ ReadBudget.eMaxStringBytes := by
      simp only [writeScalar, writeLongString, List.length_cons, List.length_append, Nat.mod_eq_of_lt short,
        List.take_length] at small
      omega
    have read : (some ∘ readLongString) (writeLongString data ++ t) = some (data, t) := by
      rw [Function.comp_apply, readLongString_writeLongString fits]
    exact accepts_marker .longString (Accepts.ends (accepts_lift read) (accepts_alloc heap _))
  | unsupported => exact accepts_marker .unsupported (accepts_alloc heap _)
  | xmlDocument value =>
    have fits : value.length ≤ ReadBudget.eMaxStringBytes := by
      simp only [writeScalar, writeXmlDocument, List.length_cons, List.length_append] at small
      omega
    exact accepts_marker .xmlDocument
      (Accepts.ends (accepts_lift (readXmlDocument_writeXmlDocument fits t)) (accepts_alloc heap _))

theorem accepts_container {fill : Nat → Decode Unit} {J : List Cell → Cell → Prop} {v : Value0 (d + 1)}
    (fills : Accepts (· = heap ++ [cell]) (fill heap.length) bytes cost t fun _ => Filling heap cell J)
    (shown : ∀ h c, J h c → ∃ node, c = .amf0 node ∧
      Node0.Rel (Shows0 h (heap.length + 1) d) (Shows3 h (heap.length + 1) d) node v) :
    Accepts (· = heap) (populate cell fill) bytes cost t fun a h =>
      Beyond ∅ heap h ∧ Shows0 h heap.length (d + 1) a v := by
  refine (Accepts.populate fills).weaken fun a h filled => ?_
  obtain ⟨rfl, beyond, c, here, holds⟩ := filled
  obtain ⟨node, rfl, rel⟩ := shown h c holds
  refine ⟨beyond, Nat.le_refl _, node, here, rel.mono (fun shows => ?_) fun shows => ?_⟩
  · exact shows.above (Nat.le_succ _)
  · exact shows.above (Nat.le_succ _)

/-- An object whose members so far are those entries. -/
def MadeOf (make : Members Nat → Cell) (entries : List (Bytes × Nat)) (c : Cell) : Prop :=
  ∃ m : Members Nat, m.entries = entries ∧ c = make m

theorem adds_object (members : Members (Value0 d)) {make : Members Nat → Cell}
    (commutes : ∀ m key b, addEntry key b (make m) = make (m.addEntry key b)) (done : List (Bytes × Value0 d))
    (entry : Bytes × Value0 d) (rest : List (Bytes × Value0 d)) (split : members.entries = done ++ entry :: rest)
    (entries : List (Bytes × Nat)) (c : Cell) (b : Nat) (names : entries.map Prod.fst = done.map Prod.fst)
    (isMade : MadeOf make entries c) : MadeOf make (entries ++ [(entry.1, b)]) (addEntry entry.1 b c) := by
  obtain ⟨m, rfl, rfl⟩ := isMade
  refine ⟨m.addEntry entry.1 b, ?_, commutes m entry.1 b⟩
  have distinct := members.distinct
  rw [split, List.map_append, List.map_cons, List.nodup_append] at distinct
  have fresh : entry.1 ∉ m.entries.map Prod.fst := by
    rw [names]
    exact fun known => distinct.2.2 entry.1 known entry.1 (List.mem_cons_self ..) rfl
  rw [Members.addEntry, dif_neg fresh]

section
variable {members : Members (Value0 d)} (short : ∀ entry ∈ members.entries, entry.1.length ≤ eMaxShortString)
  (back : ∀ entry ∈ members.entries, ∀ t : Bytes, 3 ≤ t.length → ReadsBack policy d entry.2 t)
include short back

theorem readsBack_object : ReadsBack policy (d + 1) (.object members) t := by
  intro heap
  have whole : encode (d + 1) (.object members) = Marker.object.toByte :: encodeProperties d members.entries :=
    congrArg (Marker.object.toByte :: ·) (flatten_writeProperties _ fun entry member => ⟨short entry member, rfl⟩)
  have cost : nodes (d + 1) (.object members) = 1 + (members.entries.map fun entry => nodes d entry.2).sum :=
    congrArg (1 + ·) (total_writeProperties members.entries)
  rw [whole, cost]
  refine accepts_marker .object (accepts_container
    (J := HasProperties d heap.length (MadeOf fun m => .amf0 (.object m)) members.entries) ?_ ?_)
  · refine Accepts.still accepts_available ?_
    rw [if_neg (Nat.not_lt.mpr (three_le_encodeProperties _ _))]
    refine Accepts.strengthen (accepts_readProperties members.entries short
      (adds_object members fun _ _ _ => rfl) back) ?_
    exact filling_start heap _ ⟨[], ⟨{}, rfl, rfl⟩, .nil⟩
  · rintro h c ⟨entries, ⟨m, rfl, rfl⟩, all⟩
    exact ⟨_, rfl, .object all⟩

theorem readsBack_typedObject {className : Bytes} (named : className.length ≤ eMaxShortString) :
    ReadsBack policy (d + 1) (.typedObject className members) t := by
  intro heap
  have properties := flatten_writeProperties List.length fun entry member => ⟨short entry member, rfl⟩
  have whole : encode (d + 1) (.typedObject className members) = Marker.typedObject.toByte ::
      (beBytes 2 className.length ++ className ++ encodeProperties d members.entries) := by
    rw [← properties, ← writeShortString_short named]
    rfl
  have cost : nodes (d + 1) (.typedObject className members) =
      1 + (members.entries.map fun entry => nodes d entry.2).sum :=
    congrArg (1 + ·) (total_writeProperties members.entries)
  rw [whole, cost]
  refine accepts_marker .typedObject (accepts_container
    (J := HasProperties d heap.length (MadeOf fun m => .amf0 (.typedObject className m)) members.entries) ?_ ?_)
  · refine Accepts.free (accepts_lift (readShortString_writeShortString named _)) ?_
    refine Accepts.still (accepts_update heap.length (setClassName className)) ?_
    refine Accepts.strengthen (accepts_readProperties members.entries short
      (adds_object members fun _ _ _ => rfl) back) ?_
    rintro _ ⟨old, rfl, rfl⟩
    refine ⟨.modify (Set.mem_singleton _) _ _, .amf0 (.typedObject className {}), ?_, [], ⟨{}, rfl, rfl⟩, .nil⟩
    rw [List.getElem?_modify_eq, List.getElem?_concat_length]
    rfl
  · rintro h c ⟨entries, ⟨m, rfl, rfl⟩, all⟩
    exact ⟨_, rfl, .typedObject all⟩

end

theorem readsBack_ecmaArray {entries : List (Bytes × Value0 d)}
    (short : ∀ entry ∈ entries, entry.1.length ≤ eMaxShortString)
    (back : ∀ entry ∈ entries, ∀ t : Bytes, 3 ≤ t.length → ReadsBack policy d entry.2 t) :
    ReadsBack policy (d + 1) (.ecmaArray entries) t := by
  intro heap
  have properties := flatten_writeProperties (fun key => key.length % 2 ^ 16) fun entry member =>
    ⟨short entry member, Nat.mod_eq_of_lt (Nat.lt_succ_of_le (short entry member))⟩
  have whole : encode (d + 1) (.ecmaArray entries) = Marker.ecmaArray.toByte ::
      (u32Be (UInt32.ofNat entries.length) ++ encodeProperties d entries) := by
    rw [← properties]
    rfl
  have cost : nodes (d + 1) (.ecmaArray entries) = 1 + (entries.map fun entry => nodes d entry.2).sum :=
    congrArg (1 + ·) (total_writeProperties entries)
  rw [whole, cost]
  refine accepts_marker .ecmaArray (accepts_container
    (J := HasProperties d heap.length (fun entries c => c = .amf0 (.ecmaArray entries)) entries) ?_ ?_)
  · have room := three_le_encodeProperties entries t
    refine Accepts.still accepts_available ?_
    rw [if_neg (by simp only [List.length_append, length_u32Be] at room ⊢; omega)]
    refine Accepts.free (accepts_lift (takeBytes_append (length_u32Be _) _)) ?_
    refine Accepts.strengthen (accepts_readProperties entries short
      (fun done entry rest _ before c b _ made => ?_) back) ?_
    · rw [made]
      rfl
    · exact filling_start heap _ ⟨[], rfl, .nil⟩
  · rintro h c ⟨items, rfl, all⟩
    exact ⟨_, rfl, .ecmaArray all⟩

theorem encode_strictArray (values : List (Value0 d)) : encode (d + 1) (.strictArray values) =
    Marker.strictArray.toByte :: (u32Be (UInt32.ofNat values.length) ++ values.flatMap (encode d)) := by
  simp [encode, writeNode, writeStrictArray, Part.flatten]

theorem nodes_strictArray (values : List (Value0 d)) : nodes (d + 1) (.strictArray values) =
    1 + (values.map (nodes d)).sum := by
  simp [nodes, writeNode, writeStrictArray, Part.total]

theorem accepts_readElement {done : List (Value0 d)} {v : Value0 d} (back : ReadsBack policy d v t) :
    Accepts (Filling heap cell (HasElements d heap.length done)) (readElement (readAt policy d) heap.length)
      (encode d v) (nodes d v) t fun _ => Filling heap cell (HasElements d heap.length (done ++ [v])) := by
  refine accepts_put back.inside (HasElements.stable done) (HasElements.stable _) ?_
  rintro h c b ⟨before, rfl, all⟩ shows
  exact ⟨before ++ [b], rfl, List.rel_append all (.cons shows .nil)⟩

theorem readsBack_strictArray {values : List (Value0 d)} (room : 3 ≤ (values.flatMap (encode d) ++ t).length)
    (back : ∀ pre w post, values = pre ++ w :: post → ReadsBack policy d w (post.flatMap (encode d) ++ t)) :
    ReadsBack policy (d + 1) (.strictArray values) t := by
  intro heap
  rw [encode_strictArray, nodes_strictArray]
  refine Accepts.of_small fun small => ?_
  have count := Amf3.length_le_flatMap (encode_pos d) values
  simp only [List.length_cons, List.length_append] at small
  refine accepts_marker .strictArray (accepts_container (J := HasElements d heap.length values) ?_ ?_)
  · refine Accepts.still accepts_available ?_
    rw [if_neg (by simp only [List.length_append, length_u32Be] at room ⊢; omega)]
    refine Accepts.free (accepts_lift (tryU32Be_u32Be _ _)) ?_
    rw [length_lt_word (by omega)]
    refine Accepts.strengthen (accepts_times (P := fun done => Filling heap (.amf0 (.strictArray []))
      (HasElements d heap.length done)) values fun done v rest split => ?_) ?_
    · exact accepts_readElement (back done v rest split)
    · exact filling_start heap _ ⟨[], rfl, .nil⟩
  · rintro h c ⟨items, rfl, all⟩
    exact ⟨_, rfl, .strictArray all⟩

theorem accepts_nested {Q : Nat → List Cell → Prop} {action : Decode Nat}
    (accepts : Accepts P action bytes cost t Q) :
    Accepts P (nested action) bytes cost t Q := by
  intro s nodes strings ready before
  obtain ⟨b, u, run, after, holds⟩ := accepts (s := { s with refs := [], stringRefs := [], traitsRefs := [] })
    ⟨ready.input, ready.nodes, ready.strings⟩ before
  exact ⟨b, _, yields_nested.mpr ⟨u, run, rfl⟩, ⟨after.input, after.nodes, after.strings⟩, holds⟩

theorem readsBack_amf3Container {data : Value3 d} (legal : data.WellFormed d) :
    ReadsBack policy (d + 1) (.amf3Container data) t := by
  intro heap
  have whole : encode (d + 1) (.amf3Container data) = Marker.amf3Container.toByte :: Amf3.encode d data := by
    simp [encode, writeNode, Part.flatten]
  have cost : nodes (d + 1) (.amf3Container data) = 1 + Amf3.nodes d data := by
    simp [nodes, writeNode, Part.total]
  rw [whole, cost]
  refine accepts_marker .amf3Container
    (Accepts.last (accepts_nested (Amf3.readsBack policy d data legal heap t)) fun b => ?_)
  intro s nodes strings ready before
  obtain ⟨a, u, run, after, address, grown⟩ := accepts_alloc s.heap (.amf0 (.amf3Container b)) ready rfl
  obtain ⟨beyond, shows⟩ := before
  have more : Beyond ∅ s.heap u.heap := grown ▸ .append _ _ _
  refine ⟨a, u, run, after, beyond.trans more, address ▸ beyond.1, _, ?_, .amf3Container (shows.stable more ?_)⟩
  · rw [address, grown, List.getElem?_concat_length]
  · exact fun i member => absurd member (Set.notMem_empty i)

/-- Every tree of the language is read back from its encoding where the bytes that follow
leave room for the check on strict arrays. -/
theorem readsBack (policy : RefPolicy) (d : Nat) (v : Value0 d) (legal : v.WellFormed d) {t : Bytes}
    (roomy : Roomy d v t) :
    ReadsBack policy d v t := by
  induction d generalizing t with
  | zero => nomatch v
  | succ d ih =>
    obtain ⟨short, inner, inner3⟩ := legal
    have back {w : Value0 d} (member : w ∈ Node0.links v) (t : Bytes) (three : 3 ≤ t.length) :
        ReadsBack policy d w t :=
      ih w (inner w member) (roomy_of_three w three)
    cases v with
    | scalar value =>
      intro heap
      have whole : encode (d + 1) (.scalar value) = writeScalar value := List.append_nil _
      rw [whole]
      refine (accepts_scalar value short).weaken fun a h stored => ?_
      obtain ⟨rfl, rfl⟩ := stored
      exact ⟨.append _ _ _, Nat.le_refl _, _, List.getElem?_concat_length, .scalar value⟩
    | object members => exact readsBack_object short fun entry member => back (List.mem_map_of_mem member)
    | ecmaArray entries => exact readsBack_ecmaArray short fun entry member => back (List.mem_map_of_mem member)
    | strictArray values =>
      refine readsBack_strictArray roomy.1 fun pre w post split => ?_
      exact ih w (inner w (split ▸ List.mem_append_right _ (List.mem_cons_self ..))) (roomy.2 pre w post split)
    | typedObject className members =>
      exact readsBack_typedObject short.2 (fun entry member => back (List.mem_map_of_mem member)) short.1
    | amf3Container data => exact readsBack_amf3Container (inner3 data (List.mem_singleton_self _))

/-- What a strict array that was passed over leaves: its count, whose first byte is zero, and
what came after it, too little to be read as a number. -/
structure Spoiled (t r : Bytes) : Prop where
  zero : ∃ rest, r = 0 :: rest
  short : r.length ≤ 6
  extra : t.length < r.length

variable {s s' : Decoder}

theorem yields_readAt (run : Yields (readAt policy (d + 1)) s b s') :
    ∃ type rest marker u, s.input = type :: rest ∧ Marker.ofByte type = some marker ∧
      Yields (readBody policy (d + 1) (readAt policy d) (Amf3.readAt policy d) marker)
        { s with input := rest, budget := { s.budget with nodes := s.budget.nodes + 1 }, depth := s.depth + 1 } b u ∧
      s' = { u with depth := u.depth - 1 } := by
  obtain ⟨v, run, left⟩ := yields_level.mp run
  obtain ⟨_, t, charge, run⟩ := yields_bind.mp run
  rw [yields_chargeNode charge] at run
  obtain ⟨type, u, first, run⟩ := yields_bind.mp run
  obtain ⟨rest, got, rfl⟩ := yields_lift.mp first
  have input : s.input = type :: rest := by
    cases whole : s.input with
    | nil =>
      rw [show tryU8 s.input = none by rw [whole]; rfl] at got
      cases got
    | cons b bs =>
      rw [show tryU8 s.input = some (b, bs) by rw [whole]; rfl] at got
      cases got
      rfl
  cases known : Marker.ofByte type with
  | none =>
    rw [known] at run
    exact absurd run yields_throw
  | some marker =>
    rw [known] at run
    exact ⟨type, rest, marker, v, input, known, run, left⟩

/-- A zero is the marker of a number, which takes eight bytes more. -/
theorem no_read (short : s.input.length ≤ 8) (zero : ∀ b ∈ s.input.head?, b = 0) :
    ¬Yields (readAt policy d) s b s' := by
  intro run
  cases d with
  | zero =>
    obtain ⟨_, refused, _⟩ := yields_level.mp run
    exact yields_throw refused
  | succ d =>
    obtain ⟨type, rest, marker, _, input, known, body, _⟩ := yields_readAt run
    rw [input] at short zero
    obtain rfl := zero type rfl
    cases known
    obtain ⟨bits, u, number, _⟩ := yields_bind.mp body
    obtain ⟨after, got, _⟩ := yields_lift.mp number
    obtain ⟨⟨bytes, tail⟩, taken, _⟩ := Option.map_eq_some_iff.mp got
    have whole := takeBytes_some taken
    have length := congrArg List.length whole.1
    simp only [List.length_append, List.length_cons, whole.2] at length short
    omega

theorem Spoiled.no_read (spoiled : Spoiled t s.input) : ¬Yields (readAt policy d) s b s' := by
  obtain ⟨rest, zero⟩ := spoiled.zero
  refine Amf0.no_read (spoiled.short.trans (by decide)) fun b first => ?_
  rw [zero] at first
  exact (Option.some.inj first).symm

theorem zero_u32Be {n : Nat} (small : n < 2 ^ 24) : ∃ rest, u32Be (UInt32.ofNat n) = 0 :: rest := by
  refine ⟨beBytes 3 n, ?_⟩
  rw [u32Be, toNat_word (by omega), beBytes, Nat.div_eq_of_lt (by omega)]
  rfl

section
variable {s s' : Decoder} {n k : Nat}

/-- Not read back where `t` follows: what is left is more than `t`. -/
def Spoils (policy : RefPolicy) (d : Nat) (v : Value0 d) (t : Bytes) : Prop :=
  ∀ ⦃s s' n k b⦄, Ready (encode d v ++ t) (nodes d v + n) ((encode d v).length + k) s →
    Yields (readAt policy d) s b s' → Spoiled t s'.input

/-- The elements before the first one without room are read back; none can be read after it. -/
theorem spoils_elements {values : List (Value0 d)} (legal : ∀ w ∈ values, w.WellFormed d)
    (spoils : ∀ w ∈ values, ∀ t, ¬ Roomy d w t → Spoils policy d w t)
    (cramped : ∃ pre w post, values = pre ++ w :: post ∧ ¬ Roomy d w (post.flatMap (encode d) ++ t))
    (ready : Ready (values.flatMap (encode d) ++ t) ((values.map (nodes d)).sum + n)
      ((values.flatMap (encode d)).length + k) s)
    (run : Yields (times values.length (readElement (readAt policy d) a)) s () s') : Spoiled t s'.input := by
  induction values generalizing s with
  | nil =>
    obtain ⟨pre, w, post, split, _⟩ := cramped
    cases pre <;> cases split
  | cons w rest ih =>
    obtain ⟨_, v, element, later⟩ := yields_bind.mp run
    obtain ⟨b, u, read, put⟩ := yields_bind.mp element
    rw [yields_modify.mp put] at later
    have bytes : (w :: rest).flatMap (encode d) ++ t = encode d w ++ (rest.flatMap (encode d) ++ t) := by
      rw [List.flatMap_cons, List.append_assoc]
    have length : ((w :: rest).flatMap (encode d)).length + k =
        (encode d w).length + ((rest.flatMap (encode d)).length + k) := by
      rw [List.flatMap_cons, List.length_append, Nat.add_assoc]
    rw [bytes, length, List.map_cons, List.sum_cons, Nat.add_assoc] at ready
    by_cases roomy : Roomy d w (rest.flatMap (encode d) ++ t)
    · obtain ⟨b', u', again, after, _⟩ :=
        readsBack policy d w (legal w (List.mem_cons_self ..)) roomy s.heap ready rfl
      obtain ⟨_, rfl⟩ := read.unique again
      have next : Ready (rest.flatMap (encode d) ++ t) ((rest.map (nodes d)).sum + n)
          ((rest.flatMap (encode d)).length + k) { u' with heap := u'.heap.modify a (pushValue b) } :=
        ⟨after.input, after.nodes, after.strings⟩
      refine ih (fun x member => legal x (List.mem_cons_of_mem w member))
        (fun x member => spoils x (List.mem_cons_of_mem w member)) ?_ next later
      obtain ⟨pre, x, post, split, tight⟩ := cramped
      cases pre with
      | nil =>
        cases split
        exact absurd roomy tight
      | cons y pre =>
        cases split
        exact ⟨pre, x, post, rfl, tight⟩
    · have spoiled := spoils w (List.mem_cons_self ..) _ roomy ready read
      cases rest with
      | nil =>
        obtain ⟨_, rfl⟩ := yields_pure.mp later
        exact spoiled
      | cons x rest =>
        obtain ⟨_, v, element, _⟩ := yields_bind.mp later
        obtain ⟨b, u', read', _⟩ := yields_bind.mp element
        exact absurd read' (Spoiled.no_read spoiled)

theorem spoils_readStrictArray {values : List (Value0 d)} (legal : ∀ w ∈ values, w.WellFormed d)
    (spoils : ∀ w ∈ values, ∀ t, ¬ Roomy d w t → Spoils policy d w t)
    (cramped : ¬ Roomy (d + 1) (.strictArray values) t)
    (ready : Ready (u32Be (UInt32.ofNat values.length) ++ (values.flatMap (encode d) ++ t))
      ((values.map (nodes d)).sum + n) ((values.flatMap (encode d)).length + k) s)
    (run : Yields (readStrictArray (readAt policy d) a) s () s') : Spoiled t s'.input := by
  obtain ⟨size, u, sized, filling⟩ := yields_bind.mp run
  obtain ⟨rfl, same⟩ := yields_available sized
  rw [same] at filling
  have count := Amf3.length_le_flatMap (encode_pos d) values
  have strings := ready.strings
  have whole : s.input.length = 4 + (values.flatMap (encode d) ++ t).length := by
    rw [ready.input, List.length_append, length_u32Be]
  rcases yields_ite.mp filling with ⟨few, passed⟩ | ⟨enough, read⟩
  · obtain ⟨_, rfl⟩ := yields_pure.mp passed
    have parts : (values.flatMap (encode d) ++ t).length = (values.flatMap (encode d)).length + t.length :=
      List.length_append
    obtain ⟨rest, zero⟩ := zero_u32Be (n := values.length) (by omega)
    refine ⟨⟨rest ++ (values.flatMap (encode d) ++ t), ?_⟩, by omega, by omega⟩
    rw [ready.input, zero, List.cons_append]
  · obtain ⟨cnt, v, counted, elements⟩ := yields_bind.mp read
    obtain ⟨left, got, rfl⟩ := yields_lift.mp counted
    rw [ready.input, tryU32Be_u32Be] at got
    cases got
    rw [length_lt_word (by omega)] at elements
    refine spoils_elements legal spoils ?_ (s := { s with input := values.flatMap (encode d) ++ t })
      ⟨rfl, ready.nodes, ready.strings⟩ elements
    have room : 3 ≤ (values.flatMap (encode d) ++ t).length := by omega
    by_contra none
    refine cramped ⟨room, fun pre w post split => ?_⟩
    by_contra tight
    exact none ⟨pre, w, post, split, tight⟩

/-- Where some strict array lacks room, the value is not read back. -/
theorem spoils (d : Nat) (v : Value0 d) (legal : v.WellFormed d) {t : Bytes} (cramped : ¬ Roomy d v t) :
    Spoils policy d v t := by
  induction d generalizing t with
  | zero => nomatch v
  | succ d ih =>
    intro s s' n k b ready run
    cases v with
    | strictArray values =>
      have inner : ∀ w ∈ values, w.WellFormed d := legal.2.1
      rw [encode_strictArray, nodes_strictArray] at ready
      obtain ⟨type, rest, marker, v, input, known, body, rfl⟩ := yields_readAt run
      have nodes := ready.nodes
      have strings := ready.strings
      rw [ready.input, List.cons_append, List.append_assoc] at input
      cases input
      cases known
      obtain ⟨rfl, u, filling, rfl⟩ := yields_populate.mp body
      simp only [List.length_cons, List.length_append] at strings
      show Spoiled t u.input
      refine spoils_readStrictArray inner (fun w member t tight => ih w (inner w member) tight) cramped
        (n := n) (k := k) ⟨rfl, ?_, ?_⟩ filling
      · show s.budget.nodes + 1 + _ ≤ _
        omega
      · show s.budget.stringBytes + _ ≤ _
        omega
    | _ => exact absurd trivial cramped

end

/-- `write` succeeds on every tree of the language within the limits. From what was written
and what follows, `read` returns the tree and leaves the rest exactly if no strict array lacks
the room that is asked for. -/
theorem amf0_round_trip (v : Value0 eMaxDepth) (legal : v.WellFormed eMaxDepth)
    (few : nodes eMaxDepth v ≤ ReadBudget.eMaxNodes) (short : (encode eMaxDepth v).length < WriteBudget.eMaxBytes) :
    (∀ e : Encoder, e.scopes = 0 → ∃ e', Yields (write v) e () e' ∧ e'.buffer = e.buffer ++ encode eMaxDepth v) ∧
    ∀ (s : Decoder) (t : Bytes), s.inScope = false → s.input = encode eMaxDepth v ++ t →
      ((∃ a s', Yields read s a s' ∧ s'.input = t ∧ Shows0 s'.heap s.heap.length eMaxDepth a v) ↔
        Roomy eMaxDepth v t) := by
  refine ⟨fun e unscoped => write_spec (Nat.le_refl _) v unscoped (few.trans (by decide)) short,
    fun s t unscoped input => ?_⟩
  have budget : (if s.inScope then s.budget else {}) = ({} : ReadBudget) := by
    rw [unscoped]
    rfl
  have ready : Ready (encode eMaxDepth v ++ t) (nodes eMaxDepth v + 0) ((encode eMaxDepth v).length + 0)
      { s with refs := [], stringRefs := [], traitsRefs := [], budget := if s.inScope then s.budget else {} } := by
    rw [budget]
    exact ⟨input, (Nat.zero_add _).trans_le few, (Nat.zero_add _).trans_le (short.le.trans (by decide))⟩
  constructor
  · rintro ⟨a, s', run, left, _⟩
    obtain ⟨_, u, reset, run⟩ := yields_bind.mp run
    rw [yields_modify.mp reset] at run
    by_contra cramped
    have spoiled := spoils eMaxDepth v legal cramped ready run
    exact absurd (left ▸ spoiled.extra) (Nat.lt_irrefl _)
  · intro roomy
    obtain ⟨a, s', run, after, _, shows⟩ := readsBack anyRef eMaxDepth v legal roomy s.heap ready rfl
    exact ⟨a, s', yields_bind.mpr ⟨(), _, yields_modify.mpr rfl, run⟩, after.input, shows⟩

def sample : Value0 eMaxDepth :=
  .object
    { entries := [([97], .scalar (.string [104, 105])), ([98], .strictArray [.scalar .null])]
      distinct := by decide }

theorem amf0_round_trip_sample :
    (∃ e', Yields (write sample) {} () e' ∧ e'.buffer = encode eMaxDepth sample) ∧
    ∃ a s', Yields read { input := encode eMaxDepth sample } a s' ∧ s'.input = [] ∧
      Shows0 s'.heap 0 eMaxDepth a sample := by
  have scalar {d : Nat} {value : Scalar0} (fits : Node0.Short (.scalar value : Node0 (Value0 d) (Value3 d))) :
      Value0.WellFormed (d + 1) (.scalar value) :=
    ⟨fits, fun _ member => absurd member List.not_mem_nil, fun _ member => absurd member List.not_mem_nil⟩
  have legal : sample.WellFormed eMaxDepth := by
    refine ⟨fun entry member => ?_, fun w member => ?_, fun _ member => absurd member List.not_mem_nil⟩
    · rcases List.mem_cons.mp member with rfl | member
      · decide
      · rw [List.mem_singleton.mp member]
        decide
    · rcases List.mem_cons.mp member with rfl | member
      · exact scalar (show ([104, 105] : Bytes).length ≤ eMaxShortString by decide)
      · rw [List.mem_singleton.mp member]
        refine ⟨trivial, fun w member => ?_, fun _ member => absurd member List.not_mem_nil⟩
        rw [List.mem_singleton.mp member]
        exact scalar trivial
  obtain ⟨written, back⟩ := amf0_round_trip sample legal (by decide) (by decide)
  exact ⟨written {} rfl, (back { input := encode eMaxDepth sample } [] rfl (List.append_nil _).symm).mpr trivial⟩

/-- A strict array with one element, at the end of the input. -/
def lastArray : Value0 eMaxDepth := .strictArray [.scalar .null]

/-- It is read as an empty one, and its count and its element stay unread. -/
theorem amf0_round_trip_loses_element :
    lastArray.WellFormed eMaxDepth ∧ encode eMaxDepth lastArray = [10, 0, 0, 0, 1, 5] ∧
    Yields read { input := encode eMaxDepth lastArray } 0
      { input := [0, 0, 0, 1, 5], heap := [.amf0 (.strictArray [])], refs := [(0, true)],
        budget := { nodes := 1 } } := by
  refine ⟨⟨trivial, fun w member => ?_, fun _ member => absurd member List.not_mem_nil⟩, rfl, rfl⟩
  rw [List.mem_singleton.mp member]
  exact ⟨trivial, fun _ inner => absurd inner List.not_mem_nil, fun _ inner => absurd inner List.not_mem_nil⟩

end

end Amf0

end Fms.Amf
