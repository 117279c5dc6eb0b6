import Fms.Amf.Accepts
import Fms.Amf.Acyclic

namespace Fms.Amf
open ByteWire Fallible Heap

section
variable {α β : Type} {R S : α → β → Prop}

theorem Entries.mono (weaker : ∀ {a b}, R a b → S a b) {l : List (Bytes × α)} {l' : List (Bytes × β)}
    (entries : Entries R l l') : Entries S l l' :=
  entries.imp fun _ _ same => ⟨same.1, weaker same.2⟩

theorem Entries.keys {l : List (Bytes × α)} {l' : List (Bytes × β)} (entries : Entries R l l') :
    l.map Prod.fst = l'.map Prod.fst := by
  induction entries with
  | nil => rfl
  | cons same _ ih => rw [List.map_cons, List.map_cons, same.1, ih]

theorem Node3.Rel.mono (weaker : ∀ {a b}, R a b → S a b) {node : Node3 α} {node' : Node3 β}
    (rel : Node3.Rel R node node') :
    Node3.Rel S node node' := by
  cases rel with
  | scalar value => exact .scalar value
  | array assoc dense => exact .array (assoc.mono weaker) (dense.imp fun _ _ => weaker)
  | object members => exact .object (members.mono weaker)
  | vectorObject values => exact .vectorObject (values.imp fun _ _ => weaker)
  | dictionary entries => exact .dictionary (entries.imp fun _ _ both => ⟨weaker both.1, weaker both.2⟩)

end

section
variable {heap heap' : List Cell} {lo lo' d a : Nat}

theorem Shows3.above {v : Value3 d} (shows : Shows3 heap lo d a v) (lower : lo' ≤ lo) : Shows3 heap lo' d a v := by
  induction d generalizing a with
  | zero => nomatch v
  | succ d ih =>
    obtain ⟨above, node, here, rel⟩ := shows
    exact ⟨lower.trans above, node, here, rel.mono ih⟩

/-- A tree does not change with the cells below it, nor with those to come. -/
theorem Shows3.stable {v : Value3 d} {skip : Set Nat} (shows : Shows3 heap lo d a v) (beyond : Beyond skip heap heap')
    (below : ∀ i ∈ skip, i < lo) : Shows3 heap' lo d a v := by
  induction d generalizing a with
  | zero => nomatch v
  | succ d ih =>
    obtain ⟨above, node, here, rel⟩ := shows
    have inside := (List.getElem?_eq_some_iff.mp here).1
    refine ⟨above, node, (beyond.2 a inside fun member => ?_).trans here, rel.mono ih⟩
    exact Nat.not_lt.mpr above (below a member)

end

/-- The trees of the AMF3 language: member names are not empty, and integers fit 29 bits. -/
def Value3.WellFormed : (d : Nat) → Value3 d → Prop
  | 0, v => nomatch v
  | d + 1, v => Node3.Clean v ∧ ∀ w ∈ Node3.links v, WellFormed d w

namespace Amf3

section
variable {α : Type} (enc : α → Bytes) (cost : α → Nat)

theorem flatten_writeMembers (members : List (Bytes × α)) : Part.flatten enc (writeMembers members) =
    members.flatMap (fun member => writeString member.1 ++ enc member.2) ++ writeString [] := by
  simp [writeMembers, Part.flatten]

theorem total_writeMembers (members : List (Bytes × α)) : Part.total cost (writeMembers members) =
    (members.map fun member => cost member.2).sum := by
  simp [writeMembers, Part.total]

end

section
variable {d : Nat}

theorem encode_array (assoc : StringMap (Value3 d)) (dense : List (Value3 d)) : encode (d + 1) (.array assoc dense) =
    Marker.array.toByte ::
      (writeHeader dense.length ++ (Part.flatten (encode d) (writeMembers assoc.elems) ++ dense.flatMap
        (encode d))) := by
  simp [encode, writeNode, writeArray, Part.flatten]

theorem encode_object (members : StringMap (Value3 d)) : encode (d + 1) (.object members) = Marker.object.toByte ::
    (writeHeader 5 ++ (writeString [] ++ Part.flatten (encode d) (writeMembers members.elems))) := rfl

theorem encode_vectorObject (fixed : Bool) (typeName : Bytes) (values : List (Value3 d)) :
    encode (d + 1) (.vectorObject fixed typeName values) = Marker.vectorObject.toByte ::
      (writeHeader values.length ++ (writeBool fixed ++ (writeString typeName ++ values.flatMap (encode d)))) := by
  simp [encode, writeNode, writeVectorObject, Part.flatten]

theorem encode_dictionary (weakKeys : Bool) (entries : List (Value3 d × Value3 d)) :
    encode (d + 1) (.dictionary weakKeys entries) = Marker.dictionary.toByte ::
      (writeHeader entries.length ++ (writeBool weakKeys ++
        entries.flatMap fun entry => encode d entry.1 ++ encode d entry.2)) := by
  simp [encode, writeNode, writeDictionary, Part.flatten]

end

theorem encode_pos : (d : Nat) → (v : Value3 d) → 0 < (encode d v).length
  | 0, v => nomatch v
  | _ + 1, .scalar value => by cases value <;> exact Nat.succ_pos _
  | _ + 1, .array _ _ => Nat.succ_pos _
  | _ + 1, .object _ => Nat.succ_pos _
  | _ + 1, .vectorObject _ _ _ => Nat.succ_pos _
  | _ + 1, .dictionary _ _ => Nat.succ_pos _

theorem length_le_flatMap {ξ : Type} {enc : ξ → Bytes} {k : Nat} (each : ∀ x, k ≤ (enc x).length) (items : List ξ) :
    k * items.length ≤ (items.flatMap enc).length := by
  induction items with
  | nil => exact Nat.le_refl _
  | cons x items ih =>
    have head := each x
    rw [List.flatMap_cons, List.length_cons, List.length_append, Nat.mul_succ]
    omega

section
variable {P : List Cell → Prop} {Q : Nat → List Cell → Prop} {bytes t : Bytes} {policy : RefPolicy}
    {levels cost : Nat}

theorem accepts_charged (value : Bytes) : Accepts P (do
    chargeStringBytes value.length
    lift (takeBytes value.length)) value 0 t fun x h => x = value ∧ P h := by
  intro s nodes strings ready before
  have room := ready.strings
  let u : Decoder := { s with budget := { s.budget with stringBytes := s.budget.stringBytes + value.length } }
  have charged : Yields (chargeStringBytes value.length) s () u := by
    have bound : s.budget.stringBytes + value.length ≤ ReadBudget.eMaxStringBytes := by omega
    have fits : ¬ value.length > s.budget.room := by
      rw [ReadBudget.room_eq (by omega)]
      omega
    show chargeStringBytes value.length s = (.ok (), u)
    rw [chargeStringBytes_eq, if_neg fits, ReadBudget.charge_eq bound]
  have taken : Yields (lift (takeBytes value.length)) u value { u with input := t } :=
    yields_lift.mpr ⟨t, by rw [show u.input = value ++ t from ready.input]; exact takeBytes_append rfl t, rfl⟩
  refine ⟨value, _, yields_bind.mpr ⟨(), u, charged, taken⟩, ⟨rfl, (Nat.zero_add nodes) ▸ ready.nodes, ?_⟩,
    rfl, before⟩
  show s.budget.stringBytes + value.length + strings ≤ _
  omega

theorem accepts_readString {value : Bytes} (short : value.length < 2 ^ 28) :
    Accepts P readString (writeString value) 0 t fun x h => x = value ∧ P h := by
  obtain ⟨header, got, full, len⟩ := readU29_writeHeader short (value ++ t)
  have step : Accepts P (if header &&& 0x01 = 0 then stringRef (header >>> 1).toNat
      else do
        let len := (header >>> 1).toNat
        if (← available) < len then throw .bufferEof
        else
          chargeStringBytes len
          let value ← lift (takeBytes len)
          keepString value
          return value) value 0 t fun x h => x = value ∧ P h := by
    rw [if_neg full, len]
    refine Accepts.still accepts_available ?_
    rw [if_neg (by simp), ← bind_assoc]
    refine Accepts.ends (accepts_charged value)
      (Accepts.still (accepts_modify fun s => ?_) (accepts_pure fun h holds => ?_))
    · split <;> exact ⟨rfl, rfl, rfl⟩
    · exact ⟨rfl, holds⟩
  exact (accepts_lift got).free step

theorem accepts_referenceOr {body : Nat → Decode Nat} {len : Nat} (small : len < 2 ^ 28)
    (accepts : Accepts P (body len) bytes cost t Q) :
    Accepts P (referenceOr policy levels body) (writeHeader len ++ bytes) cost t Q := by
  obtain ⟨header, got, full, number⟩ := readU29_writeHeader small (bytes ++ t)
  have step : Accepts P (if header &&& 0x01 = 0 then resolve policy .amf3Read levels (header >>> 1).toNat
      else body (header >>> 1).toNat) bytes cost t Q := by
    rwa [if_neg full, number]
  exact (accepts_lift got).free step

theorem accepts_store (heap : List Cell) (value : Scalar3) :
    Accepts (· = heap) (store value) [] 0 t fun a h => a = heap.length ∧ h = heap ++ [.amf3 (.scalar value)] := by
  refine Accepts.still (accepts_alloc heap _) ?_
  exact (accepts_register heap.length true).last fun _ => accepts_pure fun h same => ⟨rfl, same⟩

theorem accepts_readBlock (heap : List Cell) (make : Bytes → Scalar3) (block : Bytes)
    (short : block.length < 2 ^ 28) :
    Accepts (· = heap) (readBlock policy levels make) (writeString block) 0 t fun a h =>
      a = heap.length ∧ h = heap ++ [.amf3 (.scalar (make block))] := by
  exact accepts_referenceOr short (Accepts.ends (accepts_lift (takeBytes_append rfl t))
    (accepts_store heap (make block)))

theorem readDouble_writeDouble (bits : UInt64) (rest : Bytes) :
    readDouble (writeDouble bits ++ rest) = some (bits, rest) := by
  have bound : bits.toNat % 256 ^ 8 = bits.toNat := Nat.mod_eq_of_lt bits.toNat_lt
  simp only [readDouble, writeDouble, takeBytes_append (length_beBytes 8 _), Option.map_some, beNat_beBytes, bound,
    UInt64.ofNat_toNat]

theorem ofNat_word32 (v : UInt32) : UInt32.ofNat (v.toNat % 256 ^ 4) = v := by
  rw [show v.toNat % 256 ^ 4 = v.toNat from Nat.mod_eq_of_lt v.toNat_lt, UInt32.ofNat_toNat]

theorem ofNat_word64 (v : UInt64) : UInt64.ofNat (v.toNat % 256 ^ 8) = v := by
  rw [show v.toNat % 256 ^ 8 = v.toNat from Nat.mod_eq_of_lt v.toNat_lt, UInt64.ofNat_toNat]

theorem accepts_readDate (heap : List Cell) (bits : UInt64) :
    Accepts (· = heap) (readDate policy levels) (writeInteger 0x01 ++ writeDouble bits) 0 t fun a h =>
      a = heap.length ∧ h = heap ++ [.amf3 (.scalar (.date bits))] := by
  have full : 0 < 2 ^ 28 := by decide
  exact accepts_referenceOr full
    (Accepts.ends (accepts_lift (readDouble_writeDouble bits t)) (accepts_store heap (.date bits)))

section
variable {γ : Type} {width : Nat} {value : Nat → γ} {word : γ → Nat}

theorem readNumbersFrom_writeNumbers (back : ∀ v, value (word v % 256 ^ width) = v) (values : List γ) (rest : Bytes) :
    readNumbersFrom width value values.length (writeNumbers width word values ++ rest) = some (values, rest) := by
  induction values with
  | nil => rfl
  | cons v values ih =>
    have head : takeBytes width (writeNumbers width word (v :: values) ++ rest) =
        some (beBytes width (word v), writeNumbers width word values ++ rest) := by
      rw [writeNumbers, List.flatMap_cons, List.append_assoc]
      exact takeBytes_append (length_beBytes _ _) _
    rw [List.length_cons, readNumbersFrom, head]
    simp only [Option.bind_eq_bind, Option.bind_some, ih, beNat_beBytes, back]
    rfl

theorem length_writeNumbers (values : List γ) : (writeNumbers width word values).length = values.length * width := by
  simp [writeNumbers, List.length_flatMap]

theorem readNumbers_writeNumbers (wide : 0 < width) (back : ∀ v, value (word v % 256 ^ width) = v) (values : List γ)
    (rest : Bytes) :
    readNumbers width value values.length (writeNumbers width word values ++ rest) = some (values, rest) := by
  have enough : values.length ≤ (writeNumbers width word values ++ rest).length / width := by
    rw [Nat.le_div_iff_mul_le wide, List.length_append, length_writeNumbers]
    exact Nat.le_add_right _ _
  rw [readNumbers, if_neg (Nat.not_lt.mpr enough)]
  exact readNumbersFrom_writeNumbers back values rest

theorem accepts_readNumericVector (heap : List Cell) (make : Bool → List γ → Scalar3) (wide : 0 < width)
    (back : ∀ v, value (word v % 256 ^ width) = v) (fixed : Bool) (values : List γ) (short : values.length < 2 ^ 28) :
    Accepts (· = heap) (readNumericVector policy levels width value make)
      (writeNumericVector width word fixed values) 0 t
      fun a h => a = heap.length ∧ h = heap ++ [.amf3 (.scalar (make fixed values))] := by
  have flag : decide ((if fixed then (1 : UInt8) else 0) ≠ 0) = fixed := by cases fixed <;> rfl
  rw [writeNumericVector, List.append_assoc]
  refine accepts_referenceOr short (Accepts.free (a := if fixed then 1 else 0) (accepts_lift rfl) ?_)
  refine Accepts.ends (accepts_lift (readNumbers_writeNumbers wide back values t)) ?_
  rw [flag]
  exact accepts_store heap (make fixed values)

end
end

/-- Values of that depth are read back, whatever follows. -/
def ReadsBack (policy : RefPolicy) (d : Nat) (v : Value3 d) : Prop :=
  ∀ heap t, Accepts (· = heap) (readAt policy d) (encode d v) (nodes d v) t fun a h =>
    Beyond ∅ heap h ∧ Shows3 h heap.length d a v

/-- The container made of its members so far. -/
def HasMembers (d a : Nat) (make : StringMap Nat → Cell) (done : List (Bytes × Value3 d)) (h : List Cell)
    (c : Cell) : Prop :=
  ∃ m, c = make m ∧ Entries (Shows3 h (a + 1) d) m.elems done

/-- The container made of something else and of its values so far. -/
def HasValues {χ : Type} (d a : Nat) (make : χ → List Nat → Cell) (K : List Cell → χ → Prop) (done : List (Value3 d))
    (h : List Cell) (c : Cell) : Prop :=
  ∃ x values, c = make x values ∧ K h x ∧ List.Forall₂ (Shows3 h (a + 1) d) values done

def HasEntries (d a : Nat) (weakKeys : Bool) (done : List (Value3 d × Value3 d)) (h : List Cell) (c : Cell) : Prop :=
  ∃ entries, c = .amf3 (.dictionary weakKeys entries) ∧
    List.Forall₂ (fun p q => Shows3 h (a + 1) d p.1 q.1 ∧ Shows3 h (a + 1) d p.2 q.2) entries done

section
variable {policy : RefPolicy} {heap : List Cell} {cell : Cell} {d a : Nat} {t : Bytes}

theorem shows_stable {h h' : List Cell} {b : Nat} {v : Value3 d} (beyond : Beyond {a} h h')
    (shows : Shows3 h (a + 1) d b v) :
    Shows3 h' (a + 1) d b v :=
  shows.stable beyond fun _ member => (Set.mem_singleton_iff.mp member) ▸ Nat.lt_succ_self a

theorem HasMembers.stable (make : StringMap Nat → Cell) (done : List (Bytes × Value3 d)) :
    Stable a (HasMembers d a make done) :=
  fun _ _ _ beyond ⟨m, made, entries⟩ => ⟨m, made, entries.mono (shows_stable beyond)⟩

theorem HasEntries.stable (weakKeys : Bool) (done : List (Value3 d × Value3 d)) :
    Stable a (HasEntries d a weakKeys done) :=
  fun _ _ _ beyond ⟨entries, made, all⟩ =>
    ⟨entries, made, all.imp fun _ _ both => ⟨shows_stable beyond both.1, shows_stable beyond both.2⟩⟩

theorem HasValues.stable {χ : Type} (make : χ → List Nat → Cell) {K : List Cell → χ → Prop}
    (keeps : ∀ ⦃h h' x⦄, Beyond {a} h h' → K h x → K h' x) (done : List (Value3 d)) :
    Stable a (HasValues d a make K done) :=
  fun _ _ _ beyond ⟨x, values, made, also, all⟩ =>
    ⟨x, values, made, keeps beyond also, all.imp fun _ _ => shows_stable beyond⟩

/-- What is read for a container lies above it. -/
theorem ReadsBack.inside {v : Value3 d} (back : ReadsBack policy d v) (h : List Cell) (inside : a < h.length) :
    Accepts (· = h) (readAt policy d) (encode d v) (nodes d v) t fun b h' =>
      Beyond ∅ h h' ∧ Shows3 h' (a + 1) d b v :=
  (back h t).weaken fun _ _ both => ⟨both.1, both.2.above inside⟩

/-- A member whose name comes after all others goes to the end of the map. -/
theorem HasMembers.assign {make : StringMap Nat → Cell} {done : List (Bytes × Value3 d)} {key : Bytes} {w : Value3 d}
    (commutes : ∀ m key b, assignMember key b (make m) = make (m.assign (key, b)))
    (higher : ∀ entry ∈ done, byteOrder entry < byteOrder (key, w)) {h : List Cell} {c : Cell} {b : Nat}
    (holds : HasMembers d a make done h c) (shows : Shows3 h (a + 1) d b w) :
    HasMembers d a make (done ++ [(key, w)]) h (assignMember key b c) := by
  obtain ⟨m, rfl, entries⟩ := holds
  refine ⟨m.assign (key, b), commutes m key b, ?_⟩
  have below : ∀ entry ∈ m.elems, byteOrder entry < byteOrder (key, b) := by
    intro entry member
    have name : entry.1 ∈ done.map Prod.fst := entries.keys ▸ List.mem_map_of_mem member
    obtain ⟨other, there, same⟩ := List.mem_map.mp name
    have less := higher other there
    rwa [byteOrder, same] at less
  have placed : (m.assign (key, b)).elems = m.elems ++ [(key, b)] := SortedBy.place_last below
  rw [placed]
  exact List.rel_append entries (.cons ⟨rfl, shows⟩ .nil)

theorem accepts_readMember {key : Bytes} {w : Value3 d} (named : key ≠ []) (short : key.length < 2 ^ 28)
    (back : ReadsBack policy d w) {J J' : List Cell → Cell → Prop} (stable : Stable heap.length J)
    (stable' : Stable heap.length J')
    (step : ∀ h c b, J h c → Shows3 h (heap.length + 1) d b w → J' h (assignMember key b c)) :
    Accepts (Filling heap cell J) (readMember (readAt policy d) heap.length) (writeString key ++ encode d w)
      (nodes d w) t
      fun more h => more = true ∧ Filling heap cell J' h := by
  refine Accepts.free (accepts_readString short) ?_
  rw [if_neg named, ← bind_assoc]
  exact Accepts.last (accepts_put back.inside stable stable' step) fun _ => accepts_pure fun h holds => ⟨rfl, holds⟩

theorem accepts_readMembers {make : StringMap Nat → Cell}
    (commutes : ∀ m key b, assignMember key b (make m) = make (m.assign (key, b))) (members : StringMap (Value3 d))
    (named : ∀ entry ∈ members, entry.1 ≠ []) (back : ∀ entry ∈ members, ReadsBack policy d entry.2) :
    Accepts (Filling heap cell (HasMembers d heap.length make [])) (readMembers (readAt policy d) heap.length)
      (Part.flatten (encode d) (writeMembers members.elems)) (Part.total (nodes d) (writeMembers members.elems)) t
      fun _ => Filling heap cell (HasMembers d heap.length make members.elems) := by
  rw [flatten_writeMembers, total_writeMembers]
  refine Accepts.of_small fun small => Accepts.still accepts_available ?_
  have first (entry : Bytes × Value3 d) : 0 < (writeString entry.1 ++ encode d entry.2).length := by
    have := encode_pos d entry.2
    simp only [List.length_append]
    omega
  have count := length_le_flatMap first members.elems
  simp only [List.length_append] at small
  refine accepts_loop (P := fun done => Filling heap cell (HasMembers d heap.length make done)) members.elems
    (fun done entry rest split => ?_) ?_ ?_
  · have member : entry ∈ members := by
      show entry ∈ members.elems
      rw [split]
      exact List.mem_append_right _ (List.mem_cons_self ..)
    have sorted := members.sorted
    rw [split, List.pairwise_append] at sorted
    have short : entry.1.length < 2 ^ 28 := by
      rw [split, List.flatMap_append, List.flatMap_cons] at small
      simp only [List.length_append, writeString, ReadBudget.eMaxStringBytes] at small
      omega
    refine accepts_readMember (named entry member) short (back entry member) (HasMembers.stable make done)
      (HasMembers.stable make _) fun h c b holds shows => ?_
    exact holds.assign commutes (fun other there => sorted.2.2 other there entry (List.mem_cons_self ..)) shows
  · refine Accepts.ends (accepts_readString (by decide)) ?_
    exact accepts_pure fun h holds => ⟨rfl, holds⟩
  · simp only [List.length_append]
    omega

theorem accepts_readElements {χ : Type} {make : χ → List Nat → Cell} {K : List Cell → χ → Prop}
    (keeps : ∀ ⦃h h' x⦄, Beyond {heap.length} h h' → K h x → K h' x)
    (commutes : ∀ x values b, pushValue b (make x values) = make x (values ++ [b])) (values : List (Value3 d))
    (back : ∀ v ∈ values, ReadsBack policy d v) :
    Accepts (Filling heap cell (HasValues d heap.length make K []))
      (times values.length (readElement (readAt policy d) heap.length))
      (values.flatMap (encode d)) (values.map (nodes d)).sum t
      fun _ => Filling heap cell (HasValues d heap.length make K values) := by
  refine accepts_times (P := fun done => Filling heap cell (HasValues d heap.length make K done)) values
    fun done v rest split => ?_
  have member : v ∈ values := split ▸ List.mem_append_right _ (List.mem_cons_self ..)
  refine accepts_put (back v member).inside (HasValues.stable make keeps done) (HasValues.stable make keeps _) ?_
  rintro h c b ⟨x, before, rfl, also, all⟩ shows
  exact ⟨x, before ++ [b], commutes x before b, also, List.rel_append all (.cons shows .nil)⟩

theorem accepts_readEntries {weakKeys : Bool} (entries : List (Value3 d × Value3 d))
    (back : ∀ entry ∈ entries, ReadsBack policy d entry.1 ∧ ReadsBack policy d entry.2) :
    Accepts (Filling heap cell (HasEntries d heap.length weakKeys []))
      (times entries.length (readEntry (readAt policy d) heap.length))
      (entries.flatMap fun entry => encode d entry.1 ++ encode d entry.2)
      (entries.map fun entry => nodes d entry.1 + nodes d entry.2).sum t
      fun _ => Filling heap cell (HasEntries d heap.length weakKeys entries) := by
  refine accepts_times (P := fun done => Filling heap cell (HasEntries d heap.length weakKeys done)) entries
    fun done entry rest split => ?_
  have member : entry ∈ entries := split ▸ List.mem_append_right _ (List.mem_cons_self ..)
  obtain ⟨key, value⟩ := back entry member
  refine (accepts_aside key.inside (HasEntries.stable weakKeys done)).bind fun k => ?_
  refine accepts_put value.inside (fun h h' c beyond both => ?_) (HasEntries.stable weakKeys _) ?_
  · exact ⟨HasEntries.stable weakKeys done beyond both.1, shows_stable beyond both.2⟩
  · rintro h c b ⟨⟨before, rfl, all⟩, shownKey⟩ shown
    exact ⟨before ++ [(k, b)], rfl, List.rel_append all (.cons ⟨shownKey, shown⟩ .nil)⟩

theorem ofByte_toByte (marker : Marker) : Marker.ofByte marker.toByte = some marker := by
  cases marker <;> rfl

theorem accepts_marker {P : List Cell → Prop} {Q : Nat → List Cell → Prop} {bytes : Bytes} {cost : Nat}
    (marker : Marker) (accepts : Accepts P (readBody policy (d + 1) (readAt policy d) marker) bytes cost t Q) :
    Accepts P (readAt policy (d + 1)) (marker.toByte :: bytes) (1 + cost) t Q := by
  refine (Accepts.known (accepts_chargeNode _) ?_).level
  show Accepts P _ ([marker.toByte] ++ bytes) cost t Q
  refine Accepts.free (a := marker.toByte) (accepts_lift rfl) ?_
  rw [ofByte_toByte]
  exact accepts

theorem accepts_scalar (value : Scalar3) (clean : Node3.Clean (.scalar value : Node3 (Value3 d))) :
    Accepts (· = heap) (readAt policy (d + 1)) (writeScalar value) 1 t fun a h =>
      a = heap.length ∧ h = heap ++ [.amf3 (.scalar value)] := by
  refine Accepts.of_small fun small => ?_
  have block {bytes : Bytes} (inside : (writeString bytes).length ≤ ReadBudget.eMaxStringBytes) :
      bytes.length < 2 ^ 28 := by
    simp only [writeString, List.length_append, ReadBudget.eMaxStringBytes] at inside
    omega
  have vector {γ : Type} {width : Nat} {word : γ → Nat} {fixed : Bool} {values : List γ} (wide : 0 < width)
      (inside : (writeNumericVector width word fixed values).length ≤ ReadBudget.eMaxStringBytes) :
      values.length < 2 ^ 28 := by
    have each := Nat.le_mul_of_pos_right values.length wide
    simp only [writeNumericVector, List.length_append, length_writeNumbers, ReadBudget.eMaxStringBytes] at inside
    omega
  cases value with
  | undefined => exact accepts_marker .undefined (accepts_alloc heap _)
  | null => exact accepts_marker .null (accepts_alloc heap _)
  | boolean value =>
    cases value with
    | false => exact accepts_marker .isFalse (accepts_alloc heap _)
    | true => exact accepts_marker .isTrue (accepts_alloc heap _)
  | integer value =>
    exact accepts_marker .integer
      (Accepts.ends (accepts_lift (readInteger_writeInteger clean t)) (accepts_alloc heap _))
  | double bits =>
    exact accepts_marker .double (Accepts.ends (accepts_lift (readDouble_writeDouble bits t)) (accepts_alloc heap _))
  | string value =>
    exact accepts_marker .string
      (Accepts.ends (accepts_readString (block (Nat.le_of_succ_le small))) (accepts_alloc heap _))
  | xmlDoc value => exact accepts_marker .xmlDoc (accepts_readBlock heap _ value (block (Nat.le_of_succ_le small)))
  | xml value => exact accepts_marker .xml (accepts_readBlock heap _ value (block (Nat.le_of_succ_le small)))
  | date bits => exact accepts_marker .date (accepts_readDate heap bits)
  | byteArray bytes =>
    exact accepts_marker .byteArray (accepts_readBlock heap _ bytes (block (Nat.le_of_succ_le small)))
  | vectorInt fixed values =>
    exact accepts_marker .vectorInt (accepts_readNumericVector heap _ (by decide) ofNat_word32 fixed values
      (vector (by decide) (Nat.le_of_succ_le small)))
  | vectorUint fixed values =>
    exact accepts_marker .vectorUint (accepts_readNumericVector heap _ (by decide) ofNat_word32 fixed values
      (vector (by decide) (Nat.le_of_succ_le small)))
  | vectorDouble fixed values =>
    exact accepts_marker .vectorDouble (accepts_readNumericVector heap _ (by decide) ofNat_word64 fixed values
      (vector (by decide) (Nat.le_of_succ_le small)))

theorem accepts_container {fill : Nat → Decode Unit} {J : List Cell → Cell → Prop} {v : Value3 (d + 1)}
    {bytes : Bytes}
    {cost : Nat} (fills : Accepts (· = heap ++ [cell]) (fill heap.length) bytes cost t fun _ => Filling heap cell J)
    (shown : ∀ h c, J h c → ∃ node, c = .amf3 node ∧ Node3.Rel (Shows3 h (heap.length + 1) d) node v) :
    Accepts (· = heap) (populate cell fill) bytes cost t fun a h =>
      Beyond ∅ heap h ∧ Shows3 h heap.length (d + 1) a v := by
  refine (Accepts.populate fills).weaken fun a h filled => ?_
  obtain ⟨rfl, beyond, c, here, holds⟩ := filled
  obtain ⟨node, rfl, rel⟩ := shown h c holds
  exact ⟨beyond, Nat.le_refl _, node, here, rel.mono fun shows => shows.above (Nat.le_succ _)⟩

theorem readsBack_array {assoc : StringMap (Value3 d)} {dense : List (Value3 d)}
    (named : ∀ entry ∈ assoc, entry.1 ≠ []) (back : ∀ w ∈ (Node3.array assoc dense).links, ReadsBack policy d w) :
    ReadsBack policy (d + 1) (.array assoc dense) := by
  intro heap t
  have cost : nodes (d + 1) (.array assoc dense) =
      1 + (Part.total (nodes d) (writeMembers assoc.elems) + (dense.map (nodes d)).sum) := by
    simp [nodes, writeNode, writeArray, Part.total]
  rw [encode_array, cost]
  refine Accepts.of_small fun small => ?_
  have count := length_le_flatMap (encode_pos d) dense
  simp only [List.length_cons, List.length_append, ReadBudget.eMaxStringBytes] at small
  have start := filling_start heap (.amf3 (.array {} []))
    (J := HasMembers d heap.length (fun m => .amf3 (.array m [])) []) ⟨{}, rfl, .nil⟩
  have fits : dense.length < 2 ^ 28 := by omega
  refine accepts_marker .array (?_ : Accepts _ (readArray policy (d + 1) (readAt policy d)) _ _ _ _)
  refine accepts_referenceOr fits (accepts_container (J := HasValues d heap.length
    (fun m values => .amf3 (.array m values))
    (fun h m => Entries (Shows3 h (heap.length + 1) d) m.elems assoc.elems) dense)
    ?_ ?_)
  · refine Accepts.bind ((accepts_readMembers (fun _ _ _ => rfl) assoc named fun entry member => ?_).strengthen start)
      fun _ => Accepts.strengthen (accepts_readElements (fun h h' m beyond entries => ?_) (fun _ _ _ => rfl) dense
        fun w member => ?_) fun h filling => ?_
    · exact back entry.2 (List.mem_append_left _ (List.mem_map_of_mem member))
    · exact entries.mono (shows_stable beyond)
    · exact back w (List.mem_append_right _ member)
    · obtain ⟨beyond, c, here, m, rfl, entries⟩ := filling
      exact ⟨beyond, _, here, m, [], rfl, entries, .nil⟩
  · rintro h c ⟨m, values, rfl, entries, all⟩
    exact ⟨_, rfl, .array entries all⟩

theorem readsBack_object {members : StringMap (Value3 d)} (named : ∀ entry ∈ members, entry.1 ≠ [])
    (back : ∀ w ∈ (Node3.object members).links, ReadsBack policy d w) :
    ReadsBack policy (d + 1) (.object members) := by
  intro heap t
  have cost : nodes (d + 1) (.object members) = 1 + Part.total (nodes d) (writeMembers members.elems) := rfl
  rw [encode_object, cost]
  have traits : Accepts (· = heap) (readTraits 5) (writeString []) 0
      (Part.flatten (encode d) (writeMembers members.elems) ++ t) fun x h =>
        x = { isDynamic := true } ∧ h = heap := by
    refine Accepts.still accepts_available ?_
    rw [if_neg (Nat.not_lt_zero _)]
    refine Accepts.ends (accepts_readString (by decide)) (Accepts.still (accepts_pure fun h same => ⟨rfl, same⟩) ?_)
    exact Accepts.still (accepts_modify fun _ => ⟨rfl, rfl, rfl⟩) (accepts_pure fun h same => ⟨rfl, same⟩)
  have start := filling_start heap (.amf3 (.object {}))
    (J := HasMembers d heap.length (fun m => .amf3 (.object m)) []) ⟨{}, rfl, .nil⟩
  have fits : 5 < 2 ^ 28 := by decide
  refine accepts_marker .object (?_ : Accepts _ (readObject policy (d + 1) (readAt policy d)) _ _ _ _)
  refine accepts_referenceOr fits (traits.free (accepts_container
    (J := HasMembers d heap.length (fun m => .amf3 (.object m)) members.elems) ?_ ?_))
  · refine Accepts.still (accepts_pure fun h same => ⟨rfl, same⟩) ?_
    refine (accepts_readMembers (fun _ _ _ => rfl) members named fun entry member => ?_).strengthen start
    exact back entry.2 (List.mem_map_of_mem member)
  · rintro h c ⟨m, rfl, entries⟩
    exact ⟨_, rfl, .object entries⟩

theorem writeBool_ne (flag : Bool) : decide ((if flag then (1 : UInt8) else 0) ≠ 0) = flag := by
  cases flag <;> rfl

theorem readsBack_vectorObject {fixed : Bool} {typeName : Bytes} {values : List (Value3 d)}
    (back : ∀ w ∈ values, ReadsBack policy d w) : ReadsBack policy (d + 1) (.vectorObject fixed typeName values) := by
  intro heap t
  have cost : nodes (d + 1) (.vectorObject fixed typeName values) = 1 + (values.map (nodes d)).sum := by
    simp [nodes, writeNode, writeVectorObject, Part.total]
  rw [encode_vectorObject, cost]
  refine Accepts.of_small fun small => ?_
  have count := length_le_flatMap (encode_pos d) values
  simp only [List.length_cons, List.length_append, writeString, ReadBudget.eMaxStringBytes] at small
  have fits : values.length < 2 ^ 28 := by omega
  refine accepts_marker .vectorObject (?_ : Accepts _ (readVectorObject policy (d + 1) (readAt policy d)) _ _ _ _)
  refine accepts_referenceOr fits
    (Accepts.free (a := if fixed then 1 else 0) (accepts_lift rfl) ?_)
  rw [writeBool_ne]
  refine Accepts.free (accepts_readString (by omega)) (accepts_container (J := HasValues d heap.length
    (fun (_ : Unit) values => .amf3 (.vectorObject fixed typeName values)) (fun _ _ => True) values) ?_ ?_)
  · refine Accepts.still accepts_available ?_
    rw [if_neg (by simp only [List.length_append]; omega)]
    refine Accepts.strengthen (accepts_readElements (fun _ _ _ _ _ => trivial) (fun _ _ _ => rfl) values back) ?_
    exact filling_start heap _ ⟨(), [], rfl, trivial, .nil⟩
  · rintro h c ⟨_, items, rfl, _, all⟩
    exact ⟨_, rfl, .vectorObject all⟩

theorem readsBack_dictionary {weakKeys : Bool} {entries : List (Value3 d × Value3 d)}
    (back : ∀ w ∈ (Node3.dictionary weakKeys entries).links, ReadsBack policy d w) :
    ReadsBack policy (d + 1) (.dictionary weakKeys entries) := by
  intro heap t
  have cost : nodes (d + 1) (.dictionary weakKeys entries) =
      1 + (entries.map fun entry => nodes d entry.1 + nodes d entry.2).sum := by
    simp [nodes, writeNode, writeDictionary, Part.total]
  rw [encode_dictionary, cost]
  refine Accepts.of_small fun small => ?_
  have two (entry : Value3 d × Value3 d) : 2 ≤ (encode d entry.1 ++ encode d entry.2).length := by
    have key := encode_pos d entry.1
    have value := encode_pos d entry.2
    rw [List.length_append]
    omega
  have count := length_le_flatMap two entries
  simp only [List.length_cons, List.length_append, ReadBudget.eMaxStringBytes] at small
  have fits : entries.length < 2 ^ 28 := by omega
  refine accepts_marker .dictionary (?_ : Accepts _ (readDictionary policy (d + 1) (readAt policy d)) _ _ _ _)
  refine accepts_referenceOr fits
    (Accepts.free (a := if weakKeys then 1 else 0) (accepts_lift rfl) ?_)
  rw [writeBool_ne]
  refine accepts_container (J := HasEntries d heap.length weakKeys entries) (Accepts.still accepts_available ?_) ?_
  · rw [if_neg (by simp only [List.length_append]; omega)]
    refine Accepts.strengthen (accepts_readEntries entries fun entry member => ⟨?_, ?_⟩) ?_
    · exact back entry.1 (List.mem_flatMap.mpr ⟨entry, member, List.mem_cons_self ..⟩)
    · exact back entry.2 (List.mem_flatMap.mpr ⟨entry, member, List.mem_cons_of_mem _ (List.mem_singleton_self _)⟩)
    · exact filling_start heap _ ⟨[], rfl, .nil⟩
  · rintro h c ⟨items, rfl, all⟩
    exact ⟨_, rfl, .dictionary all⟩

theorem readsBack (policy : RefPolicy) (d : Nat) (v : Value3 d) (legal : v.WellFormed d) : ReadsBack policy d v := by
  induction d with
  | zero => nomatch v
  | succ d ih =>
    obtain ⟨clean, inner⟩ := legal
    have back (w : Value3 d) (member : w ∈ Node3.links v) : ReadsBack policy d w := ih w (inner w member)
    cases v with
    | scalar value =>
      intro heap t
      have whole : encode (d + 1) (.scalar value) = writeScalar value := List.append_nil _
      rw [whole]
      refine (accepts_scalar value clean).weaken fun a h stored => ?_
      obtain ⟨rfl, rfl⟩ := stored
      exact ⟨.append _ _ _, Nat.le_refl _, _, List.getElem?_concat_length, .scalar value⟩
    | array assoc dense => exact readsBack_array clean back
    | object members => exact readsBack_object clean back
    | vectorObject fixed typeName values => exact readsBack_vectorObject back
    | dictionary weakKeys entries => exact readsBack_dictionary back

theorem read_spec {v : Value3 eMaxDepth} (legal : v.WellFormed eMaxDepth)
    (few : nodes eMaxDepth v ≤ ReadBudget.eMaxNodes)
    (short : (encode eMaxDepth v).length ≤ ReadBudget.eMaxStringBytes) {s : Decoder}
    (input : s.input = encode eMaxDepth v ++ t) :
    ∃ a s', Yields read s a s' ∧ s'.input = t ∧ Shows3 s'.heap s.heap.length eMaxDepth a v := by
  have ready : Ready (encode eMaxDepth v ++ t) (nodes eMaxDepth v + 0) ((encode eMaxDepth v).length + 0)
      { s with refs := [], stringRefs := [], traitsRefs := [], budget := {} } :=
    ⟨input, (Nat.zero_add _).trans_le few, (Nat.zero_add _).trans_le short⟩
  obtain ⟨a, s', run, after, _, shows⟩ := readsBack anyRef eMaxDepth v legal s.heap t ready rfl
  exact ⟨a, s', yields_bind.mpr ⟨(), _, yields_modify.mpr rfl, run⟩, after.input, shows⟩

/-- Whatever the bytes, all that a value read contains is in the language. -/
theorem read_clean {s s' : Decoder} (run : Yields read s a s') {b : Nat}
    (path : Relation.ReflTransGen (Link Cell.links s'.heap) a b) :
    ∃ node, s'.heap[b]? = some (.amf3 node) ∧ node.Clean := by
  obtain ⟨building, closed, _⟩ := readWith_spec height_any run
  obtain ⟨above, inside, _⟩ := building.sound.reach closed path
  have here := List.getElem?_eq_getElem inside
  have clean := building.sound.good b _ above here
  cases found : s'.heap[b] with
  | amf0 node =>
    rw [found] at clean
    cases clean
  | amf3 node =>
    rw [found] at here clean
    exact ⟨node, here, clean⟩

/-- `write` succeeds on every tree of the language within the limits, and `read` returns it
from what was written and leaves what follows; and all that `read` ever returns is in the
language. -/
theorem amf3_round_trip :
    (∀ v : Value3 eMaxDepth, v.WellFormed eMaxDepth → nodes eMaxDepth v ≤ ReadBudget.eMaxNodes →
      (encode eMaxDepth v).length < WriteBudget.eMaxBytes →
      (∀ e : Encoder, e.scopes = 0 → ∃ e', Yields (write v) e () e' ∧ e'.buffer = e.buffer ++ encode eMaxDepth v) ∧
      ∀ (s : Decoder) (t : Bytes), s.input = encode eMaxDepth v ++ t →
        ∃ a s', Yields read s a s' ∧ s'.input = t ∧ Shows3 s'.heap s.heap.length eMaxDepth a v) ∧
    ∀ (s s' : Decoder) (a b : Nat), Yields read s a s' → Relation.ReflTransGen (Link Cell.links s'.heap) a b →
      ∃ node, s'.heap[b]? = some (.amf3 node) ∧ node.Clean := by
  refine ⟨fun v legal few short => ⟨fun e unscoped => ?_, fun s t input => ?_⟩, fun s s' a b run path =>
    read_clean run path⟩
  · exact write_spec (Nat.le_refl _) v unscoped (few.trans (by decide)) short
  · exact read_spec legal few (short.le.trans (by decide)) input

def sample : Value3 eMaxDepth :=
  .object ⟨[([97], .scalar (.integer 0xffffffff)), ([98], .scalar (.string [104, 105]))], by decide⟩

theorem amf3_round_trip_sample :
    (∃ e', Yields (write sample) {} () e' ∧ e'.buffer = encode eMaxDepth sample) ∧
    (∃ a s', Yields read { input := encode eMaxDepth sample ++ [7] } a s' ∧ s'.input = [7] ∧
      Shows3 s'.heap 0 eMaxDepth a sample) ∧
    ∃ node, [Cell.amf3 (.scalar .null)][0]? = some (.amf3 node) ∧ node.Clean := by
  have legal : sample.WellFormed eMaxDepth := by
    refine ⟨fun entry member => ?_, fun w member => ?_⟩
    · rcases List.mem_cons.mp member with rfl | member
      · exact List.cons_ne_nil _ _
      · rw [List.mem_singleton.mp member]
        exact List.cons_ne_nil _ _
    · rcases List.mem_cons.mp member with rfl | member
      · exact ⟨.inr (by decide), fun _ inner => absurd inner List.not_mem_nil⟩
      · rw [List.mem_singleton.mp member]
        exact ⟨trivial, fun _ inner => absurd inner List.not_mem_nil⟩
  obtain ⟨written, back⟩ := amf3_round_trip.1 sample legal (by decide) (by decide)
  refine ⟨written {} rfl, back { input := _ } [7] rfl, ?_⟩
  exact amf3_round_trip.2 { input := [1] } { input := [], heap := [.amf3 (.scalar .null)], budget := { nodes := 1 } }
    0 0 rfl .refl

end

end Amf3

end Fms.Amf
