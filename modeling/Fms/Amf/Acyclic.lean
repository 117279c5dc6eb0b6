import Fms.Amf.Graph

namespace Fms.Amf
open ByteWire Fallible Heap

variable {read : Decode Nat}

section
variable {policy : RefPolicy} {mixed : Bool} {H : Nat → List Cell → Nat → Prop} {base n a b : Nat} {opens : Set Nat}
    {s s' : Decoder}

namespace Amf3

/-- Naming a value in a container links nothing else. -/
theorem links_assignMember (key : Bytes) (v : Nat)
    (c : Cell) : ∀ b ∈ (assignMember key v c).links, b ∈ c.links ∨ b = v := by
  have entries {map : StringMap Nat} {b : Nat} (member : b ∈ (map.assign (key, v)).elems.map Prod.snd) :
      b ∈ map.elems.map Prod.snd ∨ b = v := by
    obtain ⟨entry, inside, rfl⟩ := List.mem_map.mp member
    rcases SortedBy.mem_assign.mp inside with rfl | ⟨old, _⟩
    · exact .inr rfl
    · exact .inl (List.mem_map_of_mem old)
  intro b member
  unfold assignMember at member
  split at member
  · rcases List.mem_append.mp member with assoc | dense
    · exact (entries assoc).imp (List.mem_append_left _) id
    · exact .inl (List.mem_append_right _ dense)
  · exact entries member
  · exact .inl member

/-- A member that is added under a name leaves the container without nameless ones. -/
theorem clean_assignMember {key : Bytes} (named : key ≠ []) (v : Nat) (c : Cell) (clean : c.Clean mixed) :
    (assignMember key v c).Clean mixed := by
  have entries {map : StringMap Nat} (old : ∀ entry ∈ map, entry.1 ≠ []) :
      ∀ entry ∈ map.assign (key, v), entry.1 ≠ [] := by
    intro entry member
    rcases SortedBy.mem_assign.mp member with rfl | ⟨before, _⟩
    · exact named
    · exact old entry before
  unfold assignMember
  split
  · exact entries clean
  · exact entries clean
  · exact clean

theorem links_pushValue (v : Nat) (c : Cell) : ∀ b ∈ (pushValue v c).links, b ∈ c.links ∨ b = v := by
  intro b member
  unfold pushValue at member
  split at member
  · simpa [Cell.links, Node3.links, or_assoc] using member
  · simpa [Cell.links, Node3.links] using member
  · exact .inl member

theorem clean_pushValue (v : Nat) (c : Cell) (clean : c.Clean mixed) : (pushValue v c).Clean mixed := by
  unfold pushValue
  split
  · exact clean
  · trivial
  · exact clean

theorem links_pushEntry (k v : Nat) (c : Cell) : ∀ b ∈ (pushEntry k v c).links, b ∈ c.links ∨ b = k ∨ b = v := by
  intro b member
  unfold pushEntry at member
  split at member
  · simpa [Cell.links, Node3.links] using member
  · exact .inl member

theorem clean_pushEntry (k v : Nat) (c : Cell) (clean : c.Clean mixed) : (pushEntry k v c).Clean mixed := by
  unfold pushEntry
  split
  · trivial
  · exact clean

/-- No member that a list of traits names is nameless. -/
theorem readNames_named {names : List Bytes} {count : Nat} (run : Yields (readNames count) s names s') :
    (s'.heap = s.heap ∧ s'.refs = s.refs ∧ s'.traitsRefs = s.traitsRefs) ∧ ∀ name ∈ names, name ≠ [] := by
  induction count generalizing s names with
  | zero =>
    obtain ⟨rfl, rfl⟩ := yields_pure.mp run
    exact ⟨⟨rfl, rfl, rfl⟩, fun _ member => by cases member⟩
  | succ count ih =>
    obtain ⟨name, t, first, rest⟩ := yields_bind.mp run
    obtain ⟨heap, refs, traits⟩ := quiet_readString first
    rcases yields_ite.mp rest with ⟨_, refused⟩ | ⟨named, rest⟩
    · exact absurd refused yields_throw
    · obtain ⟨others, u, later, last⟩ := yields_bind.mp rest
      obtain ⟨rfl, rfl⟩ := yields_pure.mp last
      obtain ⟨⟨heap', refs', traits'⟩, all⟩ := ih later
      refine ⟨⟨heap'.trans heap, refs'.trans refs, traits'.trans traits⟩, fun other member => ?_⟩
      rcases List.mem_cons.mp member with rfl | member
      · exact named
      · exact all other member

/-- The traits an object is read with name all their members. -/
theorem readTraits_named {info : Nat} {traits : ClassData} (building : Building mixed base opens s)
    (run : Yields (readTraits info) s traits s') :
    Building mixed base opens s' ∧ Grows s s' ∧ ∀ name ∈ traits.properties, name ≠ [] := by
  unfold readTraits at run
  rcases yields_ite.mp run with ⟨_, reference⟩ | ⟨_, run⟩
  · obtain ⟨t, u, got, found⟩ := yields_bind.mp reference
    obtain ⟨rfl, rfl⟩ := yields_get.mp got
    split at found
    · rename_i there
      obtain ⟨rfl, rfl⟩ := yields_pure.mp found
      exact ⟨building, .refl _, building.named _ (List.mem_of_getElem? there)⟩
    · exact absurd found yields_throw
  · rcases yields_ite.mp run with ⟨_, refused⟩ | ⟨_, run⟩
    · exact absurd refused yields_throw
    · obtain ⟨_, t, size, run⟩ := yields_bind.mp run
      have first := quiet_available size
      rcases yields_ite.mp run with ⟨_, refused⟩ | ⟨_, run⟩
      · exact absurd refused yields_throw
      · obtain ⟨className, u, second, run⟩ := yields_bind.mp run
        have second := quiet_readString second
        obtain ⟨names, v, third, run⟩ := yields_bind.mp run
        obtain ⟨third, named⟩ := readNames_named third
        obtain ⟨_, w, step, last⟩ := yields_bind.mp run
        obtain ⟨rfl, rfl⟩ := yields_pure.mp last
        rw [yields_modify.mp step]
        have built := ((building.quiet first).quiet second).quiet third
        have grows := ((Grows.of_quiet first).trans (.of_quiet second)).trans (.of_quiet third)
        refine ⟨⟨built.sound, built.known, fun t member => ?_⟩, grows, named⟩
        rcases List.mem_append.mp member with old | new
        · exact built.named t old
        · cases List.mem_singleton.mp new
          exact named

section
variable (height : Height policy H)
include height

/-- A reference resolves to a value that is known, and anything else is read by the body. -/
theorem reads_referenceOr {body : Nat → Decode Nat} (reads : ∀ info, Reads mixed H n (body info)) :
    Reads mixed H n (referenceOr policy n body) :=
  .quiet (quiet_lift _) fun _ => .ite (.resolve height _ _) (reads _)

theorem reads_store {value : Scalar3} (clean : Cell.Clean mixed (.amf3 (.scalar value))) :
    Reads mixed H (n + 1) (store value) :=
  .register (.alloc height clean rfl)

theorem reads_readBlock {make : Bytes → Scalar3} (clean : ∀ bytes, Cell.Clean mixed (.amf3 (.scalar (make bytes)))) :
    Reads mixed H (n + 1) (readBlock policy (n + 1) make) :=
  reads_referenceOr height fun _ => .quiet (quiet_lift _) fun bytes => reads_store height (clean bytes)

theorem reads_readDate : Reads mixed H (n + 1) (readDate policy (n + 1)) :=
  reads_referenceOr height fun _ => .quiet (quiet_lift _) fun _ => reads_store height trivial

theorem reads_readNumericVector {γ : Type} {width : Nat} {value : Nat → γ} {make : Bool → List γ → Scalar3}
    (clean : ∀ fixed values, Cell.Clean mixed (.amf3 (.scalar (make fixed values)))) :
    Reads mixed H (n + 1) (readNumericVector policy (n + 1) width value make) :=
  reads_referenceOr height fun _ => .quiet (quiet_lift _) fun _ => .quiet (quiet_lift _) fun _ =>
    reads_store height (clean _ _)

/-- What is read as an integer fits the 29 bits it is written in. -/
theorem reads_integer :
    Reads mixed H (n + 1) (do scalar (.integer (← lift readInteger))) := by
  intro base opens s b s' building run
  obtain ⟨value, t, first, rest⟩ := yields_bind.mp run
  have same := quiet_lift _ first
  obtain ⟨left, got, _⟩ := yields_lift.mp first
  obtain ⟨⟨tmp, _⟩, raw, result⟩ := Option.map_eq_some_iff.mp got
  cases result
  have leaf : Reads mixed H (n + 1) (scalar (.integer (signed tmp))) :=
    .alloc height (signed_int29 (readU29_lt raw)) rfl
  obtain ⟨grows, rest⟩ := leaf (building.quiet same) rest
  exact ⟨(Grows.of_quiet same).trans grows, rest⟩

variable (reads : Reads mixed H n read)
include reads

/-- Every member read links a value that is complete. -/
theorem fills_readMember (a : Nat) :
    Fills mixed H n a (readMember read a) := by
  refine Fills.bind (.quiet quiet_readString) fun key => ?_
  split
  · exact .quiet (quiet_pure false)
  · rename_i named
    rw [← bind_assoc]
    refine Fills.bind (Fills.put height reads (fun v c => clean_assignMember named v c) fun v c => ?_)
      fun _ => .quiet (quiet_pure true)
    exact links_assignMember key v c

theorem fills_readMembers (a : Nat) :
    Fills mixed H n a (readMembers read a) :=
  .bind (.quiet quiet_available) fun _ => (fills_readMember height reads a).loop _

theorem fills_readElement (a : Nat) :
    Fills mixed H n a (readElement read a) :=
  .put height reads clean_pushValue links_pushValue

/-- Both the key and the value of an entry are complete before the dictionary links them. -/
theorem fills_readEntry (a : Nat) :
    Fills mixed H n a (readEntry read a) := by
  intro base opens s t u t' isOpen filled run
  obtain ⟨k, v, first, run⟩ := yields_bind.mp run
  obtain ⟨grows, building, closed, tall⟩ := reads filled.building first
  have filled := filled.grow height isOpen grows building
  obtain ⟨w, x, second, put⟩ := yields_bind.mp run
  obtain ⟨grows, building', closed', tall'⟩ := reads filled.building second
  have filled := filled.grow height isOpen grows building'
  rw [yields_modify.mp put]
  refine filled.update height isOpen (clean_pushEntry k w) fun c b member => ?_
  rcases links_pushEntry k w c b member with old | rfl | rfl
  · exact .inl old
  · exact .inr ⟨Closed.grows closed grows, height.grows building grows closed tall⟩
  · exact .inr ⟨closed', tall'⟩

/-- The sealed members are read under the names of the traits. -/
theorem fills_readSealed (obj : Nat) {names : List Bytes}
    (named : ∀ name ∈ names, name ≠ []) : Fills mixed H n obj (readSealed read obj names) := by
  induction names with
  | nil => exact .quiet (quiet_pure ())
  | cons name names ih =>
    refine .bind (.quiet (quiet_chargeStringBytes _)) fun _ => ?_
    rw [← bind_assoc]
    refine .bind (.put height reads (fun v c => clean_assignMember (named name (List.mem_cons_self ..)) v c)
      fun v c => ?_)
      fun _ => ih fun other member => named other (List.mem_cons_of_mem name member)
    exact links_assignMember name v c

theorem reads_readArray :
    Reads mixed H (n + 1) (readArray policy (n + 1) read) := by
  refine reads_referenceOr height fun count => .populate height ?_ rfl fun arr => ?_
  · intro entry member
    cases member
  · exact .bind (fills_readMembers height reads arr) fun _ => (fills_readElement height reads arr).times count

theorem reads_readVectorObject :
    Reads mixed H (n + 1) (readVectorObject policy (n + 1) read) := by
  refine reads_referenceOr height fun count => .quiet (quiet_lift _) fun fixed =>
    .quiet quiet_readString fun name => ?_
  refine .populate height ?_ rfl fun v => .bind (.quiet quiet_available) fun _ => ?_
  · trivial
  · exact .ite (.quiet (quiet_throw _)) ((fills_readElement height reads v).times count)

theorem reads_readDictionary :
    Reads mixed H (n + 1) (readDictionary policy (n + 1) read) := by
  refine reads_referenceOr height fun count => .quiet (quiet_lift _) fun weak => ?_
  refine .populate height ?_ rfl fun d => .bind (.quiet quiet_available) fun _ => ?_
  · trivial
  · exact .ite (.quiet (quiet_throw _)) ((fills_readEntry height reads d).times count)

theorem reads_readObject :
    Reads mixed H (n + 1) (readObject policy (n + 1) read) := by
  refine reads_referenceOr height fun info => ?_
  intro base opens s b s' building run
  obtain ⟨traits, t, first, rest⟩ := yields_bind.mp run
  obtain ⟨building, grows, named⟩ := readTraits_named building first
  have object : Reads mixed H (n + 1) (populate (.amf3 (.object {})) fun obj => do
      readSealed read obj traits.properties
      if traits.isDynamic then readMembers read obj else return) := by
    refine .populate height ?_ rfl fun obj => .bind (fills_readSealed height reads obj named) fun _ => ?_
    · intro entry member
      cases member
    · exact .ite (fills_readMembers height reads obj) (.quiet (quiet_pure ()))
  obtain ⟨grows', rest⟩ := object building rest
  exact ⟨grows.trans grows', rest⟩

/-- Whatever the marker, the value read is complete and no deeper than its level allows. -/
theorem reads_readBody (marker : Marker) :
    Reads mixed H (n + 1) (readBody policy (n + 1) read marker) := by
  have leaf (value : Scalar3) (clean : Cell.Clean mixed (.amf3 (.scalar value))) :
      Reads mixed H (n + 1) (scalar value) :=
    .alloc height clean rfl
  cases marker with
  | undefined => exact leaf _ trivial
  | null => exact leaf _ trivial
  | isFalse => exact leaf _ trivial
  | isTrue => exact leaf _ trivial
  | integer => exact reads_integer height
  | double => exact .quiet (quiet_lift _) fun _ => leaf _ trivial
  | string => exact .quiet quiet_readString fun _ => leaf _ trivial
  | xmlDoc => exact reads_readBlock height fun _ => trivial
  | date => exact reads_readDate height
  | array => exact reads_readArray height reads
  | object => exact reads_readObject height reads
  | xml => exact reads_readBlock height fun _ => trivial
  | byteArray => exact reads_readBlock height fun _ => trivial
  | vectorInt => exact reads_readNumericVector height fun _ _ => trivial
  | vectorUint => exact reads_readNumericVector height fun _ _ => trivial
  | vectorDouble => exact reads_readNumericVector height fun _ _ => trivial
  | vectorObject => exact reads_readVectorObject height reads
  | dictionary => exact reads_readDictionary height reads

end

theorem reads_readAt (height : Height policy H) (levels : Nat) : Reads mixed H levels (readAt policy levels) := by
  induction levels with
  | zero => exact .level (.throw _)
  | succ left ih =>
    refine .level (.quiet (quiet_chargeNode _) fun _ => .quiet (quiet_lift _) fun type => ?_)
    split
    · exact reads_readBody height ih _
    · exact .throw _

end Amf3

namespace Amf0

/-- An entry that is added links its value at most: a name that is taken keeps what it has. -/
theorem links_addEntry (key : Bytes) (v : Nat) (c : Cell) : ∀ b ∈ (addEntry key v c).links, b ∈ c.links ∨ b = v := by
  have entries {members : Members Nat} {b : Nat} (member : b ∈ (members.addEntry key v).entries.map Prod.snd) :
      b ∈ members.entries.map Prod.snd ∨ b = v := by
    unfold Members.addEntry at member
    split at member
    · exact .inl member
    · rw [List.map_append] at member
      exact (List.mem_append.mp member).imp id List.mem_singleton.mp
  have links {node : Node0 Nat Nat} (leaf : node.container = []) : Cell.links (.amf0 node) = node.links := by
    rw [Cell.links, leaf, List.append_nil]
  intro b member
  unfold addEntry at member
  split at member
  · rw [links rfl] at member ⊢
    exact entries member
  · rw [links rfl, Node0.links, List.map_append] at member
    rw [links rfl]
    exact (List.mem_append.mp member).imp id List.mem_singleton.mp
  · rw [links rfl] at member ⊢
    exact entries member
  · exact .inl member

theorem clean_addEntry (key : Bytes) (v : Nat) (c : Cell) (clean : c.Clean true) : (addEntry key v c).Clean true := by
  unfold addEntry
  split
  · trivial
  · trivial
  · trivial
  · exact clean

theorem links_pushValue (v : Nat) (c : Cell) : ∀ b ∈ (pushValue v c).links, b ∈ c.links ∨ b = v := by
  intro b member
  unfold pushValue at member
  split at member
  · simpa [Cell.links, Node0.links, Node0.container] using member
  · exact .inl member

theorem clean_pushValue (v : Nat) (c : Cell) (clean : c.Clean true) : (pushValue v c).Clean true := by
  unfold pushValue
  split
  · trivial
  · exact clean

theorem links_setClassName (className : Bytes) (c : Cell) : (setClassName className c).links = c.links := by
  unfold setClassName
  split
  · rfl
  · rfl

theorem clean_setClassName (className : Bytes) (c : Cell)
    (clean : c.Clean true) : (setClassName className c).Clean true := by
  unfold setClassName
  split
  · trivial
  · exact clean

/-- The other codec runs with empty tables, and those of this one come back after it. -/
theorem yields_nested {action : Decode Nat} : Yields (nested action) s b s' ↔
    ∃ t, Yields action { s with refs := [], stringRefs := [], traitsRefs := [] } b t ∧
      s' = { t with refs := s.refs, stringRefs := s.stringRefs, traitsRefs := s.traitsRefs } := by
  constructor
  · intro run
    obtain ⟨outer, t, got, body⟩ := yields_bind.mp run
    obtain ⟨rfl, same⟩ := yields_get.mp got
    obtain ⟨_, u, enter, body⟩ := yields_bind.mp body
    obtain ⟨v, inner, leave⟩ := yields_guarded.mp body
    rw [yields_modify.mp enter, same] at inner
    exact ⟨v, inner, leave⟩
  · rintro ⟨t, inner, rfl⟩
    refine yields_bind.mpr ⟨s, s, yields_get.mpr ⟨rfl, rfl⟩, yields_bind.mpr ⟨(), _, yields_modify.mpr rfl, ?_⟩⟩
    exact yields_guarded.mpr ⟨t, inner, rfl⟩

/-- What the other codec built stays with its tables gone. -/
theorem reads_nested {action : Decode Nat} (reads : Reads true H n action) : Reads true H n (nested action) := by
  intro base opens s b s' building run
  obtain ⟨t, inner, rfl⟩ := yields_nested.mp run
  have fresh : Building true base opens { s with refs := [], stringRefs := [], traitsRefs := [] } :=
    ⟨building.sound, fun _ member => absurd member List.not_mem_nil, fun _ member => absurd member List.not_mem_nil⟩
  obtain ⟨grows, after, closed, tall⟩ := reads fresh inner
  refine ⟨⟨grows.1, .refl _ _⟩, ⟨after.sound, fun a member => ?_, building.named⟩, closed, tall⟩
  obtain ⟨low, high, shut⟩ := building.known a member
  exact ⟨low, high.trans_le grows.1.1, shut⟩

section
variable (height : Height policy H)
include height

/-- The container is made once the value of the other codec is there. -/
theorem reads_readAmf3Container {read3 : Decode Nat} (reads3 : Reads true H n read3) :
    Reads true H (n + 1) (readAmf3Container read3) := by
  intro base opens s b s' building run
  obtain ⟨data, t, inner, run⟩ := yields_bind.mp run
  obtain ⟨grows, after, closed, tall⟩ := reads_nested reads3 building inner
  have links : ∀ c ∈ Cell.links (.amf0 (.amf3Container data)), Closed base opens t.heap c ∧ H n t.heap c := by
    intro c member
    rw [List.mem_singleton.mp member]
    exact ⟨closed, tall⟩
  have clean : Cell.Clean true (.amf0 (.amf3Container data)) := rfl
  obtain ⟨grows', rest⟩ := after.complete_alloc height clean links run
  exact ⟨grows.trans grows', rest⟩

variable (reads : Reads true H n read)
include reads

/-- A property links a value that is complete. -/
theorem fills_readProperty (a : Nat) :
    Fills true H n a (readProperty read a) := by
  refine Fills.bind (.quiet quiet_get) fun _ => .ite ?_ (.quiet (quiet_pure false))
  refine Fills.bind (.quiet (quiet_lift _)) fun key => ?_
  rw [← bind_assoc]
  exact .bind (.put height reads (clean_addEntry key) (links_addEntry key)) fun _ => .quiet (quiet_pure true)

theorem fills_readProperties (a : Nat) :
    Fills true H n a (readProperties read a) := by
  refine .bind (.quiet quiet_available) fun _ => .bind ((fills_readProperty height reads a).loop _) fun _ => ?_
  exact .quiet ((quiet_lift _).bind fun _ => quiet_pure ())

theorem fills_readObject (a : Nat) :
    Fills true H n a (readObject read a) :=
  .bind (.quiet quiet_available) fun _ => .ite (.quiet (quiet_pure ())) (fills_readProperties height reads a)

theorem fills_readMixedArray (a : Nat) :
    Fills true H n a (readMixedArray read a) :=
  .bind (.quiet quiet_available) fun _ => .ite (.quiet (quiet_pure ())) <|
    .bind (.quiet (quiet_lift _)) fun _ => fills_readProperties height reads a

theorem fills_readStrictArray (a : Nat) :
    Fills true H n a (readStrictArray read a) := by
  have element : Fills true H n a (readElement read a) := .put height reads clean_pushValue links_pushValue
  exact .bind (.quiet quiet_available) fun _ => .ite (.quiet (quiet_pure ())) <|
    .bind (.quiet (quiet_lift _)) fun cnt => element.times _

/-- The name of the class links nothing. -/
theorem fills_readTypedObject (a : Nat) :
    Fills true H n a (readTypedObject read a) := by
  refine .bind (.quiet (quiet_lift _)) fun className => .bind ?_ fun _ => fills_readProperties height reads a
  intro base opens s t u t' isOpen filled run
  rw [yields_modify.mp run]
  refine filled.update height isOpen (clean_setClassName className) fun c b member => .inl ?_
  rwa [links_setClassName] at member

theorem reads_readBody {read3 : Decode Nat} (reads3 : Reads true H n read3) (marker : Marker) :
    Reads true H (n + 1) (readBody policy (n + 1) read read3 marker) := by
  have leaf (value : Scalar0) : Reads true H (n + 1) (scalar value) := .alloc height rfl rfl
  cases marker with
  | number => exact .quiet (quiet_lift _) fun _ => leaf _
  | boolean => exact .quiet (quiet_lift _) fun _ => leaf _
  | string => exact .quiet (quiet_lift _) fun _ => leaf _
  | object =>
    refine .populate height ?_ rfl (fills_readObject height reads)
    trivial
  | null => exact leaf _
  | undefined => exact leaf _
  | reference => exact .quiet (quiet_lift _) fun _ => .resolve height _ _
  | ecmaArray =>
    refine .populate height ?_ rfl (fills_readMixedArray height reads)
    trivial
  | strictArray =>
    refine .populate height ?_ rfl (fills_readStrictArray height reads)
    trivial
  | date => exact .quiet (quiet_lift _) fun _ => leaf _
  | longString => exact .quiet (quiet_lift _) fun _ => leaf _
  | unsupported => exact leaf _
  | xmlDocument => exact .quiet (quiet_lift _) fun _ => leaf _
  | typedObject =>
    refine .populate height ?_ rfl (fills_readTypedObject height reads)
    trivial
  | amf3Container => exact reads_readAmf3Container height reads3

end

theorem reads_readAt (height : Height policy H) (levels : Nat) : Reads true H levels (readAt policy levels) := by
  induction levels with
  | zero => exact .level (.throw _)
  | succ left ih =>
    refine .level (.quiet (quiet_chargeNode _) fun _ => .quiet (quiet_lift _) fun type => ?_)
    split
    · exact reads_readBody height ih (Amf3.reads_readAt height left) _
    · exact .throw _

end Amf0

/-- A decoder whose tables are empty has built nothing yet. -/
theorem building_start {s : Decoder} (refs : s.refs = []) (traits : s.traitsRefs = []) :
    Building mixed s.heap.length ∅ s := by
  refine ⟨.empty_above s.heap, fun a member => ?_, fun t member => ?_⟩
  · rw [refs] at member
    cases member
  · rw [traits] at member
    cases member

theorem Amf0.readWith_spec (height : Height policy H) {s s' : Decoder} {a : Nat}
    (run : Yields (Amf0.readWith policy) s a s') :
    Building true s.heap.length ∅ s' ∧ Closed s.heap.length ∅ s'.heap a ∧ H eMaxDepth s'.heap a := by
  obtain ⟨_, t, reset, run⟩ := yields_bind.mp run
  rw [yields_modify.mp reset] at run
  obtain ⟨_, building, closed, tall⟩ := reads_readAt height eMaxDepth (building_start rfl rfl) run
  exact ⟨building, closed, tall⟩

theorem Amf3.readWith_spec (height : Height policy H) {s s' : Decoder} {a : Nat}
    (run : Yields (Amf3.readWith policy) s a s') :
    Building false s.heap.length ∅ s' ∧ Closed s.heap.length ∅ s'.heap a ∧ H eMaxDepth s'.heap a := by
  obtain ⟨_, t, reset, run⟩ := yields_bind.mp run
  rw [yields_modify.mp reset] at run
  obtain ⟨_, building, closed, tall⟩ := reads_readAt height eMaxDepth (building_start rfl rfl) run
  exact ⟨building, closed, tall⟩

end

theorem height_any : Height anyRef fun _ _ _ => True := ⟨fun _ _ _ _ => trivial, fun _ => trivial, fun _ => trivial⟩

/-- From the value returned, every value that can be reached cannot be reached from itself. -/
def Acyclic (heap : List Cell) (a : Nat) : Prop :=
  ∀ b, Relation.ReflTransGen (Link Cell.links heap) a b → ¬ Relation.TransGen (Link Cell.links heap) b b

theorem Building.acyclic {mixed : Bool} {base a : Nat} {opens : Set Nat} {s : Decoder}
    (building : Building mixed base opens s) (closed : Closed base opens s.heap a) : Acyclic s.heap a :=
  fun _ path => building.sound.acyclic (building.sound.reach closed path).1

/-- Whatever the bytes and the state of the decoder before, both codecs return values without
cycles. -/
theorem read_acyclic (s s' : Decoder) (a : Nat) (run : Yields Amf0.read s a s' ∨ Yields Amf3.read s a s') :
    Acyclic s'.heap a := by
  rcases run with run | run
  · obtain ⟨building, closed, _⟩ := Amf0.readWith_spec height_any run
    exact building.acyclic closed
  · obtain ⟨building, closed, _⟩ := Amf3.readWith_spec height_any run
    exact building.acyclic closed

/-- An array that holds one object twice. -/
theorem read_acyclic_shared :
    Yields Amf0.read { input := [10, 0, 0, 0, 2, 3, 0, 0, 9, 7, 0, 1] } 0
      { input := [], heap := [.amf0 (.strictArray [1, 1]), .amf0 (.object {})], refs := [(0, true), (1, true)],
        budget := { nodes := 3 } } ∧
    Acyclic [.amf0 (.strictArray [1, 1]), .amf0 (.object {})] 0 :=
  have run : Yields Amf0.read { input := [10, 0, 0, 0, 2, 3, 0, 0, 9, 7, 0, 1] } 0
      { input := [], heap := [.amf0 (.strictArray [1, 1]), .amf0 (.object {})], refs := [(0, true), (1, true)],
        budget := { nodes := 3 } } := rfl
  ⟨run, read_acyclic _ _ _ (.inl run)⟩

end Fms.Amf
