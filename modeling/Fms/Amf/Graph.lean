import Fms.Amf.Amf0
import Fms.Amf.U29
import Fms.Base.Heap

namespace Fms.Amf
open ByteWire Fallible Heap

variable {c : Prop} {cell : Cell}

/-- Member names are not empty, and integers fit 29 bits. -/
def Node3.Clean {α : Type} : Node3 α → Prop
  | .scalar (.integer value) => Amf3.Int29 value
  | .array assoc _ => ∀ entry ∈ assoc, entry.1 ≠ []
  | .object members => ∀ entry ∈ members, entry.1 ≠ []
  | _ => True

/-- AMF3 values are clean, and the AMF0 ones are there only if the codecs are `mixed`. -/
def Cell.Clean (mixed : Bool) : Cell → Prop
  | .amf0 _ => mixed = true
  | .amf3 node => node.Clean

/-- The heap at `base` and above while a message is read: a reference that would be taken
names an object that is there in full. -/
structure Building (mixed : Bool) (base : Nat) (opens : Set Nat) (s : Decoder) : Prop where
  sound : Sound Cell.links (Cell.Clean mixed) base opens s.heap
  known : ∀ a, (a, true) ∈ s.refs → Closed base opens s.heap a
  named : ∀ traits ∈ s.traitsRefs, ∀ name ∈ traits.properties, name ≠ []

/-- What was allocated and registered stays. -/
def Grows (s s' : Decoder) : Prop := Beyond ∅ s.heap s'.heap ∧ Beyond ∅ s.refs s'.refs

theorem Grows.refl (s : Decoder) : Grows s s := ⟨.refl _ _, .refl _ _⟩

theorem Grows.trans {s t u : Decoder} (first : Grows s t) (second : Grows t u) : Grows s u :=
  ⟨first.1.trans second.1, first.2.trans second.2⟩

def Quiet {α : Type} (m : Decode α) : Prop :=
  ∀ ⦃s a s'⦄, Yields m s a s' → s'.heap = s.heap ∧ s'.refs = s.refs ∧ s'.traitsRefs = s.traitsRefs

section
variable {α β : Type} {m : Decode α} {f : α → Decode β}

theorem quiet_pure (a : α) : Quiet (pure a : Decode α) := by
  intro s a' s' run
  obtain ⟨_, rfl⟩ := yields_pure.mp run
  exact ⟨rfl, rfl, rfl⟩

theorem quiet_throw (e : AmfError) : Quiet (throw e : Decode α) := fun _ _ _ run => absurd run yields_throw

theorem Quiet.bind (first : Quiet m) (second : ∀ a, Quiet (f a)) : Quiet (m >>= f) := by
  intro s b s' run
  obtain ⟨a, t, one, two⟩ := yields_bind.mp run
  obtain ⟨heap, refs, traits⟩ := first one
  obtain ⟨heap', refs', traits'⟩ := second a two
  exact ⟨heap'.trans heap, refs'.trans refs, traits'.trans traits⟩

theorem Quiet.ite [Decidable c] {m' : Decode α} (yes : Quiet m) (no : Quiet m') : Quiet (if c then m else m') := by
  split
  · exact yes
  · exact no

theorem quiet_modify {g : Decoder → Decoder}
    (same : ∀ s, (g s).heap = s.heap ∧ (g s).refs = s.refs ∧ (g s).traitsRefs = s.traitsRefs) :
    Quiet (modify g : Decode Unit) := by
  intro s u s' run
  rw [yields_modify.mp run]
  exact same s

theorem quiet_get : Quiet (get : Decode Decoder) := by
  intro s t s' run
  obtain ⟨_, rfl⟩ := yields_get.mp run
  exact ⟨rfl, rfl, rfl⟩

theorem quiet_lift (read : Bytes → Option (α × Bytes)) : Quiet (lift read) := by
  intro s a s' run
  obtain ⟨rest, _, rfl⟩ := yields_lift.mp run
  exact ⟨rfl, rfl, rfl⟩

end

theorem quiet_available : Quiet available := quiet_get.bind fun _ => quiet_pure _

theorem quiet_chargeNode (refusal : AmfError) : Quiet (chargeNode refusal) := by
  refine Quiet.bind (quiet_modify fun _ => ⟨rfl, rfl, rfl⟩) fun _ => quiet_get.bind fun _ => ?_
  exact (quiet_throw _).ite (quiet_pure _)

theorem quiet_chargeStringBytes (n : Nat) : Quiet (chargeStringBytes n) := by
  refine quiet_get.bind fun _ => (quiet_throw _).ite ?_
  exact quiet_modify fun _ => ⟨rfl, rfl, rfl⟩

theorem Amf3.quiet_readString : Quiet Amf3.readString := by
  refine (quiet_lift _).bind fun header => Quiet.ite ?_ ?_
  · refine quiet_get.bind fun s => ?_
    split
    · exact (quiet_chargeStringBytes _).bind fun _ => quiet_pure _
    · exact quiet_throw _
  · refine quiet_available.bind fun _ => (quiet_throw _).ite ?_
    refine (quiet_chargeStringBytes _).bind fun _ => (quiet_lift _).bind fun value => ?_
    refine (quiet_modify fun s => ?_).bind fun _ => quiet_pure _
    split
    · exact ⟨rfl, rfl, rfl⟩
    · exact ⟨rfl, rfl, rfl⟩

theorem Building.quiet {mixed : Bool} {base : Nat} {opens : Set Nat} {s s' : Decoder}
    (building : Building mixed base opens s)
    (same : s'.heap = s.heap ∧ s'.refs = s.refs ∧ s'.traitsRefs = s.traitsRefs) : Building mixed base opens s' := by
  obtain ⟨heap, refs, traits⟩ := same
  refine ⟨heap ▸ building.sound, ?_, traits ▸ building.named⟩
  rw [heap, refs]
  exact building.known

theorem Grows.of_quiet {s s' : Decoder}
    (same : s'.heap = s.heap ∧ s'.refs = s.refs ∧ s'.traitsRefs = s.traitsRefs) : Grows s s' := by
  rw [Grows, same.1, same.2.1]
  exact ⟨.refl _ _, .refl _ _⟩

/-- A property of complete values by the levels left for them: it depends on what they
reach only, a value has it one level up if all it contains have it, and so has whatever
a reference may take. -/
structure Height (policy : RefPolicy) (H : Nat → List Cell → Nat → Prop) : Prop where
  stable : ∀ {good base opens heap heap' n a}, Sound Cell.links good base opens heap → Beyond opens heap heap' →
    Closed base opens heap a → H n heap a → H n heap' a
  node : ∀ {n heap a}, (∀ b, Link Cell.links heap a b → H n heap b) → H (n + 1) heap a
  admitted : ∀ {n heap a}, policy heap n a = true → H n heap a

/-- The computation returns a complete value of that height. -/
def Reads (mixed : Bool) (H : Nat → List Cell → Nat → Prop) (n : Nat) (m : Decode Nat) : Prop :=
  ∀ ⦃base opens s b s'⦄, Building mixed base opens s → Yields m s b s' →
    Grows s s' ∧ Building mixed base opens s' ∧ Closed base opens s'.heap b ∧ H n s'.heap b

/-- Since `s`, the object at `a` has been filled and nothing else was changed. -/
structure Filled (mixed : Bool) (H : Nat → List Cell → Nat → Prop) (base : Nat) (opens : Set Nat) (n a : Nat)
    (s t : Decoder) : Prop where
  building : Building mixed base opens t
  heap : Beyond {a} s.heap t.heap
  refs : Beyond ∅ s.refs t.refs
  links : ∀ b, Link Cell.links t.heap a b → H n t.heap b

/-- The computation only fills the object at `a`. -/
def Fills {α : Type} (mixed : Bool) (H : Nat → List Cell → Nat → Prop) (n a : Nat) (m : Decode α) : Prop :=
  ∀ ⦃base opens s t u t'⦄, a ∈ opens → Filled mixed H base opens n a s t → Yields m t u t' →
    Filled mixed H base opens n a s t'

section
variable {policy : RefPolicy} {mixed : Bool} {H : Nat → List Cell → Nat → Prop} {base n a b : Nat} {opens : Set Nat}
    {s t t' : Decoder}

theorem Closed.grows (closed : Closed base opens t.heap b) (grows : Grows t t') : Closed base opens t'.heap b :=
  ⟨closed.1, closed.2.1.trans_le grows.1.1, closed.2.2⟩

theorem Height.grows (height : Height policy H) (building : Building mixed base opens t) (grows : Grows t t')
    (closed : Closed base opens t.heap b) (tall : H n t.heap b) : H n t'.heap b :=
  height.stable building.sound (grows.1.mono (Set.empty_subset _)) closed tall

theorem Filled.grow (height : Height policy H) (filled : Filled mixed H base opens n a s t) (isOpen : a ∈ opens)
    (grows : Grows t t') (building : Building mixed base opens t') : Filled mixed H base opens n a s t' := by
  refine ⟨building, filled.heap.trans (grows.1.mono (Set.empty_subset _)), filled.refs.trans grows.2,
    fun b link => ?_⟩
  obtain ⟨above, inside⟩ := filled.building.sound.allocated a isOpen
  have old := (link_congr (grows.1.2 a inside (Set.notMem_empty a))).mp link
  exact height.grows filled.building grows (filled.building.sound.inside a b above old) (filled.links b old)

theorem Filled.update (filled : Filled mixed H base opens n a s t) (height : Height policy H) (isOpen : a ∈ opens)
    {change : Cell → Cell} (clean : ∀ c, c.Clean mixed → (change c).Clean mixed)
    (new : ∀ c, ∀ b ∈ (change c).links, b ∈ c.links ∨ Closed base opens t.heap b ∧ H n t.heap b) :
    Filled mixed H base opens n a s { t with heap := t.heap.modify a change } := by
  obtain ⟨above, inside⟩ := filled.building.sound.allocated a isOpen
  have sound := filled.building.sound.fill isOpen (fun c _ isClean => clean c isClean)
    fun c _ b member => (new c b member).imp id And.left
  have beyond : Beyond opens t.heap (t.heap.modify a change) := .modify isOpen _ _
  have tall {b : Nat} (closed : Closed base opens t.heap b) (at' : H n t.heap b) : H n (t.heap.modify a change) b :=
    height.stable filled.building.sound beyond closed at'
  refine ⟨⟨sound, fun x member => ?_, filled.building.named⟩, filled.heap.trans (.modify (Set.mem_singleton a) _ _),
    filled.refs, fun b link => ?_⟩
  · have closed := filled.building.known x member
    exact ⟨closed.1, closed.2.1.trans_le beyond.1, closed.2.2⟩
  · obtain ⟨c, found, member⟩ := link
    rw [List.getElem?_modify_eq] at found
    obtain ⟨old, there, rfl⟩ := Option.map_eq_some_iff.mp found
    rcases new old b member with kept | ⟨closed, at'⟩
    · exact tall (filled.building.sound.inside a b above ⟨old, there, kept⟩) (filled.links b ⟨old, there, kept⟩)
    · exact tall closed at'

theorem Fills.quiet {α : Type} {m : Decode α} (quiet : Quiet m) : Fills mixed H n a m := by
  intro base opens s t u t' _ filled run
  have same := quiet run
  refine ⟨filled.building.quiet same, ?_, ?_, ?_⟩
  · rw [same.1]
    exact filled.heap
  · rw [same.2.1]
    exact filled.refs
  · rw [same.1]
    exact filled.links

theorem Fills.bind {α β : Type} {m : Decode α} {f : α → Decode β} (first : Fills mixed H n a m)
    (second : ∀ x, Fills mixed H n a (f x)) : Fills mixed H n a (m >>= f) := by
  intro base opens s t u t' isOpen filled run
  obtain ⟨x, v, one, two⟩ := yields_bind.mp run
  exact second x isOpen (first isOpen filled one) two

theorem Fills.ite {α : Type} [Decidable c] {m m' : Decode α} (yes : Fills mixed H n a m) (no : Fills mixed H n a m') :
    Fills mixed H n a (if c then m else m') := by
  split
  · exact yes
  · exact no

theorem Fills.times {m : Decode Unit} (body : Fills mixed H n a m)
    (count : Nat) : Fills mixed H n a (times count m) := by
  intro base opens s t u t' isOpen filled run
  exact times_rule (I := Filled mixed H base opens n a s) (fun filled round => body isOpen filled round) filled run

theorem Fills.loop {m : Decode Bool} {spent : AmfError} (body : Fills mixed H n a m) (fuel : Nat) :
    Fills mixed H n a (loop spent m fuel) := by
  intro base opens s t u t' isOpen filled run
  exact loop_rule (I := Filled mixed H base opens n a s) (fun filled round => body isOpen filled round) filled run

theorem Fills.put (height : Height policy H) {read : Decode Nat} (reads : Reads mixed H n read)
    {change : Nat → Cell → Cell} (clean : ∀ v c, c.Clean mixed → (change v c).Clean mixed)
    (adds : ∀ v c, ∀ b ∈ (change v c).links, b ∈ c.links ∨ b = v) :
    Fills mixed H n a (do
      let v ← read
      update a (change v)) := by
  intro base opens s t u t' isOpen filled run
  obtain ⟨v, w, got, put⟩ := yields_bind.mp run
  obtain ⟨grows, building, closed, tall⟩ := reads filled.building got
  have filled := filled.grow height isOpen grows building
  rw [yields_modify.mp put]
  refine filled.update height isOpen (clean v) fun c b member => ?_
  rcases adds v c b member with old | rfl
  · exact .inl old
  · exact .inr ⟨closed, tall⟩

theorem Reads.quiet {α : Type} {m : Decode α} {f : α → Decode Nat} (quiet : Quiet m)
    (reads : ∀ x, Reads mixed H n (f x)) :
    Reads mixed H n (m >>= f) := by
  intro base opens s b s' building run
  obtain ⟨x, t, one, two⟩ := yields_bind.mp run
  have same := quiet one
  obtain ⟨grows, rest⟩ := reads x (building.quiet same) two
  exact ⟨(Grows.of_quiet same).trans grows, rest⟩

theorem Reads.ite [Decidable c] {m m' : Decode Nat} (yes : Reads mixed H n m) (no : Reads mixed H n m') :
    Reads mixed H n (if c then m else m') := by
  split
  · exact yes
  · exact no

theorem Reads.level {m : Decode Nat} (reads : Reads mixed H n m) : Reads mixed H n (level m) := by
  intro base opens s b s' building run
  obtain ⟨t, inner, rfl⟩ := yields_level.mp run
  have entered : Building mixed base opens { s with depth := s.depth + 1 } := building.quiet ⟨rfl, rfl, rfl⟩
  obtain ⟨grows, after, rest⟩ := reads entered inner
  exact ⟨grows, after.quiet ⟨rfl, rfl, rfl⟩, rest⟩

theorem Reads.throw (e : AmfError) : Reads mixed H n (throw e) := fun _ _ _ _ _ _ run => absurd run yields_throw

theorem Reads.resolve (height : Height policy H) (refusal : AmfError) (idx : Nat) :
    Reads mixed H n (resolve policy refusal n idx) := by
  intro base opens s b s' building run
  obtain ⟨t, u, got, found⟩ := yields_bind.mp run
  obtain ⟨rfl, rfl⟩ := yields_get.mp got
  split at found
  · rename_i x there
    rcases yields_ite.mp found with ⟨admitted, taken⟩ | ⟨_, refused⟩
    · obtain ⟨rfl, rfl⟩ := yields_pure.mp taken
      exact ⟨.refl _, building, building.known _ (List.mem_of_getElem? there), height.admitted admitted⟩
    · exact absurd refused yields_throw
  · exact absurd found yields_throw

theorem Building.alloc (building : Building mixed base opens s) (clean : cell.Clean mixed)
    (closed : ∀ b ∈ cell.links, Closed base opens s.heap b) :
    Building mixed base opens { s with heap := s.heap ++ [cell] } := by
  refine ⟨building.sound.alloc clean closed, fun x member => ?_, building.named⟩
  have old := building.known x member
  exact ⟨old.1, by rw [List.length_append]; exact Nat.lt_add_right _ old.2.1, old.2.2⟩

theorem Building.fresh (building : Building mixed base opens s) (cell : Cell) :
    Closed base opens (s.heap ++ [cell]) s.heap.length :=
  ⟨building.sound.reserved, by simp, fun member => Nat.lt_irrefl _ (building.sound.allocated _ member).2⟩

theorem yields_alloc : Yields (Amf.alloc cell) s b t ↔
    b = s.heap.length ∧ t = { s with heap := s.heap ++ [cell] } := by
  refine ⟨fun run => ?_, fun ⟨address, state⟩ => address ▸ state ▸ rfl⟩
  cases run
  exact ⟨rfl, rfl⟩

theorem yields_register {isComplete : Bool} : Yields (register a isComplete) s b t ↔
    b = s.refs.length ∧ t = { s with refs := s.refs ++ [(a, isComplete)] } := by
  refine ⟨fun run => ?_, fun ⟨address, state⟩ => address ▸ state ▸ rfl⟩
  cases run
  exact ⟨rfl, rfl⟩

theorem yields_populate {fill : Nat → Decode Unit} : Yields (Amf.populate cell fill) s b t ↔
    b = s.heap.length ∧ ∃ u, Yields (fill s.heap.length)
      { s with heap := s.heap ++ [cell], refs := s.refs ++ [(s.heap.length, false)] } () u ∧
      t = { u with refs := u.refs.modify s.refs.length fun (a, _) => (a, true) } := by
  constructor
  · intro run
    obtain ⟨x, v, one, run⟩ := yields_bind.mp run
    obtain ⟨rfl, rfl⟩ := yields_alloc.mp one
    obtain ⟨ref, w, two, run⟩ := yields_bind.mp run
    obtain ⟨rfl, rfl⟩ := yields_register.mp two
    obtain ⟨_, u, filling, run⟩ := yields_bind.mp run
    obtain ⟨_, x, finish, run⟩ := yields_bind.mp run
    obtain ⟨rfl, rfl⟩ := yields_pure.mp run
    exact ⟨rfl, u, filling, yields_modify.mp finish⟩
  · rintro ⟨rfl, u, filling, rfl⟩
    refine yields_bind.mpr ⟨_, _, yields_alloc.mpr ⟨rfl, rfl⟩, yields_bind.mpr
      ⟨_, _, yields_register.mpr ⟨rfl, rfl⟩, ?_⟩⟩
    exact yields_bind.mpr ⟨(), u, filling, yields_bind.mpr ⟨(), _, yields_modify.mpr rfl, yields_pure.mpr ⟨rfl, rfl⟩⟩⟩

theorem Building.complete_alloc (height : Height policy H) (building : Building mixed base opens s)
    (clean : cell.Clean mixed)
    (closed : ∀ b ∈ cell.links, Closed base opens s.heap b ∧ H n s.heap b) (run : Yields (Amf.alloc cell) s b t) :
    Grows s t ∧ Building mixed base opens t ∧ Closed base opens t.heap b ∧ H (n + 1) t.heap b := by
  obtain ⟨rfl, rfl⟩ := yields_alloc.mp run
  have grows : Grows s { s with heap := s.heap ++ [cell] } := ⟨.append _ _ _, .refl _ _⟩
  refine ⟨grows, building.alloc clean fun b member =>
    (closed b member).1, building.fresh cell, height.node fun b link => ?_⟩
  obtain ⟨c, found, member⟩ := link
  rw [List.getElem?_concat_length] at found
  cases found
  exact height.grows building grows (closed b member).1 (closed b member).2

theorem Reads.alloc (height : Height policy H) (clean : cell.Clean mixed) (leaf : cell.links = []) :
    Reads mixed H (n + 1) (Amf.alloc cell) := by
  intro base opens s b s' building run
  exact building.complete_alloc height clean (by simp [leaf]) run

theorem Reads.register {m : Decode Nat} (reads : Reads mixed H n m) :
    Reads mixed H n (do
      let a ← m
      let _ ← register a true
      return a) := by
  intro base opens s b s' building run
  obtain ⟨x, t, got, rest⟩ := yields_bind.mp run
  obtain ⟨grows, building, closed, tall⟩ := reads building got
  obtain ⟨_, u, step, last⟩ := yields_bind.mp rest
  obtain ⟨_, rfl⟩ := yields_register.mp step
  obtain ⟨rfl, rfl⟩ := yields_pure.mp last
  refine ⟨grows.trans ⟨.refl _ _, .append _ _ _⟩, ⟨building.sound, fun y member => ?_, building.named⟩, closed, tall⟩
  rcases List.mem_append.mp member with old | new
  · exact building.known y old
  · cases List.mem_singleton.mp new
    exact closed

/-- The new object is open while it is filled, and nothing points to it. -/
theorem Building.opening (building : Building mixed base opens s) (clean : cell.Clean mixed)
    (leaf : cell.links = []) :
    Building mixed base (insert s.heap.length opens)
      { s with heap := s.heap ++ [cell], refs := s.refs ++ [(s.heap.length, false)] } := by
  refine ⟨building.sound.opening clean leaf, fun x member => ?_, building.named⟩
  have old : (x, true) ∈ s.refs := by simpa using member
  obtain ⟨low, high, shut⟩ := building.known x old
  refine ⟨low, by simp only [List.length_append]; omega, fun isOpen => ?_⟩
  rcases Set.mem_insert_iff.mp isOpen with rfl | before
  · exact Nat.lt_irrefl _ high
  · exact shut before

/-- Once filled the object is complete, and its entry says so. -/
theorem Building.closing {ref : Nat} (building : Building mixed base (insert a opens) t) (unopened : a ∉ opens)
    (entry : t.refs[ref]? = some (a, false)) :
    Building mixed base opens { t with refs := t.refs.modify ref fun (a, _) => (a, true) } := by
  have opens_eq : insert a opens \ {a} = opens := by
    ext x
    constructor
    · rintro ⟨rfl | before, other⟩
      · exact absurd rfl other
      · exact before
    · intro before
      exact ⟨.inr before, fun same => unopened (same ▸ before)⟩
  obtain ⟨low, high⟩ := building.sound.allocated a (Set.mem_insert a opens)
  refine ⟨opens_eq ▸ building.sound.closing a, fun x member => ?_, building.named⟩
  obtain ⟨i, found⟩ := List.mem_iff_getElem?.mp member
  rw [List.getElem?_modify] at found
  obtain ⟨old, there, same⟩ := Option.map_eq_some_iff.mp found
  split at same
  · rename_i here
    subst here
    cases entry.symm.trans there
    cases same
    exact ⟨low, high, unopened⟩
  · cases same
    obtain ⟨low, high, shut⟩ := building.known x (List.mem_of_getElem? there)
    exact ⟨low, high, fun before => shut (Set.mem_insert_of_mem a before)⟩

theorem Reads.populate (height : Height policy H) (clean : cell.Clean mixed) (leaf : cell.links = [])
    {fill : Nat → Decode Unit} (fills : ∀ a, Fills mixed H n a (fill a)) :
    Reads mixed H (n + 1) (populate cell fill) := by
  intro base opens s b s' building run
  obtain ⟨rfl, u, filling, rfl⟩ := yields_populate.mp run
  have unopened : s.heap.length ∉ opens := (building.fresh cell).2.2
  have filled : Filled mixed H base (insert s.heap.length opens) n s.heap.length
      { s with heap := s.heap ++ [cell], refs := s.refs ++ [(s.heap.length, false)] } u := by
    refine fills s.heap.length (Set.mem_insert _ _) ⟨building.opening clean leaf, .refl _ _, .refl _ _, ?_⟩ filling
    rintro b ⟨c, found, member⟩
    rw [List.getElem?_concat_length] at found
    cases found
    rw [leaf] at member
    cases member
  have entry : u.refs[s.refs.length]? = some (s.heap.length, false) :=
    (filled.refs.2 s.refs.length (by simp) (Set.notMem_empty _)).trans (by simp)
  have heap : Beyond ∅ s.heap u.heap := by
    refine ⟨Nat.le_trans (by simp) filled.heap.1, fun i below _ => ?_⟩
    have kept := filled.heap.2 i (by simp only [List.length_append]; omega) (fun same => Nat.ne_of_lt below same)
    rwa [List.getElem?_append_left below] at kept
  have refs : Beyond ∅ s.refs (u.refs.modify s.refs.length fun (a, _) => (a, true)) := by
    refine ⟨Nat.le_trans (by simp) (filled.refs.1.trans (List.length_modify ..).ge), fun i below _ => ?_⟩
    have kept := filled.refs.2 i (by simp only [List.length_append]; omega) (Set.notMem_empty i)
    rw [List.getElem?_append_left below] at kept
    have away := (Beyond.modify (Set.mem_singleton s.refs.length) u.refs fun (a, _) => (a, true)).2 i
      (below.trans_le ((Nat.le_add_right _ _).trans (List.length_append.ge.trans filled.refs.1))) below.ne
    exact away.trans kept
  obtain ⟨low, high⟩ := filled.building.sound.allocated _ (Set.mem_insert s.heap.length opens)
  exact ⟨⟨heap, refs⟩, filled.building.closing unopened entry, ⟨low, high, unopened⟩, height.node filled.links⟩

end

end Fms.Amf
