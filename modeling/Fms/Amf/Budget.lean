import Fms.Amf.Amf0
import Mathlib.Algebra.Order.Group.Nat
import Mathlib.Algebra.Order.Monoid.Prod
import Mathlib.Algebra.BigOperators.Group.List.Basic

namespace Fms.Amf
open ByteWire Fallible

def nameBytes {α : Type} (entries : List (Bytes × α)) : Nat := (entries.map fun entry => entry.1.length).sum

/-- The bytes of the strings and keys of an AMF3 value. -/
def Node3.stringBytes {α : Type} : Node3 α → Nat
  | .scalar (.string value) => value.length
  | .array assoc _ => nameBytes assoc.elems
  | .object members => nameBytes members.elems
  | .vectorObject _ typeName _ => typeName.length
  | _ => 0

def Cell.stringBytes : Cell → Nat
  | .amf0 _ => 0
  | .amf3 node => node.stringBytes

/-- The bytes of the strings and keys that the heap holds. -/
def stringBytes (heap : List Cell) : Nat := (heap.map Cell.stringBytes).sum

/-- The places of the containers on the heap that hold a value. -/
def places (heap : List Cell) : Nat := (heap.map fun cell => cell.links.length).sum

/-- The reads that were let through: one that is refused counts as well. -/
def ReadBudget.accepted (b : ReadBudget) : Nat := min b.nodes ReadBudget.eMaxNodes

theorem sum_modify_le {α : Type} {measure : α → Nat} {change : α → α} {n : Nat}
    (grows : ∀ x, measure (change x) ≤ measure x + n) (l : List α) (i : Nat) :
    ((l.modify i change).map measure).sum ≤ (l.map measure).sum + n := by
  induction l generalizing i with
  | nil =>
    rw [List.modify_nil]
    exact Nat.le_add_right _ _
  | cons x l ih =>
    cases i with
    | zero =>
      have head := grows x
      rw [List.modify_zero_cons, List.map_cons, List.sum_cons, List.map_cons, List.sum_cons]
      omega
    | succ i =>
      have tail := ih i
      rw [List.modify_succ_cons, List.map_cons, List.sum_cons, List.map_cons, List.sum_cons]
      omega

theorem sum_place_le {α κ : Type} [LinearOrder κ] {key : α → κ} (measure : α → Nat) (a : α) (l : List α) :
    ((SortedBy.place key a l).map measure).sum ≤ (l.map measure).sum + measure a := by
  induction l with
  | nil => simp [SortedBy.place]
  | cons b l ih =>
    unfold SortedBy.place
    split
    · simp only [List.map_cons, List.sum_cons]
      omega
    · split
      · simp only [List.map_cons, List.sum_cons]
        omega
      · simp only [List.map_cons, List.sum_cons]
        omega

theorem length_place_le {α κ : Type} [LinearOrder κ] {key : α → κ} (a : α) (l : List α) :
    (SortedBy.place key a l).length ≤ l.length + 1 := by
  have counted : ((SortedBy.place key a l).map fun _ => 1).sum ≤ (l.map fun _ => 1).sum + 1 := sum_place_le _ a l
  simpa using counted

/-- What has been paid for and not stored: objects, places and string bytes. -/
abbrev Credit := Nat × Nat × Nat

def object : Credit := (1, 0, 0)
def placed (n : Nat) : Credit := (0, n, 0)
def written (n : Nat) : Credit := (0, 0, n)

/-- In a read scope, since `base`: the depth and the scopes are as they were, the strings are
within their bound, and with the credit, the heap has grown by no more than was charged. -/
structure Within (base : Decoder) (c : Credit) (s : Decoder) : Prop where
  depth : s.depth = base.depth
  scopes : s.scopes = base.scopes
  inside : s.scopes ≠ 0
  bounded : s.budget.stringBytes ≤ ReadBudget.eMaxStringBytes
  objects : s.heap.length + c.1 ≤ base.heap.length + s.budget.accepted
  places : places s.heap + c.2.1 ≤ places base.heap + s.budget.accepted
  strings : stringBytes s.heap + c.2.2 ≤ stringBytes base.heap + s.budget.stringBytes

section
variable {α β : Type} {base s t : Decoder} {c d : Credit}

/-- Credit may be given up. -/
theorem Within.mono (within : Within base c s) (less : d ≤ c) : Within base d s where
  depth := within.depth
  scopes := within.scopes
  inside := within.inside
  bounded := within.bounded
  objects := (Nat.add_le_add_left less.1 _).trans within.objects
  places := (Nat.add_le_add_left less.2.1 _).trans within.places
  strings := (Nat.add_le_add_left less.2.2 _).trans within.strings

theorem Within.same (within : Within base c s) (heap : t.heap = s.heap) (budget : t.budget = s.budget)
    (depth : t.depth = s.depth) (scopes : t.scopes = s.scopes) : Within base c t where
  depth := depth.trans within.depth
  scopes := scopes.trans within.scopes
  inside := scopes ▸ within.inside
  bounded := budget ▸ within.bounded
  objects := by
    rw [heap, budget]
    exact within.objects
  places := by
    rw [heap, budget]
    exact within.places
  strings := by
    rw [heap, budget]
    exact within.strings

/-- The computation turns one credit into the other. Where it fails, what it was given is
lost, and no more. -/
def Keeps (pre : Credit) (m : Decode α) (post : α → Credit) : Prop :=
  ∀ base c, Ensures (Within base (c + pre)) m (fun a => Within base (c + post a)) (Within base c)

/-- The computation pays for what it stores. -/
abbrev Pays (m : Decode α) : Prop := Keeps 0 m fun _ => 0

variable {pre : Credit} {m : Decode α} {mid : α → Credit} {f : α → Decode β} {post : β → Credit}

theorem Keeps.bind (first : Keeps pre m mid) (second : ∀ a, Keeps (mid a) (f a) post) : Keeps pre (m >>= f) post :=
  fun base c => (first base c).bind fun a => second a base c

/-- What a computation does not need is left as it was. -/
theorem Keeps.frame (keeps : Keeps pre m mid) (other : Credit) : Keeps (pre + other) m fun a => mid a + other := by
  intro base c
  refine (keeps base (c + other)).weaken (fun s within => ?_) (fun a s within => ?_) fun s within => ?_
  · rwa [add_assoc, add_comm other]
  · show Within base (c + (mid a + other)) s
    rwa [add_comm (mid a), ← add_assoc]
  · exact within.mono (le_add_of_nonneg_right zero_le)

theorem Keeps.weaken {pre' : Credit} {mid' : α → Credit} (keeps : Keeps pre m mid) (more : pre ≤ pre')
    (less : ∀ a, mid' a ≤ mid a) : Keeps pre' m mid' := by
  intro base c
  refine (keeps base c).weaken (fun s within => ?_) (fun a s within => ?_) fun _ within => within
  · exact within.mono (add_le_add_right more c)
  · exact within.mono (add_le_add_right (less a) c)

theorem Keeps.ite {p : Prop} [Decidable p] {m' : Decode α} (yes : Keeps pre m mid) (no : Keeps pre m' mid) :
    Keeps pre (if p then m else m') mid :=
  fun base c => (yes base c).ite (no base c)

theorem Keeps.holding (keeps : Keeps 0 m mid) (other : Credit) : Keeps other m fun a => mid a + other := by
  have framed := keeps.frame other
  rwa [zero_add] at framed

/-- A computation that pays for what it stores, before one that needs the credit. -/
theorem Pays.bind (first : Pays m) (second : ∀ a, Keeps pre (f a) post) : Keeps pre (m >>= f) post :=
  (Keeps.holding first pre).bind fun a => (zero_add pre).symm ▸ second a

theorem keeps_pure {a : α} (worth : mid a = pre) : Keeps pre (pure a) mid := by
  subst worth
  exact fun _ _ _ within => within

theorem pays_pure (a : α) : Pays (pure a : Decode α) := keeps_pure rfl

theorem keeps_throw (e : AmfError) : Keeps pre (throw e : Decode α) mid :=
  fun _ _ _ within => within.mono (le_add_of_nonneg_right zero_le)

theorem Keeps.forget (keeps : Keeps pre m mid) : Keeps pre m fun _ => 0 := keeps.weaken (le_refl _) fun _ => zero_le

theorem pays_modify {g : Decoder → Decoder}
    (same : ∀ s, s.scopes ≠ 0 → (g s).heap = s.heap ∧ (g s).budget = s.budget ∧ (g s).depth = s.depth ∧
      (g s).scopes = s.scopes) :
    Pays (modify g : Decode Unit) := by
  intro base c s within
  obtain ⟨heap, budget, depth, scopes⟩ := same s within.inside
  exact within.same heap budget depth scopes

theorem pays_get : Pays (get : Decode Decoder) := fun _ _ _ within => within

theorem pays_available : Pays available := fun _ _ _ within => within

theorem pays_lift (read : Bytes → Option (α × Bytes)) : Pays (lift read) := by
  refine (pays_get).bind fun s => ?_
  split
  · exact Pays.bind (pays_modify fun _ _ => ⟨rfl, rfl, rfl, rfl⟩) fun _ => pays_pure _
  · exact keeps_throw _

/-- What is put back afterwards is not part of the account. -/
theorem Keeps.guarded {leave : Decoder → Decoder} (inner : Keeps pre m mid)
    (same : ∀ s, (leave s).heap = s.heap ∧ (leave s).budget = s.budget ∧ (leave s).depth = s.depth ∧
      (leave s).scopes = s.scopes) :
    Keeps pre (guarded leave m) mid := by
  intro base c
  refine Ensures.guarded ((inner base c).weaken (fun _ within => within) (fun a s within => ?_) fun s within => ?_)
  · obtain ⟨heap, budget, depth, scopes⟩ := same s
    exact within.same heap budget depth scopes
  · obtain ⟨heap, budget, depth, scopes⟩ := same s
    exact within.same heap budget depth scopes

theorem Pays.times {body : Decode Unit} (each : Pays body) (n : Nat) : Pays (times n body) :=
  fun base c => (each base c).times n

theorem Pays.loop {spent : AmfError} {body : Decode Bool} (each : Pays body)
    (fuel : Nat) : Pays (loop spent body fuel) :=
  fun base c => (each base c).loop (fun _ within => within) fuel

/-- A read that is let through pays for one object and for the place it is put in. -/
theorem keeps_chargeNode (refusal : AmfError) : Keeps 0 (chargeNode refusal) fun _ => object + placed 1 := by
  intro base c s within
  rw [chargeNode_eq]
  by_cases excess : s.budget.nodes + 1 > ReadBudget.eMaxNodes
  · have stuck : min (s.budget.nodes + 1) ReadBudget.eMaxNodes = s.budget.accepted := by
      unfold ReadBudget.accepted
      omega
    rw [if_pos excess]
    exact ⟨within.depth, within.scopes, within.inside, within.bounded, within.objects.trans_eq (by rw [← stuck]; rfl),
      within.places.trans_eq (by rw [← stuck]; rfl), within.strings⟩
  · have more : min (s.budget.nodes + 1) ReadBudget.eMaxNodes = s.budget.accepted + 1 := by
      unfold ReadBudget.accepted
      omega
    have objects : s.heap.length + c.1 ≤ base.heap.length + s.budget.accepted := within.objects
    have places : Amf.places s.heap + c.2.1 ≤ Amf.places base.heap + s.budget.accepted := within.places
    rw [if_neg excess]
    refine ⟨within.depth, within.scopes, within.inside, within.bounded, ?_, ?_, within.strings⟩
    · show s.heap.length + (c.1 + 1) ≤ base.heap.length + min (s.budget.nodes + 1) _
      omega
    · show Amf.places s.heap + (c.2.1 + 1) ≤ Amf.places base.heap + min (s.budget.nodes + 1) _
      omega

/-- A charge that is let through pays for so many string bytes. -/
theorem keeps_chargeStringBytes (n : Nat) : Keeps 0 (chargeStringBytes n) fun _ => written n := by
  intro base c s within
  have bounded := within.bounded
  have strings : stringBytes s.heap + c.2.2 ≤ stringBytes base.heap + s.budget.stringBytes := within.strings
  rw [chargeStringBytes_eq]
  by_cases excess : n > s.budget.room
  · rw [if_pos excess]
    exact within
  · rw [if_neg excess]
    rw [ReadBudget.room_eq bounded] at excess
    rw [ReadBudget.charge_eq (by omega)]
    refine ⟨within.depth, within.scopes, within.inside, ?_, within.objects, within.places, ?_⟩
    · show s.budget.stringBytes + n ≤ _
      omega
    · show stringBytes s.heap + (c.2.2 + n) ≤ stringBytes base.heap + (s.budget.stringBytes + n)
      omega

/-- What it takes to store an object. -/
def Cell.cost (cell : Cell) : Credit := (1, cell.links.length, cell.stringBytes)

/-- An object takes what it costs. -/
theorem keeps_alloc {cell : Cell} {cost : Credit}
    (worth : cell.cost = cost) : Keeps cost (alloc cell) fun _ => 0 := by
  subst worth
  intro base c s within
  have objects : s.heap.length + (c.1 + 1) ≤ base.heap.length + s.budget.accepted := within.objects
  have held : places s.heap + (c.2.1 + cell.links.length) ≤ places base.heap + s.budget.accepted := within.places
  have strings : stringBytes s.heap + (c.2.2 + cell.stringBytes) ≤ stringBytes base.heap + s.budget.stringBytes :=
    within.strings
  refine ⟨within.depth, within.scopes, within.inside, within.bounded, ?_, ?_, ?_⟩
  · show (s.heap ++ [cell]).length + c.1 ≤ _
    rw [List.length_append, List.length_singleton]
    exact (by omega : s.heap.length + 1 + c.1 ≤ base.heap.length + s.budget.accepted)
  · show places (s.heap ++ [cell]) + c.2.1 ≤ _
    have whole : places (s.heap ++ [cell]) = places s.heap + cell.links.length := by simp [places]
    rw [whole]
    exact (by omega : places s.heap + cell.links.length + c.2.1 ≤ places base.heap + s.budget.accepted)
  · show stringBytes (s.heap ++ [cell]) + c.2.2 ≤ _
    have whole : stringBytes (s.heap ++ [cell]) = stringBytes s.heap + cell.stringBytes := by simp [stringBytes]
    rw [whole]
    exact (by omega : stringBytes s.heap + cell.stringBytes + c.2.2 ≤ stringBytes base.heap + s.budget.stringBytes)

/-- The change adds at most so many places and string bytes to an object. -/
structure Adds (n k : Nat) (change : Cell → Cell) (cell : Cell) : Prop where
  links : (change cell).links.length ≤ cell.links.length + n
  stringBytes : (change cell).stringBytes ≤ cell.stringBytes + k

theorem Adds.unchanged {n k : Nat} {change : Cell → Cell} {cell : Cell} (same : change cell = cell) :
    Adds n k change cell where
  links := by
    rw [same]
    exact Nat.le_add_right _ _
  stringBytes := by
    rw [same]
    exact Nat.le_add_right _ _

/-- A change takes what it adds to an object. -/
theorem keeps_update (a : Nat) {change : Cell → Cell} {n k : Nat} (adds : ∀ cell, Adds n k change cell) :
    Keeps (placed n + written k) (update a change) fun _ => 0 := by
  intro base c s within
  have held : places s.heap + (c.2.1 + n) ≤ places base.heap + s.budget.accepted := within.places
  have strings : stringBytes s.heap + (c.2.2 + (0 + k)) ≤ stringBytes base.heap + s.budget.stringBytes :=
    within.strings
  have grown : places (s.heap.modify a change) ≤ places s.heap + n :=
    sum_modify_le (fun cell => (adds cell).links) s.heap a
  have longer : stringBytes (s.heap.modify a change) ≤ stringBytes s.heap + k :=
    sum_modify_le (fun cell => (adds cell).stringBytes) s.heap a
  refine ⟨within.depth, within.scopes, within.inside, within.bounded, ?_, ?_, ?_⟩
  · show (s.heap.modify a change).length + c.1 ≤ _
    rw [List.length_modify]
    exact within.objects
  · show places (s.heap.modify a change) + c.2.1 ≤ places base.heap + s.budget.accepted
    omega
  · show stringBytes (s.heap.modify a change) + c.2.2 ≤ stringBytes base.heap + s.budget.stringBytes
    omega

/-- A level deeper the account is the same. -/
theorem Keeps.level (inner : Keeps pre m mid) : Keeps pre (level m) mid := by
  intro base c
  let deeper : Decoder := { base with depth := base.depth + 1 }
  have entered : Ensures (Within base (c + pre)) (do
      modify fun s => { s with depth := s.depth + 1 }
      m) (fun a => Within deeper (c + mid a)) (Within deeper c) := by
    refine Ensures.bind (R := fun _ => Within deeper (c + pre)) (fun s within => ?_) fun _ => inner deeper c
    exact ⟨congrArg (· + 1) within.depth, within.scopes, within.inside, within.bounded, within.objects, within.places,
      within.strings⟩
  have left (d : Credit) (s : Decoder) (within : Within deeper d s) : Within base d { s with depth := s.depth - 1 } :=
    ⟨by show s.depth - 1 = base.depth; rw [within.depth]; rfl, within.scopes, within.inside, within.bounded,
      within.objects,
      within.places, within.strings⟩
  exact Ensures.guarded (entered.weaken (fun _ within => within) (fun a => left _) (left _))

theorem pays_register (a : Nat) (isComplete : Bool) : Pays (register a isComplete) := by
  refine (pays_get).bind fun s => Pays.bind (pays_modify fun _ _ => ⟨rfl, rfl, rfl, rfl⟩) fun _ => ?_
  exact pays_pure _

theorem pays_resolve (policy : RefPolicy) (refusal : AmfError) (left idx : Nat) :
    Pays (resolve policy refusal left idx) := by
  refine (pays_get).bind fun s => ?_
  split
  · exact (pays_pure _).ite (keeps_throw _)
  · exact keeps_throw _

/-- A container is paid for empty; filling it is paid for as it goes. -/
theorem keeps_populate {empty : Cell} {cost : Credit} {fill : Nat → Decode Unit} (worth : empty.cost = cost)
    (fills : ∀ a, Pays (fill a)) : Keeps cost (populate empty fill) fun _ => 0 := by
  refine (keeps_alloc worth).bind fun a => (pays_register a false).bind fun ref => (fills a).bind fun _ => ?_
  exact Pays.bind (pays_modify fun _ _ => ⟨rfl, rfl, rfl, rfl⟩) fun _ => pays_pure _

end

/-- The computation makes one object, unless it finds one. -/
abbrev Builds (m : Decode Nat) : Prop := Keeps object m fun _ => 0

/-- The computation gives a value that is paid a place. -/
abbrev Gives (m : Decode Nat) : Prop := Keeps 0 m fun _ => placed 1

theorem builds_resolve (policy : RefPolicy) (refusal : AmfError) (left idx : Nat) :
    Builds (resolve policy refusal left idx) :=
  (pays_resolve policy refusal left idx).weaken zero_le fun _ => le_refl _

/-- `read` of both codecs: the charge first, then the object. -/
theorem Builds.charged {body : Decode Nat} (refusal : AmfError) (builds : Builds body) :
    Gives (do
      chargeNode refusal
      body) := by
  refine (keeps_chargeNode refusal).bind fun _ => ?_
  have framed := builds.frame (placed 1)
  rwa [zero_add] at framed

namespace Amf3
variable {policy : RefPolicy} {levels : Nat} {read : Decode Nat}

/-- No more bytes are read than were paid for. -/
theorem keeps_takeBytes (len : Nat) : Keeps (written len) (lift (takeBytes len)) fun value =>
  written value.length := by
  intro base c
  have framed := (pays_lift (takeBytes len)) base (c + written len)
  refine .intro fun s within => ⟨fun value s' run => ?_, fun e s' run => ?_⟩
  · have after := framed.yields (by rwa [add_zero]) run
    obtain ⟨rest, got, _⟩ := yields_lift.mp run
    show Within base (c + written value.length) s'
    rw [(takeBytes_some got).2]
    rwa [add_zero] at after
  · have after := framed.fails (by rwa [add_zero]) run
    exact after.mono (le_add_of_nonneg_right zero_le)

theorem pays_keepString (value : Bytes) : Pays (keepString value) := by
  refine pays_modify fun s _ => ?_
  split
  · exact ⟨rfl, rfl, rfl, rfl⟩
  · exact ⟨rfl, rfl, rfl, rfl⟩

theorem keeps_stringRef (idx : Nat) : Keeps 0 (stringRef idx) fun value => written value.length := by
  refine (pays_get).bind fun s => ?_
  split
  · exact (keeps_chargeStringBytes _).bind fun _ => keeps_pure rfl
  · exact keeps_throw _

/-- A string is paid for whether it is read or referred to. -/
theorem keeps_readString : Keeps 0 readString fun value => written value.length := by
  refine (pays_lift readU29).bind fun _ => (keeps_stringRef _).ite ?_
  refine (pays_available).bind fun _ => (keeps_throw _).ite ?_
  refine (keeps_chargeStringBytes _).bind fun _ => (keeps_takeBytes _).bind fun value => ?_
  exact (pays_keepString value).bind fun _ => keeps_pure rfl

theorem pays_readString : Pays readString := (keeps_readString).forget

theorem builds_referenceOr {body : Nat → Decode Nat} (builds : ∀ n, Builds (body n)) :
    Builds (referenceOr policy levels body) :=
  (pays_lift readU29).bind fun _ => (builds_resolve policy _ levels _).ite (builds _)

/-- The value holds no string that has to be paid for. -/
def Plain (value : Scalar3) : Prop := Cell.stringBytes (.amf3 (.scalar value)) = 0

theorem builds_scalar {value : Scalar3} (plain : Plain value) : Builds (scalar value) := by
  have cost : Cell.cost (.amf3 (.scalar value)) = object := by
    unfold Cell.cost
    rw [show Cell.stringBytes (.amf3 (.scalar value)) = 0 from plain]
    rfl
  exact keeps_alloc cost

theorem builds_store {value : Scalar3} (plain : Plain value) : Builds (store value) := by
  refine (builds_scalar plain).bind fun a => (pays_register a true).bind fun _ => ?_
  exact pays_pure _

theorem builds_readBlock {make : Bytes → Scalar3} (plain : ∀ bytes, Plain (make bytes)) :
    Builds (readBlock policy levels make) :=
  builds_referenceOr fun len => (pays_lift (takeBytes len)).bind fun bytes => builds_store (plain bytes)

theorem builds_readDate : Builds (readDate policy levels) :=
  builds_referenceOr fun _ => (pays_lift readDouble).bind fun _ => builds_store rfl

theorem builds_readNumericVector {γ : Type} {width : Nat} {value : Nat → γ} {make : Bool → List γ → Scalar3}
    (plain : ∀ fixed values, Plain (make fixed values)) : Builds (readNumericVector policy levels width value make) :=
  builds_referenceOr fun count => (pays_lift tryU8).bind fun _ =>
    (pays_lift (readNumbers width value count)).bind fun values => builds_store (plain _ values)

/-- A member takes a place and the bytes of its key. -/
theorem adds_assignMember (key : Bytes) (value : Nat) (cell : Cell) :
    Adds 1 key.length (assignMember key value) cell := by
  have longer (entries : List (Bytes × Nat)) :
      (SortedBy.place byteOrder (key, value) entries).length ≤ entries.length + 1 := length_place_le _ _
  have named (entries : List (Bytes × Nat)) :
      nameBytes (SortedBy.place byteOrder (key, value) entries) ≤ nameBytes entries + key.length :=
    sum_place_le (fun entry : Bytes × Nat => entry.1.length) (key, value) entries
  cases cell with
  | amf0 node => exact .unchanged rfl
  | amf3 node =>
    cases node with
    | array assoc dense =>
      refine ⟨?_, named assoc.elems⟩
      have grown := longer assoc.elems
      simp only [assignMember, Cell.links, Node3.links, SortedBy.assign, List.length_append, List.length_map]
      omega
    | object members =>
      refine ⟨?_, named members.elems⟩
      have grown := longer members.elems
      simp only [assignMember, Cell.links, Node3.links, SortedBy.assign, List.length_map]
      omega
    | _ => exact .unchanged rfl

theorem keeps_assignMember (a : Nat) (key : Bytes) (value : Nat) :
    Keeps (placed 1 + written key.length) (update a (assignMember key value)) fun _ => 0 :=
  keeps_update a (adds_assignMember key value)

theorem adds_pushValue (value : Nat) (cell : Cell) : Adds 1 0 (pushValue value) cell := by
  cases cell with
  | amf0 node => exact .unchanged rfl
  | amf3 node =>
    cases node with
    | array assoc dense => exact ⟨by simp [pushValue, Cell.links, Node3.links, Nat.add_assoc], Nat.le_refl _⟩
    | vectorObject fixed typeName values => exact ⟨by simp [pushValue, Cell.links, Node3.links], Nat.le_refl _⟩
    | _ => exact .unchanged rfl

theorem adds_pushEntry (key value : Nat) (cell : Cell) : Adds 2 0 (pushEntry key value) cell := by
  cases cell with
  | amf0 node => exact .unchanged rfl
  | amf3 node =>
    cases node with
    | dictionary weakKeys entries => exact ⟨by simp [pushEntry, Cell.links, Node3.links], Nat.le_refl _⟩
    | _ => exact .unchanged rfl

section
variable (gives : Gives read)
include gives

theorem pays_readMember (a : Nat) : Pays (readMember read a) := by
  refine (keeps_readString).bind fun key => ?_
  split
  · exact (pays_pure _).weaken zero_le fun _ => le_refl _
  · refine (gives.holding (written key.length)).bind fun value => ?_
    exact (keeps_assignMember a key value).bind fun _ => pays_pure _

theorem pays_readMembers (a : Nat) : Pays (readMembers read a) :=
  (pays_available).bind fun _ => (pays_readMember gives a).loop _

theorem pays_readElement (a : Nat) : Pays (readElement read a) :=
  gives.bind fun value => keeps_update a (adds_pushValue value)

theorem builds_readArray : Builds (readArray policy levels read) :=
  builds_referenceOr fun denseCount => keeps_populate rfl fun arr =>
    (pays_readMembers gives arr).bind fun _ => (pays_readElement gives arr).times denseCount

theorem builds_readVectorObject : Builds (readVectorObject policy levels read) := by
  refine builds_referenceOr fun count => (pays_lift tryU8).bind fun _ => ?_
  refine ((keeps_readString).holding object).bind fun typeName => ?_
  refine keeps_populate rfl fun v => ?_
  exact (pays_available).bind fun _ => (keeps_throw _).ite ((pays_readElement gives v).times count)

/-- The key waits with its place while the value is read. -/
theorem pays_readEntry (a : Nat) : Pays (readEntry read a) := by
  refine gives.bind fun key => ?_
  refine (gives.holding (placed 1)).bind fun value => ?_
  exact keeps_update a (adds_pushEntry key value)

theorem builds_readDictionary : Builds (readDictionary policy levels read) := by
  refine builds_referenceOr fun count => (pays_lift tryU8).bind fun _ => ?_
  refine keeps_populate rfl fun d => ?_
  exact (pays_available).bind fun _ => (keeps_throw _).ite ((pays_readEntry gives d).times count)

omit gives in
theorem pays_readNames (count : Nat) : Pays (readNames count) := by
  induction count with
  | zero => exact pays_pure _
  | succ count ih =>
    refine (pays_readString).bind fun name => (keeps_throw _).ite ?_
    exact ih.bind fun names => pays_pure _

omit gives in
theorem pays_readTraits (info : Nat) : Pays (readTraits info) := by
  refine Keeps.ite ((pays_get).bind fun s => ?_) ((keeps_throw _).ite ?_)
  · split
    · exact pays_pure _
    · exact keeps_throw _
  · refine (pays_available).bind fun _ => (keeps_throw _).ite ?_
    refine (pays_readString).bind fun className => (pays_readNames _).bind fun properties => ?_
    exact Pays.bind (pays_modify fun _ _ => ⟨rfl, rfl, rfl, rfl⟩) fun _ => pays_pure _

/-- The keys of sealed members are paid for with every object. -/
theorem pays_readSealed (obj : Nat) (names : List Bytes) : Pays (readSealed read obj names) := by
  induction names with
  | nil => exact pays_pure _
  | cons name names ih =>
    refine (keeps_chargeStringBytes name.length).bind fun _ => ?_
    refine (gives.holding (written name.length)).bind fun value => ?_
    exact (keeps_assignMember obj name value).bind fun _ => ih

theorem builds_readObject : Builds (readObject policy levels read) := by
  refine builds_referenceOr fun info => (pays_readTraits info).bind fun traits => ?_
  refine keeps_populate rfl fun obj => ?_
  exact (pays_readSealed gives obj traits.properties).bind fun _ => (pays_readMembers gives obj).ite (pays_pure _)

theorem builds_readBody (marker : Marker) : Builds (readBody policy levels read marker) := by
  cases marker with
  | undefined => exact builds_scalar rfl
  | null => exact builds_scalar rfl
  | isFalse => exact builds_scalar rfl
  | isTrue => exact builds_scalar rfl
  | integer => exact (pays_lift readInteger).bind fun _ => builds_scalar rfl
  | double => exact (pays_lift readDouble).bind fun _ => builds_scalar rfl
  | string => exact ((keeps_readString).holding object).bind fun value => keeps_alloc rfl
  | xmlDoc => exact builds_readBlock fun _ => rfl
  | date => exact builds_readDate
  | array => exact builds_readArray gives
  | object => exact builds_readObject gives
  | xml => exact builds_readBlock fun _ => rfl
  | byteArray => exact builds_readBlock fun _ => rfl
  | vectorInt => exact builds_readNumericVector fun _ _ => rfl
  | vectorUint => exact builds_readNumericVector fun _ _ => rfl
  | vectorDouble => exact builds_readNumericVector fun _ _ => rfl
  | vectorObject => exact builds_readVectorObject gives
  | dictionary => exact builds_readDictionary gives

end

theorem gives_readAt (policy : RefPolicy) (levels : Nat) : Gives (readAt policy levels) := by
  induction levels with
  | zero => exact (keeps_throw _).level
  | succ left ih =>
    refine (Builds.charged .amf3Read ?_).level
    refine (pays_lift tryU8).bind fun type => ?_
    split
    · exact builds_readBody ih _
    · exact keeps_throw _

end Amf3

namespace Amf0
variable {policy : RefPolicy} {levels : Nat} {read read3 : Decode Nat}

theorem adds_addEntry (key : Bytes) (value : Nat) (cell : Cell) : Adds 1 0 (addEntry key value) cell := by
  have longer (members : Members Nat) : (members.addEntry key value).entries.length ≤ members.entries.length + 1 := by
    unfold Members.addEntry
    split
    · exact Nat.le_add_right _ _
    · rw [List.length_append, List.length_singleton]
  cases cell with
  | amf0 node =>
    cases node with
    | object members =>
      exact ⟨by simpa [addEntry, Cell.links, Node0.links, Node0.container] using longer members, Nat.le_refl _⟩
    | ecmaArray entries => exact ⟨by simp [addEntry, Cell.links, Node0.links, Node0.container], Nat.le_refl _⟩
    | typedObject className members =>
      exact ⟨by simpa [addEntry, Cell.links, Node0.links, Node0.container] using longer members, Nat.le_refl _⟩
    | _ => exact .unchanged rfl
  | amf3 node => exact .unchanged rfl

theorem adds_pushValue (value : Nat) (cell : Cell) : Adds 1 0 (pushValue value) cell := by
  cases cell with
  | amf0 node =>
    cases node with
    | strictArray values => exact ⟨by simp [pushValue, Cell.links, Node0.links, Node0.container], Nat.le_refl _⟩
    | _ => exact .unchanged rfl
  | amf3 node => exact .unchanged rfl

theorem adds_setClassName (className : Bytes) (cell : Cell) : Adds 0 0 (setClassName className) cell := by
  cases cell with
  | amf0 node =>
    cases node with
    | typedObject old members => exact ⟨Nat.le_refl _, Nat.le_refl _⟩
    | _ => exact .unchanged rfl
  | amf3 node => exact .unchanged rfl

theorem pays_setClassName (obj : Nat) (className : Bytes) : Pays (update obj (setClassName className)) :=
  keeps_update obj (adds_setClassName className)

section
variable (gives : Gives read)
include gives

theorem pays_readProperty (a : Nat) : Pays (readProperty read a) := by
  refine (pays_get).bind fun s => Keeps.ite ?_ (pays_pure _)
  refine (pays_lift readShortString).bind fun key => gives.bind fun value => ?_
  exact (keeps_update a (adds_addEntry key value)).bind fun _ => pays_pure _

theorem pays_readProperties (a : Nat) : Pays (readProperties read a) :=
  (pays_available).bind fun _ => ((pays_readProperty gives a).loop _).bind fun _ =>
    (pays_lift (takeBytes 3)).bind fun _ => pays_pure _

theorem pays_readObject (obj : Nat) : Pays (readObject read obj) :=
  (pays_available).bind fun _ => (pays_pure _).ite (pays_readProperties gives obj)

theorem pays_readMixedArray (arr : Nat) : Pays (readMixedArray read arr) :=
  (pays_available).bind fun _ => (pays_pure _).ite
    ((pays_lift (takeBytes 4)).bind fun _ => pays_readProperties gives arr)

theorem pays_readElement (arr : Nat) : Pays (readElement read arr) :=
  gives.bind fun value => keeps_update arr (adds_pushValue value)

theorem pays_readStrictArray (arr : Nat) : Pays (readStrictArray read arr) :=
  (pays_available).bind fun _ => (pays_pure _).ite
    ((pays_lift tryU32Be).bind fun cnt => (pays_readElement gives arr).times cnt.toNat)

theorem pays_readTypedObject (obj : Nat) : Pays (readTypedObject read obj) :=
  (pays_lift readShortString).bind fun className => (pays_setClassName obj className).bind fun _ =>
    pays_readProperties gives obj

omit gives in
/-- The tables of the other codec hold nothing that is paid for. -/
theorem gives_nested (gives3 : Gives read3) : Gives (nested read3) := by
  refine (pays_get).bind fun outer => Pays.bind (pays_modify fun _ _ => ⟨rfl, rfl, rfl, rfl⟩) fun _ => ?_
  exact gives3.guarded fun _ => ⟨rfl, rfl, rfl, rfl⟩

omit gives in
theorem builds_readAmf3Container (gives3 : Gives read3) : Builds (readAmf3Container read3) :=
  ((gives_nested gives3).holding object).bind fun _ => keeps_alloc rfl

theorem builds_readBody (gives3 : Gives read3) (marker : Marker) :
    Builds (readBody policy levels read read3 marker) := by
  cases marker with
  | number => exact (pays_lift readNumber).bind fun _ => keeps_alloc rfl
  | boolean => exact (pays_lift readBoolean).bind fun _ => keeps_alloc rfl
  | string => exact (pays_lift readShortString).bind fun _ => keeps_alloc rfl
  | object => exact keeps_populate rfl (pays_readObject gives)
  | null => exact keeps_alloc rfl
  | undefined => exact keeps_alloc rfl
  | reference => exact (pays_lift tryU16Be).bind fun _ => builds_resolve _ _ _ _
  | ecmaArray => exact keeps_populate rfl (pays_readMixedArray gives)
  | strictArray => exact keeps_populate rfl (pays_readStrictArray gives)
  | date => exact (pays_lift readDate).bind fun _ => keeps_alloc rfl
  | longString => exact (pays_lift (some ∘ readLongString)).bind fun _ => keeps_alloc rfl
  | unsupported => exact keeps_alloc rfl
  | xmlDocument => exact (pays_lift readXmlDocument).bind fun _ => keeps_alloc rfl
  | typedObject => exact keeps_populate rfl (pays_readTypedObject gives)
  | amf3Container => exact builds_readAmf3Container gives3

end

theorem gives_readAt (policy : RefPolicy) (levels : Nat) : Gives (readAt policy levels) := by
  induction levels with
  | zero => exact (keeps_throw _).level
  | succ left ih =>
    refine (Builds.charged .amf0Read ?_).level
    refine (pays_lift tryU8).bind fun type => ?_
    split
    · exact builds_readBody ih (Amf3.gives_readAt policy left) _
    · exact keeps_throw _

/-- Inside a scope the budget goes on. -/
theorem pays_resetRefs : Pays resetRefs := by
  refine pays_modify fun s inside => ⟨rfl, ?_, rfl, rfl⟩
  exact if_pos (decide_eq_true inside)

end Amf0

end Fms.Amf
