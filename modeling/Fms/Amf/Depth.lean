import Fms.Amf.Acyclic

namespace Fms.Amf
open ByteWire Fallible Heap

section
variable {policy wider : RefPolicy} {levels : Nat}

/-- Every reference that the first policy takes, the second does. -/
def Narrower (policy wider : RefPolicy) : Prop :=
  ∀ ⦃heap levels a⦄, policy heap levels a = true → wider heap levels a = true

theorem Narrower.resolve (narrower : Narrower policy wider) (refusal : AmfError) (idx : Nat) :
    Refines (resolve policy refusal levels idx) (resolve wider refusal levels idx) := by
  refine .bind (.refl _) fun s => ?_
  split
  · intro t a t' run
    rcases yields_ite.mp run with ⟨taken, found⟩ | ⟨_, refused⟩
    · exact yields_ite.mpr (.inl ⟨narrower taken, found⟩)
    · exact absurd refused yields_throw
  · exact .throw _ _

theorem refines_level {m m' : Decode Nat} (inner : Refines m m') : Refines (level m) (level m') :=
  Refines.guarded (.bind (.refl _) fun _ => inner) _

theorem refines_populate {cell : Cell} {fill fill' : Nat → Decode Unit} (each : ∀ a, Refines (fill a) (fill' a)) :
    Refines (populate cell fill) (populate cell fill') :=
  .bind (.refl _) fun a => .bind (.refl _) fun _ => .bind (each a) fun _ => .refl _

namespace Amf3

theorem refines_referenceOr (narrower : Narrower policy wider) {body body' : Nat → Decode Nat}
    (each : ∀ info, Refines (body info) (body' info)) :
    Refines (referenceOr policy levels body) (referenceOr wider levels body') :=
  .bind (.refl _) fun _ => .ite (narrower.resolve _ _) (each _)

section
variable {read read' : Decode Nat} (inner : Refines read read')
include inner

theorem refines_readMembers (a : Nat) : Refines (readMembers read a) (readMembers read' a) := by
  refine .bind (.refl _) fun _ => .loop (.bind (.refl _) fun key => ?_) _
  exact .ite (.refl _) (inner.bind fun _ => .refl _)

theorem refines_readElement (a : Nat) : Refines (readElement read a) (readElement read' a) :=
  inner.bind fun _ => .refl _

theorem refines_readEntry (a : Nat) : Refines (readEntry read a) (readEntry read' a) :=
  inner.bind fun _ => inner.bind fun _ => .refl _

theorem refines_readSealed (obj : Nat) (names : List Bytes) :
    Refines (readSealed read obj names) (readSealed read' obj names) := by
  induction names with
  | nil => exact .refl _
  | cons name names ih => exact .bind (.refl _) fun _ => inner.bind fun _ => .bind (.refl _) fun _ => ih

theorem refines_readArray (narrower : Narrower policy wider) :
    Refines (readArray policy levels read) (readArray wider levels read') := by
  refine refines_referenceOr narrower fun count => refines_populate fun arr => ?_
  exact (refines_readMembers inner arr).bind fun _ => (refines_readElement inner arr).times count

theorem refines_readObject (narrower : Narrower policy wider) :
    Refines (readObject policy levels read) (readObject wider levels read') := by
  refine refines_referenceOr narrower fun info => .bind (.refl _) fun traits => refines_populate fun obj => ?_
  exact (refines_readSealed inner obj _).bind fun _ => .ite (refines_readMembers inner obj) (.refl _)

theorem refines_readVectorObject (narrower : Narrower policy wider) :
    Refines (readVectorObject policy levels read) (readVectorObject wider levels read') := by
  refine refines_referenceOr narrower fun count => .bind (.refl _) fun _ => .bind (.refl _) fun _ => ?_
  refine refines_populate fun v => .bind (.refl _) fun _ => .ite (.refl _) ?_
  exact (refines_readElement inner v).times count

theorem refines_readDictionary (narrower : Narrower policy wider) :
    Refines (readDictionary policy levels read) (readDictionary wider levels read') := by
  refine refines_referenceOr narrower fun count => .bind (.refl _) fun _ => refines_populate fun d => ?_
  exact .bind (.refl _) fun _ => .ite (.refl _) ((refines_readEntry inner d).times count)

theorem refines_readBody (narrower : Narrower policy wider) (marker : Marker) :
    Refines (readBody policy levels read marker) (readBody wider levels read' marker) := by
  have block (make : Bytes → Scalar3) : Refines (readBlock policy levels make) (readBlock wider levels make) :=
    refines_referenceOr narrower fun _ => .refl _
  have numbers {γ : Type} (width : Nat) (value : Nat → γ) (make : Bool → List γ → Scalar3) :
      Refines (readNumericVector policy levels width value make) (readNumericVector wider levels width value make) :=
    refines_referenceOr narrower fun _ => .refl _
  have date : Refines (readDate policy levels) (readDate wider levels) :=
    refines_referenceOr narrower fun _ => .refl _
  cases marker with
  | xmlDoc => exact block _
  | date => exact date
  | array => exact refines_readArray inner narrower
  | object => exact refines_readObject inner narrower
  | xml => exact block _
  | byteArray => exact block _
  | vectorInt => exact numbers _ _ _
  | vectorUint => exact numbers _ _ _
  | vectorDouble => exact numbers _ _ _
  | vectorObject => exact refines_readVectorObject inner narrower
  | dictionary => exact refines_readDictionary inner narrower
  | _ => exact .refl _

end

theorem refines_readAt (narrower : Narrower policy wider) (levels : Nat) :
    Refines (readAt policy levels) (readAt wider levels) := by
  induction levels with
  | zero => exact .refl _
  | succ left ih =>
    refine refines_level (.bind (.refl _) fun _ => .bind (.refl _) fun type => ?_)
    split
    · exact refines_readBody ih narrower _
    · exact .refl _

end Amf3

namespace Amf0

section
variable {read read' : Decode Nat} (inner : Refines read read')
include inner

theorem refines_readProperties (a : Nat) : Refines (readProperties read a) (readProperties read' a) := by
  refine .bind (.refl _) fun _ => .bind (.loop (.bind (.refl _) fun _ => .ite ?_ (.refl _)) _) fun _ => .refl _
  exact .bind (.refl _) fun _ => inner.bind fun _ => .refl _

theorem refines_readBody {read3 read3' : Decode Nat} (inner3 : Refines read3 read3')
    (narrower : Narrower policy wider) (marker : Marker) : Refines (readBody policy levels read read3 marker)
      (readBody wider levels read' read3' marker) := by
  cases marker with
  | object =>
    exact refines_populate fun obj => .bind (.refl _) fun _ => .ite (.refl _) (refines_readProperties inner obj)
  | reference => exact .bind (.refl _) fun idx => narrower.resolve _ idx
  | ecmaArray =>
    refine refines_populate fun arr => .bind (.refl _) fun _ => .ite (.refl _) ?_
    exact .bind (.refl _) fun _ => refines_readProperties inner arr
  | strictArray =>
    refine refines_populate fun arr => .bind (.refl _) fun _ => .ite (.refl _) ?_
    exact .bind (.refl _) fun cnt => .times (inner.bind fun _ => .refl _) _
  | typedObject =>
    refine refines_populate fun obj => .bind (.refl _) fun _ => .bind (.refl _) fun _ => ?_
    exact refines_readProperties inner obj
  | amf3Container =>
    exact .bind (.bind (.refl _) fun _ => .bind (.refl _) fun _ => inner3.guarded _) fun _ => .refl _
  | _ => exact .refl _

end

theorem refines_readAt (narrower : Narrower policy wider) (levels : Nat) :
    Refines (readAt policy levels) (readAt wider levels) := by
  induction levels with
  | zero => exact .refl _
  | succ left ih =>
    refine refines_level (.bind (.refl _) fun _ => .bind (.refl _) fun type => ?_)
    split
    · exact refines_readBody ih (Amf3.refines_readAt narrower left) narrower _
    · exact .refl _

end Amf0
end

/-- A reference may only take a value that fits into the levels left. -/
def shallowRef : RefPolicy := fits Cell.links

theorem height_shallow : Height shallowRef fun n heap a => fits Cell.links heap n a = true where
  stable sound beyond closed fitting := (sound.fits_stable beyond closed).trans fitting
  node below := all_links.mpr below
  admitted taken := taken

theorem narrower_any (policy : RefPolicy) : Narrower policy anyRef := fun _ _ _ _ => rfl

def DeepAtMost (levels : Nat) (heap : List Cell) (a : Nat) : Prop := ∀ n, Path Cell.links heap n a → n ≤ levels

theorem Amf0.deepAtMost {s s' t : Decoder} {a b : Nat} (run : Yields Amf0.read s a s')
    (shallow : Yields (Amf0.readWith shallowRef) s b t) : DeepAtMost eMaxDepth s'.heap a := by
  have same : Yields Amf0.read s b t :=
    Refines.bind (.refl _) (fun _ => Amf0.refines_readAt (narrower_any _) _) shallow
  obtain ⟨rfl, rfl⟩ := run.unique same
  obtain ⟨_, _, tall⟩ := Amf0.readWith_spec height_shallow shallow
  exact (fits_iff (by decide)).mp tall

theorem Amf3.deepAtMost {s s' t : Decoder} {a b : Nat} (run : Yields Amf3.read s a s')
    (shallow : Yields (Amf3.readWith shallowRef) s b t) : DeepAtMost eMaxDepth s'.heap a := by
  have same : Yields Amf3.read s b t :=
    Refines.bind (.refl _) (fun _ => Amf3.refines_readAt (narrower_any _) _) shallow
  obtain ⟨rfl, rfl⟩ := run.unique same
  obtain ⟨_, _, tall⟩ := Amf3.readWith_spec height_shallow shallow
  exact (fits_iff (by decide)).mp tall

/-- Where every reference names a value that fits into the levels left for it, the value
read is no deeper than the reader's own recursion. -/
theorem depth_bounded_of_shallow_references (s s' : Decoder) (a : Nat)
    (run : Yields Amf0.read s a s' ∧ (∃ b t, Yields (Amf0.readWith shallowRef) s b t) ∨
      Yields Amf3.read s a s' ∧ ∃ b t, Yields (Amf3.readWith shallowRef) s b t) :
    DeepAtMost eMaxDepth s'.heap a := by
  rcases run with ⟨run, b, t, shallow⟩ | ⟨run, b, t, shallow⟩
  · exact Amf0.deepAtMost run shallow
  · exact Amf3.deepAtMost run shallow

theorem depth_bounded_of_shallow_references_shared :
    DeepAtMost eMaxDepth [.amf0 (.strictArray [1, 1]), .amf0 (.object {})] 0 :=
  depth_bounded_of_shallow_references { input := [10, 0, 0, 0, 2, 3, 0, 0, 9, 7, 0, 1] }
    { input := [], heap := [.amf0 (.strictArray [1, 1]), .amf0 (.object {})], refs := [(0, true), (1, true)],
      budget := { nodes := 3 } } 0 (.inl ⟨rfl, 0, _, rfl⟩)

/-- An AMF3 array of two: arrays nested 31 deep, and an array that refers to them. -/
def chainTwice : Bytes :=
  [9, 5, 1] ++ (List.replicate 30 [9, 3, 1]).flatten ++ [9, 1, 1] ++ [9, 3, 1] ++ [9, 2]

/-- A reference takes what it names a level deeper than it was read. -/
theorem depth_exceeded_by_reference :
    ∃ a s' n, Yields Amf3.read { input := chainTwice } a s' ∧ Path Cell.links s'.heap n a ∧ eMaxDepth < n := by
  have deep : (match Amf3.read { input := chainTwice } with
      | (.ok a, s') => fits Cell.links s'.heap eMaxDepth a
      | (.error _, _) => true) = false := by decide +kernel
  split at deep
  · rename_i a s' run
    have unbounded : ¬ ∀ n, Path Cell.links s'.heap n a → n ≤ eMaxDepth :=
      fun all => Bool.false_ne_true (deep.symm.trans ((fits_iff (by decide)).mpr all))
    simp only [not_forall, Nat.not_le] at unbounded
    obtain ⟨n, path, more⟩ := unbounded
    exact ⟨a, s', n, run, path, more⟩
  · cases deep

end Fms.Amf
