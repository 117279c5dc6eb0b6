import Fms.Base.Bytes
import Fms.Base.SortedBy
import Mathlib.Data.List.Forall2
import Mathlib.Data.List.Lex

namespace Fms.Amf
open ByteWire

/-- Strings compare by their bytes, taken as unsigned. -/
def byteOrder {α : Type} (entry : Bytes × α) : List Nat := entry.1.map UInt8.toNat

/-- `std::map<std::string, ...>`. -/
abbrev StringMap (α : Type) := SortedBy (byteOrder (α := α))

/-- The AMF3 types that contain no other value. Doubles and dates are kept as the 64-bit
pattern, `int` vectors as the 32-bit patterns of their elements. -/
inductive Scalar3
  | undefined
  | null
  | boolean (value : Bool)
  | integer (value : UInt32)
  | double (bits : UInt64)
  | string (value : Bytes)
  | xmlDoc (value : Bytes)
  | xml (value : Bytes)
  | date (bits : UInt64)
  | byteArray (bytes : Bytes)
  | vectorInt (fixed : Bool) (values : List UInt32)
  | vectorUint (fixed : Bool) (values : List UInt32)
  | vectorDouble (fixed : Bool) (values : List UInt64)
  deriving DecidableEq

/-- One AMF3 value, over what stands for the values it contains. -/
inductive Node3 (α : Type)
  | scalar (value : Scalar3)
  | array (assoc : StringMap α) (dense : List α)
  | object (members : StringMap α)
  | vectorObject (fixed : Bool) (typeName : Bytes) (values : List α)
  | dictionary (weakKeys : Bool) (entries : List (α × α))

inductive Scalar0
  | number (bits : UInt64)
  | boolean (value : Bool)
  | string (value : Bytes)
  | null
  | undefined
  | date (bits : UInt64)
  | longString (data : Bytes)
  | unsupported
  | xmlDocument (value : Bytes)
  deriving DecidableEq

/-- The members of an `amf0_object`: in the order they were added, by unique names. -/
structure Members (α : Type) where
  entries : List (Bytes × α) := []
  distinct : (entries.map Prod.fst).Nodup := by exact .nil

/-- `push_back` of the two-way index: a name that is there already is refused. -/
def Members.addEntry {α : Type} (m : Members α) (key : Bytes) (value : α) : Members α :=
  if known : key ∈ m.entries.map Prod.fst then m
  else
    { entries := m.entries ++ [(key, value)]
      distinct := by
        rw [List.map_append, List.nodup_append]
        refine ⟨m.distinct, List.nodup_singleton _, fun name member last isLast same => known ?_⟩
        rw [same, List.mem_singleton.mp isLast] at member
        exact member }

/-- One AMF0 value, over the AMF0 and AMF3 values it contains. -/
inductive Node0 (α β : Type)
  | scalar (value : Scalar0)
  | object (members : Members α)
  | ecmaArray (entries : List (Bytes × α))
  | strictArray (values : List α)
  | typedObject (className : Bytes) (members : Members α)
  | amf3Container (data : β)

def Value3 : Nat → Type
  | 0 => Empty
  | d + 1 => Node3 (Value3 d)

def Value0 : Nat → Type
  | 0 => Empty
  | d + 1 => Node0 (Value0 d) (Value3 d)

/-- A heap object: a value that refers to the values it contains by their addresses. -/
inductive Cell
  | amf0 (node : Node0 Nat Nat)
  | amf3 (node : Node3 Nat)

def Node3.links {α : Type} : Node3 α → List α
  | .scalar _ => []
  | .array assoc dense => assoc.elems.map Prod.snd ++ dense
  | .object members => members.elems.map Prod.snd
  | .vectorObject _ _ values => values
  | .dictionary _ entries => entries.flatMap fun (key, value) => [key, value]

def Node0.links {α β : Type} : Node0 α β → List α
  | .scalar _ => []
  | .object members => members.entries.map Prod.snd
  | .ecmaArray entries => entries.map Prod.snd
  | .strictArray values => values
  | .typedObject _ members => members.entries.map Prod.snd
  | .amf3Container _ => []

def Node0.container {α β : Type} : Node0 α β → List β
  | .amf3Container data => [data]
  | _ => []

def Cell.links : Cell → List Nat
  | .amf0 node => node.links ++ node.container
  | .amf3 node => node.links

/-- Entries with the same keys and related values. -/
def Entries {α β : Type} (R : α → β → Prop) : List (Bytes × α) → List (Bytes × β) → Prop :=
  List.Forall₂ fun p q => p.1 = q.1 ∧ R p.2 q.2

/-- Two nodes alike but for the values they contain, which are related one by one. -/
inductive Node3.Rel {α β : Type} (R : α → β → Prop) : Node3 α → Node3 β → Prop
  | scalar (value : Scalar3) : Rel R (.scalar value) (.scalar value)
  | array {assoc dense assoc' dense'} : Entries R assoc.elems assoc'.elems → List.Forall₂ R dense dense' →
    Rel R (.array assoc dense) (.array assoc' dense')
  | object {members members'} : Entries R members.elems members'.elems → Rel R (.object members) (.object members')
  | vectorObject {fixed typeName values values'} : List.Forall₂ R values values' →
    Rel R (.vectorObject fixed typeName values) (.vectorObject fixed typeName values')
  | dictionary {weakKeys entries entries'} : List.Forall₂ (fun p q => R p.1 q.1 ∧ R p.2 q.2) entries entries' →
    Rel R (.dictionary weakKeys entries) (.dictionary weakKeys entries')

inductive Node0.Rel {α β γ δ : Type} (R : α → γ → Prop) (S : β → δ → Prop) : Node0 α β → Node0 γ δ → Prop
  | scalar (value : Scalar0) : Rel R S (.scalar value) (.scalar value)
  | object {members members'} : Entries R members.entries members'.entries →
      Rel R S (.object members) (.object members')
  | ecmaArray {entries entries'} : Entries R entries entries' → Rel R S (.ecmaArray entries) (.ecmaArray entries')
  | strictArray {values values'} : List.Forall₂ R values values' →
    Rel R S (.strictArray values) (.strictArray values')
  | typedObject {className members members'} : Entries R members.entries members'.entries →
    Rel R S (.typedObject className members) (.typedObject className members')
  | amf3Container {data data'} : S data data' → Rel R S (.amf3Container data) (.amf3Container data')

/-- The cell at the address shows that tree, all of it stored at `lo` or above. -/
def Shows3 (heap : List Cell) (lo : Nat) : (d : Nat) → Nat → Value3 d → Prop
  | 0, _, _ => False
  | d + 1, a, v => lo ≤ a ∧ ∃ node, heap[a]? = some (.amf3 node) ∧ Node3.Rel (Shows3 heap lo d) node v

def Shows0 (heap : List Cell) (lo : Nat) : (d : Nat) → Nat → Value0 d → Prop
  | 0, _, _ => False
  | d + 1, a, v =>
    lo ≤ a ∧ ∃ node, heap[a]? = some (.amf0 node) ∧ Node0.Rel (Shows0 heap lo d) (Shows3 heap lo d) node v

end Fms.Amf
