import Mathlib.Data.Nat.ModEq
import Mathlib.Tactic.Ring

namespace ByteWire

/-- A byte string, as it stands in a buffer or on the wire. -/
abbrev Bytes := List UInt8

/-- What 64-bit unsigned arithmetic keeps of a number. -/
def wrap64 (n : Nat) : Nat := n % 2 ^ 64

/-- The `width` low bytes of a number, most significant first. -/
def beBytes : Nat → Nat → Bytes
  | 0, _ => []
  | width + 1, n => UInt8.ofNat (n / 256 ^ width) :: beBytes width n

/-- The number a byte string spells, most significant byte first. -/
def beNat (bytes : Bytes) : Nat := bytes.foldl (fun acc b => acc * 256 + b.toNat) 0

def leBytes (width n : Nat) : Bytes := (beBytes width n).reverse

def leNat (bytes : Bytes) : Nat := beNat bytes.reverse

theorem toNat_word {n : Nat} (small : n < 2 ^ 32) : (UInt32.ofNat n).toNat = n := UInt32.toNat_ofNat_of_lt' small

@[simp] theorem length_beBytes (width n : Nat) : (beBytes width n).length = width := by
  induction width with
  | zero => rfl
  | succ width ih => simp only [beBytes, List.length_cons, ih]

@[simp] theorem length_leBytes (width n : Nat) : (leBytes width n).length = width := by
  simp only [leBytes, List.length_reverse, length_beBytes]

theorem foldl_beBytes (width n acc : Nat) :
    (beBytes width n).foldl (fun acc b => acc * 256 + b.toNat) acc = acc * 256 ^ width + n % 256 ^ width := by
  induction width generalizing acc with
  | zero => simp [beBytes, Nat.mod_one]
  | succ width ih =>
    have split := Nat.mod_pow_succ (x := n) (b := 256) (k := width)
    simp only [beBytes, List.foldl_cons, ih, UInt8.toNat_ofNat', split]
    ring

theorem beNat_beBytes (width n : Nat) : beNat (beBytes width n) = n % 256 ^ width := by
  simp only [beNat, foldl_beBytes, Nat.zero_mul, Nat.zero_add]

theorem leNat_leBytes (width n : Nat) : leNat (leBytes width n) = n % 256 ^ width := by
  simp only [leNat, leBytes, List.reverse_reverse, beNat_beBytes]

/-- Cut the first `n` bytes off; nothing when there are not that many. -/
def takeBytes (n : Nat) (input : Bytes) : Option (Bytes × Bytes) :=
  if input.length < n then none else some (input.take n, input.drop n)

theorem takeBytes_append {n : Nat} {bytes : Bytes} (length : bytes.length = n) (rest : Bytes) :
    takeBytes n (bytes ++ rest) = some (bytes, rest) := by
  subst length
  simp [takeBytes]

theorem takeBytes_some {n : Nat} {input bytes rest : Bytes} (cut : takeBytes n input = some (bytes, rest)) :
    input = bytes ++ rest ∧ bytes.length = n := by
  unfold takeBytes at cut
  split at cut
  · simp at cut
  · rename_i enough
    cases Option.some.inj cut
    exact ⟨(List.take_append_drop n input).symm, by simp; omega⟩

theorem takeBytes_none {n : Nat} {input : Bytes} : takeBytes n input = none ↔ input.length < n := by
  unfold takeBytes
  split <;> simp_all

/-- A reader that looks at nothing but the bytes it consumes: what it read and how
much of the input it took do not depend on what follows. -/
def Local {α : Type} (read : Bytes → Option (α × Bytes)) : Prop :=
  ∀ ⦃r a rest⦄, read r = some (a, rest) → ∃ used, r = used ++ rest ∧ ∀ more, read (used ++ more) = some (a, more)

namespace Local
variable {α β : Type} {read : Bytes → Option (α × Bytes)}

theorem extend (isLocal : Local read) {r rest : Bytes} {a : α} (got : read r = some (a, rest)) (more : Bytes) :
    read (r ++ more) = some (a, rest ++ more) := by
  obtain ⟨used, rfl, again⟩ := isLocal got
  rw [List.append_assoc, again]

theorem suffix (isLocal : Local read) {r rest : Bytes} {a : α} (got : read r = some (a, rest)) : rest <:+ r := by
  obtain ⟨used, rfl, _⟩ := isLocal got
  exact List.suffix_append used rest

/-- A local reader that succeeds on `body ++ rest` either reads the same in the body alone
or runs past its end. -/
theorem append_cases (isLocal : Local read) {body rest r : Bytes} {a : α} (got : read (body ++ rest) = some (a, r)) :
    (∃ left, read body = some (a, left) ∧ r = left ++ rest) ∨ (read body = none ∧ r.length < rest.length) := by
  obtain ⟨used, whole, again⟩ := isLocal got
  cases own : read body with
  | some result =>
    obtain ⟨a', left⟩ := result
    have same := isLocal.extend own rest
    rw [got, Option.some.injEq, Prod.mk.injEq] at same
    obtain ⟨rfl, rfl⟩ := same
    exact .inl ⟨left, rfl, rfl⟩
  | none =>
    rcases List.append_eq_append_iff.mp whole with ⟨extra, rfl, rfl⟩ | ⟨left, rfl, _⟩
    · cases extra with
      | nil =>
        have alone := again []
        simp only [List.append_nil, own] at alone
        cases alone
      | cons b extra => exact .inr ⟨rfl, by simp only [List.length_append, List.length_cons]; omega⟩
    · cases own.symm.trans (again left)

theorem pure (a : α) : Local fun r => some (a, r) := by
  intro r a' rest got
  cases Option.some.inj got
  exact ⟨[], rfl, fun more => rfl⟩

theorem bind (isLocal : Local read) {next : α × Bytes → Option (β × Bytes)}
    (each : ∀ a, Local fun r => next (a, r)) : Local fun r => read r >>= next := by
  intro r b rest got
  obtain ⟨⟨a, middle⟩, first, second⟩ := Option.bind_eq_some_iff.mp got
  obtain ⟨used, rfl, again⟩ := isLocal first
  obtain ⟨used', rfl, again'⟩ := each a second
  refine ⟨used ++ used', (List.append_assoc _ _ _).symm, fun more => ?_⟩
  show read (used ++ used' ++ more) >>= next = _
  rw [List.append_assoc, again]
  exact again' more

theorem map (isLocal : Local read) (f : α → β) : Local fun r => (read r).map fun (a, rest) => (f a, rest) := by
  intro r b rest got
  obtain ⟨⟨a, middle⟩, first, same⟩ := Option.map_eq_some_iff.mp got
  cases same
  obtain ⟨used, rfl, again⟩ := isLocal first
  exact ⟨used, rfl, fun more => by simp only [again, Option.map_some]⟩

end Local

theorem takeBytes_local (n : Nat) : Local (takeBytes n) := by
  intro r bytes rest cut
  obtain ⟨rfl, length⟩ := takeBytes_some cut
  exact ⟨bytes, rfl, takeBytes_append length⟩

end ByteWire
