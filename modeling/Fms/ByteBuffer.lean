import Fms.Base.Bytes

namespace Fms
open ByteWire

def tryU8 : Bytes → Option (UInt8 × Bytes)
  | [] => none
  | b :: rest => some (b, rest)

/-- A fixed-width word of the cursor, in the byte order `value` reads. -/
def tryWord (width : Nat) (value : Bytes → Nat) (r : Bytes) : Option (UInt32 × Bytes) :=
  (takeBytes width r).map fun (bytes, rest) => (UInt32.ofNat (value bytes), rest)

def tryU24Be : Bytes → Option (UInt32 × Bytes) := tryWord 3 beNat

def tryU32Be : Bytes → Option (UInt32 × Bytes) := tryWord 4 beNat

def tryU32Le : Bytes → Option (UInt32 × Bytes) := tryWord 4 leNat

/-- `write_uint32_3`: the low 24 bits, big-endian. -/
def u24Be (v : UInt32) : Bytes := beBytes 3 v.toNat

/-- A `to_network` word written in native order: big-endian on the wire. -/
def u32Be (v : UInt32) : Bytes := beBytes 4 v.toNat

/-- `operator<<` of a word: native order, which the build asserts is little-endian. -/
def u32Le (v : UInt32) : Bytes := leBytes 4 v.toNat

def u16Le (v : UInt16) : Bytes := leBytes 2 v.toNat

@[simp] theorem length_u24Be (v : UInt32) : (u24Be v).length = 3 := length_beBytes _ _
@[simp] theorem length_u32Be (v : UInt32) : (u32Be v).length = 4 := length_beBytes _ _
@[simp] theorem length_u32Le (v : UInt32) : (u32Le v).length = 4 := length_leBytes _ _

theorem beNat_u32Be (v : UInt32) : beNat (u32Be v) = v.toNat := by
  rw [u32Be, beNat_beBytes]
  exact Nat.mod_eq_of_lt v.toNat_lt

theorem tryU32Be_u32Be (v : UInt32) (rest : Bytes) : tryU32Be (u32Be v ++ rest) = some (v, rest) := by
  simp only [tryU32Be, tryWord, takeBytes_append (length_u32Be v), Option.map_some, beNat_u32Be,
    UInt32.ofNat_toNat]

theorem tryU32Le_u32Le (v : UInt32) (rest : Bytes) : tryU32Le (u32Le v ++ rest) = some (v, rest) := by
  have bound : v.toNat % 256 ^ 4 = v.toNat := Nat.mod_eq_of_lt v.toNat_lt
  simp only [tryU32Le, tryWord, takeBytes_append (length_u32Le v), Option.map_some]
  rw [u32Le, leNat_leBytes, bound, UInt32.ofNat_toNat]

/-- A 24-bit field holds every value it can describe. -/
theorem tryU24Be_u24Be {v : UInt32} (small : v.toNat < 2 ^ 24) (rest : Bytes) :
    tryU24Be (u24Be v ++ rest) = some (v, rest) := by
  have bound : v.toNat % 256 ^ 3 = v.toNat := Nat.mod_eq_of_lt small
  simp only [tryU24Be, tryWord, takeBytes_append (length_u24Be v), Option.map_some]
  rw [u24Be, beNat_beBytes, bound, UInt32.ofNat_toNat]

theorem tryU8_local : Local tryU8 := by
  intro r b rest read
  cases r with
  | nil => cases read
  | cons c cs =>
    cases Option.some.inj read
    exact ⟨[b], rfl, fun more => rfl⟩

theorem tryWord_local (width : Nat) (value : Bytes → Nat) : Local (tryWord width value) :=
  (takeBytes_local width).map fun bytes => UInt32.ofNat (value bytes)

variable {r rest : Bytes}

theorem tryU8_length {b : UInt8} (read : tryU8 r = some (b, rest)) : rest.length < r.length := by
  cases r with
  | nil => cases read
  | cons c cs =>
    cases Option.some.inj read
    exact Nat.lt_succ_self _

/-- The loop of `read_vlu`, with the value read so far: seven bits a byte, refused once a
further byte could not fit 64 bits. -/
def readVluFrom (ret : Nat) : Bytes → Option (Nat × Bytes)
  | [] => none
  | a :: rest =>
    if ret / 2 ^ 57 ≠ 0 then none
    else
      let ret := ret * 128 + (a &&& 0x7f).toNat
      if a &&& 0x80 ≠ 0 then readVluFrom ret rest else some (ret, rest)

def readVlu : Bytes → Option (Nat × Bytes) := readVluFrom 0

theorem readVluFrom_used {ret v : Nat} (read : readVluFrom ret r = some (v, rest)) :
    ∃ a used, r = a :: used ++ rest ∧ ∀ more, readVluFrom ret (a :: used ++ more) = some (v, more) := by
  induction r generalizing ret with
  | nil => cases read
  | cons a tail ih =>
    unfold readVluFrom at read
    split at read
    · cases read
    · rename_i fits
      dsimp only at read
      split at read
      · rename_i more
        obtain ⟨b, used, rfl, again⟩ := ih read
        refine ⟨a, b :: used, rfl, fun rest => ?_⟩
        rw [List.cons_append, readVluFrom, if_neg fits]
        simp only [more, ne_eq, not_false_eq_true, if_true]
        exact again rest
      · rename_i last
        cases Option.some.inj read
        refine ⟨a, [], rfl, fun rest => ?_⟩
        rw [List.cons_append, readVluFrom, if_neg fits]
        simp only [last, if_false, List.nil_append]

theorem readVlu_local : Local readVlu := by
  intro r v rest read
  obtain ⟨a, used, split, again⟩ := readVluFrom_used read
  exact ⟨a :: used, split, again⟩

theorem readVlu_length {v : Nat} (read : readVlu r = some (v, rest)) : rest.length < r.length := by
  obtain ⟨a, used, split, _⟩ := readVluFrom_used read
  rw [split]
  simp only [List.cons_append, List.length_cons, List.length_append]
  omega

/-- `vlu_size`: how many groups of seven bits a number takes; a 64-bit one at most ten. -/
def vluSizeFrom : Nat → Nat → Nat
  | 0, _ => 1
  | fuel + 1, v => if v / 128 ≠ 0 then vluSizeFrom fuel (v / 128) + 1 else 1

def vluSize (v : Nat) : Nat := vluSizeFrom 9 v

/-- The loop of `write_vlu` from a group on, the highest first. -/
def writeVluFrom (v : Nat) : Nat → Bytes
  | 0 => [UInt8.ofNat (v % 128)]
  | group + 1 => (0x80 ||| UInt8.ofNat (v / 128 ^ (group + 1) % 128)) :: writeVluFrom v group

def writeVlu (v : Nat) : Bytes := writeVluFrom v (vluSize v - 1)

theorem vluSizeFrom_pos (fuel v : Nat) : 1 ≤ vluSizeFrom fuel v := by
  cases fuel with
  | zero => exact Nat.le_refl 1
  | succ fuel =>
    rw [vluSizeFrom]
    split <;> omega

theorem lt_vluSizeFrom {fuel v : Nat} (fits : v < 128 ^ (fuel + 1)) : v < 128 ^ vluSizeFrom fuel v := by
  induction fuel generalizing v with
  | zero => exact fits
  | succ fuel ih =>
    rw [vluSizeFrom]
    split
    · have later := ih (v := v / 128) (by rw [Nat.div_lt_iff_lt_mul (by decide), ← pow_succ]; exact fits)
      rw [Nat.div_lt_iff_lt_mul (by decide), ← pow_succ] at later
      exact later
    · rw [pow_one]
      omega

theorem vluSizeFrom_le {fuel v k : Nat} (small : v < 128 ^ (k + 1)) : vluSizeFrom fuel v ≤ k + 1 := by
  induction fuel generalizing v k with
  | zero => exact Nat.succ_le_succ (Nat.zero_le k)
  | succ fuel ih =>
    rw [vluSizeFrom]
    split
    · rename_i more
      cases k with
      | zero =>
        rw [pow_one] at small
        omega
      | succ k =>
        have later := ih (v := v / 128) (k := k) (by rw [Nat.div_lt_iff_lt_mul (by decide), ← pow_succ]; exact small)
        omega
    · omega

theorem length_writeVluFrom (v group : Nat) : (writeVluFrom v group).length = group + 1 := by
  induction group with
  | zero => rfl
  | succ group ih => rw [writeVluFrom, List.length_cons, ih]

theorem length_writeVlu (v : Nat) : (writeVlu v).length = vluSize v := by
  have positive := vluSizeFrom_pos 9 v
  rw [writeVlu, length_writeVluFrom, vluSize]
  omega

/-- A group with the continuation bit, and without it. -/
theorem vlu_group (x : Fin 128) :
    ((0x80 ||| UInt8.ofNat x) &&& 0x7f).toNat = x ∧ (0x80 ||| UInt8.ofNat x) &&& 0x80 ≠ 0 ∧
      (UInt8.ofNat x &&& 0x7f).toNat = x ∧ UInt8.ofNat x &&& 0x80 = 0 := by
  revert x
  decide

theorem readVluFrom_write {v ret : Nat} (group : Nat)
    (fits : ret * 128 ^ (group + 1) + v % 128 ^ (group + 1) < 2 ^ 64) (rest : Bytes) :
    readVluFrom ret (writeVluFrom v group ++ rest) = some
      (ret * 128 ^ (group + 1) + v % 128 ^ (group + 1), rest) := by
  induction group generalizing ret with
  | zero =>
    obtain ⟨_, _, value, last⟩ := vlu_group ⟨v % 128, Nat.mod_lt _ (by decide)⟩
    dsimp only at value last
    rw [zero_add, pow_one] at fits ⊢
    have room : ret / 2 ^ 57 = 0 := Nat.div_eq_of_lt (by omega)
    simp only [writeVluFrom, List.cons_append, List.nil_append, readVluFrom, room, ne_eq, not_true, if_false, value,
      last]
  | succ group ih =>
    obtain ⟨value, more, _, _⟩ := vlu_group ⟨v / 128 ^ (group + 1) % 128, Nat.mod_lt _ (by decide)⟩
    dsimp only at value more
    have digits : ret * 128 ^ (group + 2) + v % 128 ^ (group + 2) =
        (ret * 128 + v / 128 ^ (group + 1) % 128) * 128 ^ (group + 1) + v % 128 ^ (group + 1) := by
      rw [Nat.mod_pow_succ (x := v) (b := 128) (k := group + 1)]
      ring
    have room : ret / 2 ^ 57 = 0 := by
      refine Nat.div_eq_of_lt ?_
      have grows : ret * 128 ≤ ret * 128 ^ (group + 1 + 1) := Nat.mul_le_mul_left ret (Nat.le_self_pow (by omega) 128)
      have less := lt_of_le_of_lt (grows.trans (Nat.le_add_right ..)) fits
      omega
    rw [digits] at fits ⊢
    rw [writeVluFrom, List.cons_append, readVluFrom, if_neg (not_not_intro room)]
    simp only [more, ne_eq, not_false_eq_true, if_true, value]
    exact ih fits

theorem readVlu_writeVlu {v : Nat} (fits : v < 2 ^ 64)
    (rest : Bytes) : readVlu (writeVlu v ++ rest) = some (v, rest) := by
  have positive := vluSizeFrom_pos 9 v
  have below : v < 128 ^ (vluSize v - 1 + 1) := by
    rw [show vluSize v - 1 + 1 = vluSize v by unfold vluSize; omega]
    exact lt_vluSizeFrom (by omega)
  have whole := Nat.mod_eq_of_lt below
  have read : readVluFrom 0 (writeVluFrom v (vluSize v - 1) ++ rest) = _ := readVluFrom_write _ (by omega) rest
  rw [zero_mul, zero_add, whole] at read
  exact read

/-- The number that stands first in the bytes: its groups, the last one without the continuation bit, and
what follows it. -/
def leadingVlu : Bytes → Option (Bytes × Bytes)
  | [] => none
  | a :: rest =>
    if a &&& 0x80 ≠ 0 then (leadingVlu rest).map fun (groups, rest) => (a :: groups, rest) else some ([a], rest)

/-- What its groups say to base 128, behind a number read so far. -/
def vluValue (ret : Nat) (groups : Bytes) : Nat := groups.foldl (fun ret a => ret * 128 + (a &&& 0x7f).toNat) ret

theorem le_vluValue (ret : Nat) (groups : Bytes) : ret ≤ vluValue ret groups := by
  induction groups generalizing ret with
  | nil => exact Nat.le_refl ret
  | cons a groups ih =>
    have later := ih (ret * 128 + (a &&& 0x7f).toNat)
    rw [vluValue, List.foldl_cons]
    exact Nat.le_trans (by omega) later

/-- A further group makes a number that no longer has room for one too big. -/
theorem large_vluValue {ret : Nat} {a : UInt8} {groups : Bytes} (full : ret / 2 ^ 57 ≠ 0) :
    2 ^ 64 ≤ vluValue ret (a :: groups) := by
  have grows := le_vluValue (ret * 128 + (a &&& 0x7f).toNat) groups
  rw [vluValue, List.foldl_cons]
  exact Nat.le_trans (by omega) grows

theorem leadingVlu_cons {r groups rest : Bytes} (leading : leadingVlu r = some (groups, rest)) : groups ≠ [] := by
  cases r with
  | nil => cases leading
  | cons a r =>
    rw [leadingVlu] at leading
    split at leading
    · obtain ⟨⟨groups, rest⟩, _, same⟩ := Option.map_eq_some_iff.mp leading
      cases same
      exact List.cons_ne_nil _ _
    · cases leading
      exact List.cons_ne_nil _ _

theorem readVluFrom_eq (ret : Nat) (r : Bytes) :
    readVluFrom ret r = (leadingVlu r).bind fun (groups, rest) =>
      if vluValue ret groups < 2 ^ 64 then some (vluValue ret groups, rest) else none := by
  induction r generalizing ret with
  | nil => rfl
  | cons a r ih =>
    rw [readVluFrom]
    by_cases full : ret / 2 ^ 57 ≠ 0
    · rw [if_pos full]
      cases leading : leadingVlu (a :: r) with
      | none => rfl
      | some number =>
        obtain ⟨groups, rest⟩ := number
        cases groups with
        | nil => exact absurd rfl (leadingVlu_cons leading)
        | cons b groups => exact (if_neg (Nat.not_lt.mpr (large_vluValue full))).symm
    · have low : (a &&& 0x7f).toNat < 128 := by
        rw [UInt8.toNat_and]
        exact Nat.lt_of_le_of_lt Nat.and_le_right (by decide)
      have next : ret * 128 + (a &&& 0x7f).toNat < 2 ^ 64 := by omega
      rw [if_neg full, leadingVlu]
      by_cases more : a &&& 0x80 ≠ 0
      · simp only [if_pos more]
        rw [ih]
        cases leadingVlu r with
        | none => rfl
        | some number => rfl
      · simp only [if_neg more]
        exact (if_pos next).symm

/-- `read_vlu` gives back what `write_vlu` wrote, which takes `vlu_size` bytes, and leaves what follows; from
whatever bytes, it gives the number that stands first in them if that has an end and fits 64 bits, and fails
otherwise. -/
theorem vlu_exact :
    (∀ (v : UInt64) (t : Bytes), readVlu (writeVlu v.toNat ++ t) = some (v.toNat, t) ∧
      (writeVlu v.toNat).length = vluSize v.toNat) ∧
    ∀ r, readVlu r = (leadingVlu r).bind fun (groups, rest) =>
      if vluValue 0 groups < 2 ^ 64 then some (vluValue 0 groups, rest) else none := by
  exact ⟨fun v t => ⟨readVlu_writeVlu v.toNat_lt t, length_writeVlu _⟩, readVluFrom_eq 0⟩

/-- Three bytes, and one more for each 2^21. -/
theorem length_writeVlu_le {v : Nat} (fits : v < 2 ^ 32) : (writeVlu v).length ≤ 3 + v / 2 ^ 21 := by
  rw [length_writeVlu, vluSize]
  by_cases small : v < 2 ^ 21
  · have size : vluSizeFrom 9 v ≤ 2 + 1 := vluSizeFrom_le (by omega)
    omega
  · by_cases medium : v < 2 ^ 28
    · have size : vluSizeFrom 9 v ≤ 3 + 1 := vluSizeFrom_le (by omega)
      omega
    · have size : vluSizeFrom 9 v ≤ 4 + 1 := vluSizeFrom_le (by omega)
      omega

/-- `byte_writer`: the stored bytes, the consumed prefix not reclaimed yet and the
bytes reserved by `write_buffer`. The read offset never passes the end. -/
structure ByteWriter where
  buf : Bytes := []
  readPos : Nat := 0
  reserved : Nat := 0
  within : readPos ≤ buf.length := by simp

namespace ByteWriter

def data (w : ByteWriter) : Bytes := w.buf.drop w.readPos

def size (w : ByteWriter) : Nat := w.buf.length - w.readPos

def write (w : ByteWriter) (src : Bytes) : ByteWriter :=
  { w with
    buf := w.buf ++ src
    within := Nat.le_trans w.within (by simp) }

/-- Drop the first `n` parsed bytes; the bound is the assertion of the source. The
dead prefix is reclaimed when the buffer is drained or when it reaches half of it. -/
def consume (w : ByteWriter) (n : Nat) (bound : n ≤ w.size) : ByteWriter :=
  have inside : w.readPos + n ≤ w.buf.length := by
    have := w.within
    unfold size at bound
    omega
  if w.readPos + n = w.buf.length then
    { w with buf := [], readPos := 0, within := Nat.zero_le _ }
  else if (w.readPos + n) * 2 ≥ w.buf.length then
    { w with buf := w.buf.drop (w.readPos + n), readPos := 0, within := Nat.zero_le _ }
  else
    { w with readPos := w.readPos + n, within := inside }

@[simp] theorem length_data (w : ByteWriter) : w.data.length = w.size := by
  simp [data, size]

@[simp] theorem data_write (w : ByteWriter) (src : Bytes) : (w.write src).data = w.data ++ src := by
  simp only [data, write]
  rw [List.drop_append_of_le_length w.within]

@[simp] theorem data_consume (w : ByteWriter) (n : Nat) (bound : n ≤ w.size) :
    (w.consume n bound).data = w.data.drop n := by
  unfold consume
  split
  · rename_i drained
    simp [data, drained]
  · split <;> simp [data, Nat.add_comm]

end ByteWriter
end Fms
