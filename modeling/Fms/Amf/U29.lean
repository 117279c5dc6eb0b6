import Fms.Amf.Amf3
import Mathlib.Data.Nat.Bitwise
import Mathlib.Data.FinEnum

namespace Fms.Amf.Amf3
open ByteWire

/-- The sign extension of a 29-bit number: bits 28 to 31 are the same. -/
def Int29 (value : UInt32) : Prop := value.toNat < 2 ^ 28 ∨ 2 ^ 32 - 2 ^ 28 ≤ value.toNat

instance (value : UInt32) : Decidable (Int29 value) := inferInstanceAs (Decidable (_ ∨ _))

theorem more_bit : ∀ b : UInt8, (b ||| 0x80) &&& 0x80 ≠ 0 := by decide +kernel

theorem seven_bits : ∀ b : UInt8, ((b ||| 0x80) &&& 0x7f).toNat = b.toNat % 128 := by decide +kernel

theorem seven_bits_lt : ∀ b : UInt8, (b &&& 0x7f).toNat < 128 := by decide +kernel

theorem last_bit : ∀ b : UInt8, b.toNat < 128 → b &&& 0x80 = 0 := by decide +kernel

theorem last_bit_lt : ∀ b : UInt8, b &&& 0x80 = 0 → b.toNat < 128 := by decide +kernel

theorem high_mask {n k : Nat} (word : n < 2 ^ 32) (inside : k ≤ 32) : n &&& (2 ^ 32 - 2 ^ k) = 0 ↔ n < 2 ^ k := by
  have shifted : 2 ^ 32 - 2 ^ k = (2 ^ (32 - k) - 1) <<< k := by
    rw [Nat.shiftLeft_eq, Nat.sub_mul, ← pow_add, Nat.sub_add_cancel inside, one_mul]
  have beyond {m e i : Nat} (small : m < 2 ^ e) (high : e ≤ i) : m.testBit i = false :=
    Nat.testBit_lt_two_pow (small.trans_le (Nat.pow_le_pow_right (by decide) high))
  rw [shifted]
  constructor
  · intro clear
    refine Nat.lt_pow_two_of_testBit n fun i high => ?_
    have bit := congrArg (fun m => m.testBit i) clear
    simp only [Nat.testBit_and, Nat.testBit_shiftLeft, Nat.testBit_two_pow_sub_one, high, decide_true, Bool.true_and,
      Nat.zero_testBit, Bool.and_eq_false_iff, decide_eq_false_iff_not] at bit
    rcases bit with off | out
    · exact off
    · exact beyond word (by omega)
  · intro small
    refine Nat.eq_of_testBit_eq fun i => ?_
    rw [Nat.testBit_and, Nat.testBit_shiftLeft, Nat.zero_testBit]
    by_cases high : k ≤ i
    · rw [beyond small high, Bool.false_and]
    · simp [high]

theorem high_bits (value mask : UInt32) {k : Nat} (inside : k ≤ 32) (isMask : mask.toNat = 2 ^ 32 - 2 ^ k) :
    value &&& mask = 0 ↔ value.toNat < 2 ^ k := by
  rw [← UInt32.toNat_inj, UInt32.toNat_and, isMask]
  exact high_mask value.toNat_lt inside

theorem toNat_shift_or {ret x shift : UInt32} {k : Nat} (isShift : shift.toNat % 32 = k)
    (small : ret.toNat * 2 ^ k < 2 ^ 32) (low : x.toNat < 2 ^ k) :
    (ret <<< shift ||| x).toNat = ret.toNat * 2 ^ k + x.toNat := by
  rw [UInt32.toNat_or, UInt32.toNat_shiftLeft, isShift, Nat.shiftLeft_eq, Nat.mod_eq_of_lt small, ← Nat.shiftLeft_eq,
    ← Nat.shiftLeft_add_eq_or_of_lt low]

theorem readU29From_more (ret : UInt32) (cnt : Nat) (small : ret.toNat < 2 ^ 21) (early : cnt < 4) (b : UInt8)
    (rest : Bytes) :
    ∃ next : UInt32, readU29From ret cnt ((b ||| 0x80) :: rest) = readU29From next (cnt + 1) rest ∧
      next.toNat = ret.toNat * 2 ^ 7 + b.toNat % 128 := by
  have low := seven_bits b
  refine ⟨ret <<< 7 ||| ((b ||| 0x80) &&& 0x7f).toUInt32, ?_, ?_⟩
  · rw [readU29From, if_pos ⟨more_bit b, early⟩]
  · rw [toNat_shift_or (k := 7) rfl (by omega) (by rw [UInt8.toNat_toUInt32]; omega), UInt8.toNat_toUInt32, low]

theorem readU29From_last (ret : UInt32) (cnt : Nat) (small : ret.toNat < 2 ^ 21) (early : cnt < 4) {b : UInt8}
    (last : b.toNat < 128) (rest : Bytes) :
    ∃ read : UInt32, readU29From ret cnt (b :: rest) = some (read, rest) ∧
      read.toNat = ret.toNat * 2 ^ 7 + b.toNat := by
  refine ⟨ret <<< 7 ||| b.toUInt32, ?_, ?_⟩
  · rw [readU29From, if_neg fun more => more.1 (last_bit b last), if_pos early]
  · rw [toNat_shift_or (k := 7) rfl (by omega) (by rw [UInt8.toNat_toUInt32]; omega), UInt8.toNat_toUInt32]

theorem readU29From_fourth (ret : UInt32) (small : ret.toNat < 2 ^ 21) (b : UInt8) (rest : Bytes) :
    ∃ read : UInt32, readU29From ret 4 (b :: rest) = some (read, rest) ∧
      read.toNat = ret.toNat * 2 ^ 8 + b.toNat := by
  have byte := b.toNat_lt
  refine ⟨ret <<< 8 ||| b.toUInt32, ?_, ?_⟩
  · rw [readU29From, if_neg fun more => Nat.lt_irrefl 4 more.2, if_neg (Nat.lt_irrefl 4)]
  · rw [toNat_shift_or (k := 8) rfl (by omega) (by rw [UInt8.toNat_toUInt32]; omega), UInt8.toNat_toUInt32]

/-- The low byte of a shifted word, with the bit that announces another one. -/
theorem toUInt8_more (value : UInt32) : (value ||| 0x80).toUInt8 = value.toUInt8 ||| 0x80 := by
  simp

theorem toNat_low (value shift : UInt32) {k : Nat} (isShift : shift.toNat % 32 = k) :
    (value >>> shift).toUInt8.toNat = value.toNat / 2 ^ k % 256 := by
  rw [UInt32.toNat_toUInt8, UInt32.toNat_shiftRight, isShift, Nat.shiftRight_eq_div_pow]

theorem toNat_seven (value : UInt32) : (value &&& 0x7f).toUInt8.toNat = value.toNat % 128 := by
  rw [UInt32.toNat_toUInt8, UInt32.toNat_and]
  have low : value.toNat &&& (0x7f : UInt32).toNat = value.toNat % 2 ^ 7 :=
    Nat.and_two_pow_sub_one_eq_mod value.toNat 7
  rw [low]
  omega

theorem toNat_eight (value : UInt32) : (value &&& 0xff).toUInt8.toNat = value.toNat % 256 := by
  rw [UInt32.toNat_toUInt8, UInt32.toNat_and]
  have low : value.toNat &&& (0xff : UInt32).toNat = value.toNat % 2 ^ 8 :=
    Nat.and_two_pow_sub_one_eq_mod value.toNat 8
  rw [low]
  omega

/-- What `write_integer` writes is read back but for the three highest bits. -/
theorem readU29_writeInteger (value : UInt32) (rest : Bytes) :
    ∃ read : UInt32, readU29 (writeInteger value ++ rest) = some (read, rest) ∧
      read.toNat = value.toNat % 2 ^ 29 := by
  have word := value.toNat_lt
  have seven := toNat_seven value
  have zero : (0 : UInt32).toNat = 0 := rfl
  have fits7 := high_bits value 0xffffff80 (k := 7) (by decide) (by decide)
  have fits14 := high_bits value 0xffffc000 (k := 14) (by decide) (by decide)
  have fits21 := high_bits value 0xffe00000 (k := 21) (by decide) (by decide)
  simp only [readU29, writeInteger, fits7, fits14, fits21, toUInt8_more]
  have start : (0 : UInt32).toNat < 2 ^ 21 := by decide
  have low : (value &&& 0x7f).toUInt8.toNat < 128 := by omega
  split
  · obtain ⟨read, done, number⟩ := readU29From_last 0 1 start (by decide) low rest
    exact ⟨read, done, by omega⟩
  · split
    · have first := toNat_low value 7 (k := 7) rfl
      obtain ⟨one, next, top⟩ := readU29From_more 0 1 start (by decide) (value >>> 7).toUInt8
        ((value &&& 0x7f).toUInt8 :: rest)
      obtain ⟨read, done, number⟩ := readU29From_last one 2 (by omega) (by decide) low rest
      exact ⟨read, next.trans done, by omega⟩
    · split
      · have first := toNat_low value 14 (k := 14) rfl
        have second := toNat_low value 7 (k := 7) rfl
        obtain ⟨one, next, top⟩ := readU29From_more 0 1 start (by decide) (value >>> 14).toUInt8
          (((value >>> 7).toUInt8 ||| 0x80) :: (value &&& 0x7f).toUInt8 :: rest)
        obtain ⟨two, next', middle⟩ := readU29From_more one 2 (by omega) (by decide)
          (value >>> 7).toUInt8 ((value &&& 0x7f).toUInt8 :: rest)
        obtain ⟨read, done, number⟩ := readU29From_last two 3 (by omega) (by decide) low rest
        exact ⟨read, next.trans (next'.trans done), by omega⟩
      · have first := toNat_low value 22 (k := 22) rfl
        have second := toNat_low value 15 (k := 15) rfl
        have third := toNat_low value 8 (k := 8) rfl
        have eight := toNat_eight value
        obtain ⟨one, next, top⟩ := readU29From_more 0 1 start (by decide) (value >>> 22).toUInt8
          (((value >>> 15).toUInt8 ||| 0x80) :: ((value >>> 8).toUInt8 ||| 0x80) :: (value &&& 0xff).toUInt8 :: rest)
        obtain ⟨two, next', upper⟩ := readU29From_more one 2 (by omega) (by decide)
          (value >>> 15).toUInt8 (((value >>> 8).toUInt8 ||| 0x80) :: (value &&& 0xff).toUInt8 :: rest)
        obtain ⟨three, next'', lower⟩ := readU29From_more two 3 (by omega) (by decide)
          (value >>> 8).toUInt8 ((value &&& 0xff).toUInt8 :: rest)
        obtain ⟨read, done, number⟩ := readU29From_fourth three (by omega) (value &&& 0xff).toUInt8 rest
        exact ⟨read, next.trans (next'.trans (next''.trans done)), by omega⟩

theorem readU29From_lt {ret read : UInt32} {cnt : Nat} {r rest : Bytes} (bound : ret.toNat < 2 ^ (7 * (cnt - 1)))
    (early : 1 ≤ cnt ∧ cnt ≤ 4) (got : readU29From ret cnt r = some (read, rest)) : read.toNat < 2 ^ 29 := by
  induction r generalizing ret cnt with
  | nil => cases got
  | cons byte r ih =>
    have eight := byte.toNat_lt
    have seven := seven_bits_lt byte
    have small : ret.toNat < 2 ^ 21 := bound.trans_le (Nat.pow_le_pow_right (by decide) (by omega))
    rw [readU29From] at got
    split at got
    · rename_i more
      refine ih ?_ ⟨Nat.le_add_left 1 cnt, more.2⟩ got
      rw [toNat_shift_or (k := 7) rfl (by omega) (by rw [UInt8.toNat_toUInt32]; omega), UInt8.toNat_toUInt32]
      have grown : 2 ^ (7 * (cnt + 1 - 1)) = 2 ^ (7 * (cnt - 1)) * 2 ^ 7 := by
        rw [← pow_add]
        congr 1
        omega
      omega
    · rename_i ends
      cases got
      split
      · rename_i short
        have last : byte.toNat < 128 := last_bit_lt byte (Decidable.not_not.mp fun more => ends ⟨more, short⟩)
        rw [toNat_shift_or (k := 7) rfl (by omega) (by rw [UInt8.toNat_toUInt32]; omega), UInt8.toNat_toUInt32]
        omega
      · rw [toNat_shift_or (k := 8) rfl (by omega) (by rw [UInt8.toNat_toUInt32]; omega), UInt8.toNat_toUInt32]
        omega

theorem readU29_lt {read : UInt32} {r rest : Bytes} (got : readU29 r = some (read, rest)) : read.toNat < 2 ^ 29 :=
  readU29From_lt (by decide) (by decide) got

theorem xor_ones {n k : Nat} (small : n < 2 ^ k) : n ^^^ (2 ^ k - 1) = 2 ^ k - 1 - n := by
  refine Nat.eq_of_testBit_eq fun i => ?_
  rw [Nat.testBit_xor, Nat.testBit_two_pow_sub_one, Nat.sub_sub, Nat.add_comm 1 n, Nat.testBit_two_pow_sub_succ small]
  by_cases inside : i < k
  · simp [inside]
  · have out : n.testBit i = false :=
      Nat.testBit_lt_two_pow (small.trans_le (Nat.pow_le_pow_right (by decide) (by omega)))
    simp [inside, out]

theorem sign_bit {n : Nat} (small : n < 2 ^ 29) : n &&& 2 ^ 28 = 0 ↔ n < 2 ^ 28 := by
  have bit : n.testBit 28 = decide (2 ^ 28 ≤ n) := by
    rw [Nat.testBit_eq_decide_div_mod_eq, decide_eq_decide]
    omega
  rw [Nat.and_two_pow, bit]
  by_cases high : 2 ^ 28 ≤ n
  · simp only [high, decide_true, Bool.toNat_true, one_mul]
    omega
  · simp only [high, decide_false, Bool.toNat_false, zero_mul, true_iff]
    omega

/-- The sign of what `read_integer` returns fills the bits above it. -/
theorem signed_toNat {tmp : UInt32} (small : tmp.toNat < 2 ^ 29) :
    (signed tmp).toNat = if tmp.toNat < 2 ^ 28 then tmp.toNat else tmp.toNat + (2 ^ 32 - 2 ^ 29) := by
  have sign : tmp &&& 0x10000000 = 0 ↔ tmp.toNat < 2 ^ 28 := by
    rw [← UInt32.toNat_inj, UInt32.toNat_and]
    exact sign_bit small
  have flipped : (tmp ^^^ 0x1fffffff).toNat = 2 ^ 29 - 1 - tmp.toNat := by
    rw [UInt32.toNat_xor]
    exact xor_ones small
  have negated (t : UInt32) : (t * 0xffffffff - 1).toNat = (2 ^ 32 + 2 ^ 32 - t.toNat - 1) % 2 ^ 32 := by
    have word := t.toNat_lt
    rw [UInt32.toNat_sub, UInt32.toNat_mul]
    simp only [UInt32.reduceToNat]
    omega
  simp only [signed, ne_eq, sign, ite_not]
  split
  · rfl
  · rw [negated, flipped]
    omega

theorem signed_int29 {tmp : UInt32} (small : tmp.toNat < 2 ^ 29) : Int29 (signed tmp) := by
  rw [Int29, signed_toNat small]
  split <;> omega

/-- An integer that fits 29 bits is read back as it was written. -/
theorem readInteger_writeInteger {value : UInt32} (fits : Int29 value) (rest : Bytes) :
    readInteger (writeInteger value ++ rest) = some (value, rest) := by
  obtain ⟨tmp, got, low⟩ := readU29_writeInteger value rest
  have same : signed tmp = value := by
    rw [← UInt32.toNat_inj, signed_toNat (by omega), low]
    have word := value.toNat_lt
    unfold Int29 at fits
    split <;> omega
  simp only [readInteger, got, Option.map_some, same]

/-- A header below `2 ^ 28` says that it is no reference and gives the number back. -/
theorem readU29_writeHeader {len : Nat} (small : len < 2 ^ 28) (rest : Bytes) :
    ∃ header : UInt32, readU29 (writeHeader len ++ rest) = some (header, rest) ∧ header &&& 0x01 ≠ 0 ∧
      (header >>> 1).toNat = len := by
  have word : (UInt32.ofNat len).toNat = len := toNat_word (by omega)
  have odd : (UInt32.ofNat len <<< 1 ||| 0x01).toNat = len * 2 + 1 := by
    rw [toNat_shift_or (k := 1) rfl (by omega) (by decide), word]
    rfl
  obtain ⟨header, got, low⟩ := readU29_writeInteger (UInt32.ofNat len <<< 1 ||| 0x01) rest
  have number : header.toNat = len * 2 + 1 := by omega
  refine ⟨header, got, fun even => ?_, ?_⟩
  · have bit := congrArg UInt32.toNat even
    rw [UInt32.toNat_and, number] at bit
    have parity : (len * 2 + 1) &&& (0x01 : UInt32).toNat = (len * 2 + 1) % 2 ^ 1 :=
      Nat.and_two_pow_sub_one_eq_mod (len * 2 + 1) 1
    have zero : (0 : UInt32).toNat = 0 := rfl
    omega
  · rw [UInt32.toNat_shiftRight, number, Nat.shiftRight_eq_div_pow]
    have one : (1 : UInt32).toNat % 32 = 1 := rfl
    rw [one]
    omega

end Fms.Amf.Amf3
