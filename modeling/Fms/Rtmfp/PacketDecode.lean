import Fms.Rtmfp.PacketParser
import Fms.Rtmfp.ReplayWindow

namespace Fms.Rtmfp
open ByteWire

/-- What was negotiated for the packets of a session: sequence numbers, and an HMAC in place of the
checksum. -/
structure CryptoMode where
  sseqRecv : Bool
  hmacRecv : Bool
  deriving DecidableEq

/-- `header`: the flags of a packet and its timestamps. -/
structure PacketHeader where
  timeCritical : Bool
  timeCriticalReverse : Bool
  mode : UInt8
  timestamp : Option Nat
  timestampEcho : Option Nat

/-- A big-endian 16-bit field that is there when its flag is set. -/
def flaggedField (present : Bool) (r : Bytes) : Option (Option Nat × Bytes) :=
  if present then (takeBytes 2 r).map fun (bytes, r) => (some (beNat bytes), r) else some (none, r)

/-- `header::deserialize`. -/
def PacketHeader.deserialize (r : Bytes) : Option (PacketHeader × Bytes) := do
  let (d, r) ← tryU8 r
  let (timestamp, r) ← flaggedField (d &&& 0x08 ≠ 0) r
  let (timestampEcho, r) ← flaggedField (d &&& 0x04 ≠ 0) r
  return ({ timeCritical := d &&& 0x80 ≠ 0, timeCriticalReverse := d &&& 0x40 ≠ 0, mode := d &&& 0x03,
            timestamp, timestampEcho }, r)

/-- The loop of `calculate_checksum`: words in native order, an odd last byte as a high one. -/
def sumWords : UInt32 → Bytes → UInt32
  | sum, [] => sum
  | sum, [b] => sum + b.toUInt32 <<< 8
  | sum, a :: b :: rest => sumWords (sum + UInt32.ofNat (leNat [a, b])) rest

def calculateChecksum (data : Bytes) : UInt16 :=
  let sum := sumWords 0 data
  let sum := (sum >>> 16) + (sum &&& 0xffff)
  let sum := sum + (sum >>> 16)
  (~~~sum).toUInt16

/-- `check_checksum`, which has nothing to compare where the packet is too short. -/
def checkChecksum (raw : Bytes) : Option (Bool × Bytes) :=
  (takeBytes 2 raw).map fun (c, raw) => (UInt16.ofNat (leNat c) == calculateChecksum raw, raw)

/-- CBC under the key of a session, whose padding is off. -/
structure BlockCipher where
  update : Bytes → Bytes
  length_update : ∀ text, text.length % 16 = 0 → (update text).length = text.length

/-- `aes::decrypt`, to which a packet that is not made of whole blocks is empty. -/
def BlockCipher.decrypt (aes : BlockCipher) (data : Bytes) : Bytes :=
  if data.length = 0 ∨ data.length % 16 ≠ 0 then [] else aes.update data

/-- Why a packet is turned away before its chunks are looked at. -/
inductive Rejection
  | sequenceTruncated
  | replayed
  | checksumTruncated
  | checksumMismatch
  | headerTruncated
  deriving DecidableEq, Repr

/-- `parser`, with the handler of its chunks. -/
structure PacketDecoder (σ : Type) where
  window : ReplayWindow := {}
  handler : σ

section parse
variable {σ : Type} (handleHeader : σ → PacketHeader → σ) (handle : σ → Chunk → σ × Bool) (mode : CryptoMode)
  (aes : BlockCipher)

/-- The sequence number, where they were negotiated. -/
def checkSequence (window : ReplayWindow) (raw : Bytes) : Except Rejection Bytes × ReplayWindow :=
  if mode.sseqRecv then
    match readVlu raw with
    | none => (.error .sequenceTruncated, window)
    | some (seq, raw) =>
      let (fresh, window) := window.checkRxSeq (UInt64.ofNat seq)
      (if fresh then .ok raw else .error .replayed, window)
  else (.ok raw, window)

/-- The checksum, unless the HMAC stands in for it. -/
def checkIntegrity (raw : Bytes) : Except Rejection Bytes :=
  if !mode.hmacRecv then
    match checkChecksum raw with
    | none => .error .checksumTruncated
    | some (true, raw) => .ok raw
    | some (false, _) => .error .checksumMismatch
  else .ok raw

/-- `parser::parse`: what the scan of the chunks returns, or why it is not come to. -/
def parse (p : PacketDecoder σ) (data : Bytes) : Except Rejection Bool × PacketDecoder σ :=
  match checkSequence mode p.window (aes.decrypt data) with
  | (.error why, window) => (.error why, { p with window })
  | (.ok raw, window) =>
    match checkIntegrity mode raw with
    | .error why => (.error why, { p with window })
    | .ok raw =>
      match PacketHeader.deserialize raw with
      | none => (.error .headerTruncated, { p with window })
      | some (header, raw) =>
        let trace := parseChunks handle (handleHeader p.handler header) raw
        (.ok trace.result, { window, handler := trace.handler })

end parse

theorem ReplayWindow.checkRxSeq_changes {s : ReplayWindow} {seq : UInt64} (fresh : (s.checkRxSeq seq).1 = true) :
    (s.checkRxSeq seq).2 ≠ s := by
  unfold checkRxSeq at fresh ⊢
  split
  · rename_i first
    intro same
    have seen : true = s.rxSeqSeen := congrArg rxSeqSeen same
    rw [← seen] at first
    cases first
  · rename_i later
    rw [if_neg later] at fresh
    split
    · rename_i above
      intro same
      have high : seq = s.rxSeqHigh := congrArg rxSeqHigh same
      rw [high] at above
      exact UInt64.lt_irrefl _ above
    · rename_i notAbove
      rw [if_neg notAbove] at fresh
      dsimp only at fresh ⊢
      split
      · rename_i far
        rw [if_pos far] at fresh
        cases fresh
      · rename_i close
        rw [if_neg close] at fresh
        split
        · rename_i present
          rw [if_pos present] at fresh
          cases fresh
        · rename_i absent
          intro same
          have window := congrArg rxSeqWindow same
          refine absent (SlidingWindow.mask_ne_zero.mpr ?_)
          rw [← window, BitVec.getLsbD_or, BitVec.getLsbD_shiftLeft, BitVec.getLsbD_one]
          have inside : (s.rxSeqHigh - seq).toNat < 64 := UInt64.not_le.mp close
          simp [inside]

section
variable {σ : Type} {handleHeader : σ → PacketHeader → σ} {handle : σ → Chunk → σ × Bool} {mode : CryptoMode}
  {aes : BlockCipher} {p : PacketDecoder σ} {data : Bytes} {why : Rejection}

theorem parse_window :
    (parse handleHeader handle mode aes p data).2.window = (checkSequence mode p.window (aes.decrypt data)).2 := by
  unfold parse
  split
  · rename_i checked
    rw [checked]
  · rename_i checked
    rw [checked]
    split
    · rfl
    · split
      · rfl
      · rfl

/-- A packet turned away for anything but a replay passed the check of its number, or its number
was not there to be checked. -/
theorem parse_rejected (rejected : (parse handleHeader handle mode aes p data).1 = .error why)
    (reason : why ≠ .replayed) :
    (∃ raw, (checkSequence mode p.window (aes.decrypt data)).1 = .ok raw) ∨
      mode.sseqRecv = true ∧ readVlu (aes.decrypt data) = none := by
  unfold parse at rejected
  split at rejected
  · rename_i early window checked
    cases rejected
    right
    unfold checkSequence at checked
    split at checked
    · rename_i numbered
      split at checked
      · rename_i truncated
        exact ⟨numbered, truncated⟩
      · dsimp only at checked
        split at checked
        · cases checked
        · cases checked
          exact absurd rfl reason
    · cases checked
  · rename_i raw window checked
    exact .inl ⟨raw, by rw [checked]⟩

/-- A packet that is turned away because it is cut short or its checksum does not match leaves the
window alone exactly when no number was taken from it. -/
theorem window_untouched_iff (rejected : (parse handleHeader handle mode aes p data).1 = .error why)
    (reason : why ≠ .replayed) :
    (parse handleHeader handle mode aes p data).2.window = p.window ↔
      mode.sseqRecv = false ∨ readVlu (aes.decrypt data) = none := by
  rw [parse_window]
  have passed := parse_rejected rejected reason
  unfold checkSequence at passed ⊢
  cases numbered : mode.sseqRecv with
  | false => simp
  | true =>
    rw [numbered] at passed
    cases read : readVlu (aes.decrypt data) with
    | none => simp
    | some number =>
      obtain ⟨seq, raw⟩ := number
      rw [read] at passed
      have fresh : (p.window.checkRxSeq (UInt64.ofNat seq)).1 = true := by
        rcases passed with ⟨_, accepted⟩ | ⟨_, truncated⟩
        · by_contra stale
          rw [Bool.not_eq_true] at stale
          simp only [if_true, stale, Bool.false_eq_true, if_false] at accepted
          cases accepted
        · cases truncated
      simp only [if_true, reduceCtorEq, Bool.true_eq_false, or_false, iff_false]
      exact ReplayWindow.checkRxSeq_changes fresh

end

/-- The cipher that leaves every block as it is. -/
def plainCipher : BlockCipher := ⟨id, fun _ _ => rfl⟩

/-- The parser of a session with sequence numbers and without an HMAC, whose chunks nobody looks at. -/
def parseNumbered : PacketDecoder Unit → Bytes → Except Rejection Bool × PacketDecoder Unit :=
  parse (fun _ _ => ()) (fun _ _ => ((), true)) ⟨true, false⟩ plainCipher

/-- A packet of one block with its number, its checksum and a header without timestamps. -/
def oneBlock (number low high : UInt8) : Bytes := [number, low, high, 0x00] ++ List.replicate 12 0xff

/-- A block that is all continuation bits ends before its number does. -/
theorem window_untouched_truncated : (parseNumbered { handler := () } (List.replicate 16 0x80)).2.window = {} := by
  have rejected : (parseNumbered { handler := () } (List.replicate 16 0x80)).1 = .error .sequenceTruncated := rfl
  exact (window_untouched_iff rejected (by decide)).mpr (.inr rfl)

/-- The forged packet is turned away for its checksum, and then the genuine one, which was accepted
without it, is taken for a replay. -/
theorem forged_packet_moves_window :
    (parseNumbered { handler := () } (oneBlock 0x7f 0x00 0x00)).1 = .error .checksumMismatch ∧
      (parseNumbered { handler := () } (oneBlock 0x7f 0x00 0x00)).2.window ≠ {} ∧
      (parseNumbered { handler := () } (oneBlock 0x01 0xfe 0x01)).1 = .ok true ∧
      (parseNumbered (parseNumbered { handler := () } (oneBlock 0x7f 0x00 0x00)).2 (oneBlock 0x01 0xfe 0x01)).1 =
        .error .replayed := by
  refine ⟨rfl, by decide, ?_, rfl⟩
  show Except.ok (parseChunks (fun _ _ => ((), true)) () (List.replicate 12 0xff)).result = Except.ok true
  have padded : (List.replicate 12 0xff : Bytes) ≠ [] := List.cons_ne_nil _ _
  rw [parseChunks, Scan.Scanner.run_stop padded rfl]
  rfl

end Fms.Rtmfp
