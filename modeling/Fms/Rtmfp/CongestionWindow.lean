import Mathlib.Algebra.BigOperators.Intervals
import Mathlib.Tactic.Common

namespace Fms.Rtmfp

def eInit : Nat := 4

def eMin : Nat := 2

def eMax : Nat := 128

/-- `congestion_window`, in packets. -/
structure CongestionWindow where
  cwnd : Nat := eInit
  ssthresh : Nat := 0xffff
  acc : Nat := 0

namespace CongestionWindow

def grow (cwnd : Nat) : Nat := if cwnd < eMax then cwnd + 1 else cwnd

/-- `on_ack`. -/
def onAck (loss : Bool) (w : CongestionWindow) : CongestionWindow :=
  if loss then
    let half := max eMin (w.cwnd / 2)
    { cwnd := half, ssthresh := half, acc := 0 }
  else if w.cwnd < w.ssthresh then { w with cwnd := grow w.cwnd }
  else if w.acc + 1 ≥ w.cwnd then { w with acc := 0, cwnd := grow w.cwnd }
  else { w with acc := w.acc + 1 }

/-- `on_timeout`. -/
def onTimeout (w : CongestionWindow) : CongestionWindow :=
  { cwnd := eInit, ssthresh := max eMin (w.cwnd / 2), acc := 0 }

variable {w : CongestionWindow}

theorem onAck_bounds (bounds : eMin ≤ w.cwnd ∧ w.cwnd ≤ eMax) (loss : Bool) :
    eMin ≤ (w.onAck loss).cwnd ∧ (w.onAck loss).cwnd ≤ eMax := by
  unfold onAck grow eMin eMax at *
  dsimp only
  split_ifs <;> dsimp only <;> omega

theorem acks_within (avoiding : w.ssthresh ≤ w.cwnd) {n : Nat} (short : w.acc + n < w.cwnd) :
    (onAck false)^[n] w = { w with acc := w.acc + n } := by
  induction n with
  | zero => rfl
  | succ n ih =>
    rw [Function.iterate_succ_apply', ih (by omega), onAck, if_neg Bool.false_ne_true,
      if_neg (Nat.not_lt.mpr avoiding), if_neg (by dsimp only; omega)]
    rfl

/-- A round of avoidance takes as many acknowledgements as there are packets in the window. -/
theorem acks_round (avoiding : w.ssthresh ≤ w.cwnd) (fresh : w.acc = 0) (some : 0 < w.cwnd) :
    (onAck false)^[w.cwnd] w = { w with cwnd := grow w.cwnd } := by
  obtain ⟨n, size⟩ := Nat.exists_eq_add_one.mpr some
  have almost := acks_within avoiding (show w.acc + n < w.cwnd by omega)
  rw [size, Function.iterate_succ_apply', almost, onAck, if_neg Bool.false_ne_true, if_neg (Nat.not_lt.mpr avoiding),
    if_pos (by dsimp only; omega)]
  simp [fresh, size]

/-- After a loss, `k` packets more take as many acknowledgements as there are in the windows on the way. -/
theorem recovery_rate (w : CongestionWindow) {k : Nat} (room : (w.onAck true).cwnd + k ≤ eMax) :
    (onAck false)^[∑ i ∈ Finset.range k, ((w.onAck true).cwnd + i)] (w.onAck true) =
      { w.onAck true with cwnd := (w.onAck true).cwnd + k } := by
  induction k with
  | zero => rfl
  | succ k ih =>
    have some : 0 < (w.onAck true).cwnd := Nat.lt_of_lt_of_le Nat.two_pos (Nat.le_max_left ..)
    have round := acks_round (w := { w.onAck true with cwnd := (w.onAck true).cwnd + k }) (Nat.le_add_right _ k) rfl
      (Nat.add_pos_left some k)
    have grown : grow ((w.onAck true).cwnd + k) = (w.onAck true).cwnd + (k + 1) := if_pos room
    dsimp only at round
    rw [Finset.sum_range_succ, Nat.add_comm, Function.iterate_add_apply, ih (by omega), round, grown]

theorem recovery_rate_fresh : (onAck false)^[∑ i ∈ Finset.range 3, (2 + i)] ⟨2, 2, 0⟩ = ⟨5, 2, 0⟩ :=
  recovery_rate {} (k := 3) (by decide)

end CongestionWindow

/-- What decides whether a session may send: its window, and `m_data_packet_count`. -/
structure Outflow where
  cc : CongestionWindow := {}
  dataPacketCount : UInt8 := 0

/-- A call of `has_data_to_send` that finds something to send, other than acknowledgements or not; an
acknowledgement for a flow of the session; its alarm. -/
inductive OutflowEvent
  | send (data : Bool)
  | rangeAck (loss : Bool)
  | alarm (wasLoss : Bool)

namespace Outflow

/-- Whether a packet with data goes out. -/
def letsOut (s : Outflow) (data : Bool) : Bool := data && decide (s.dataPacketCount.toNat < s.cc.cwnd)

def step (s : Outflow) : OutflowEvent → Outflow
  | .send data => if s.letsOut data then { s with dataPacketCount := s.dataPacketCount + 1 } else s
  | .rangeAck loss => { cc := s.cc.onAck loss, dataPacketCount := 0 }
  | .alarm wasLoss => { cc := if wasLoss then s.cc.onTimeout else s.cc, dataPacketCount := 0 }

/-- The packets with data among further calls of `has_data_to_send`. -/
def letOut : Outflow → List Bool → Nat
  | _, [] => 0
  | s, data :: rest => (s.letsOut data).toNat + letOut (s.step (.send data)) rest

structure Sound (s : Outflow) : Prop where
  least : eMin ≤ s.cc.cwnd
  most : s.cc.cwnd ≤ eMax
  within : s.dataPacketCount.toNat ≤ s.cc.cwnd

variable {s : Outflow}

/-- The count is a byte, and the window never lets it get as far as to wrap. -/
theorem Sound.toNat_send (sound : s.Sound) (data : Bool) :
    (s.step (.send data)).dataPacketCount.toNat = s.dataPacketCount.toNat + (s.letsOut data).toNat := by
  cases out : s.letsOut data with
  | false => simp [step, out]
  | true =>
    have most : s.cc.cwnd ≤ 128 := sound.most
    have below := of_decide_eq_true (Bool.and_eq_true_iff.mp out).2
    simp [step, out, UInt8.toNat_add]
    omega

@[simp] theorem cc_send (data : Bool) : (s.step (.send data)).cc = s.cc := by
  unfold step
  dsimp only
  split
  · rfl
  · rfl

theorem Sound.send (sound : s.Sound) (data : Bool) : (s.step (.send data)).Sound := by
  refine ⟨(cc_send data).symm ▸ sound.least, (cc_send data).symm ▸ sound.most, ?_⟩
  rw [sound.toNat_send, cc_send]
  cases out : s.letsOut data with
  | false => exact sound.within
  | true => exact of_decide_eq_true (Bool.and_eq_true_iff.mp out).2

theorem Sound.step (sound : s.Sound) : (e : OutflowEvent) → (s.step e).Sound
  | .send data => sound.send data
  | .rangeAck loss =>
    have bounds := CongestionWindow.onAck_bounds ⟨sound.least, sound.most⟩ loss
    ⟨bounds.1, bounds.2, Nat.zero_le _⟩
  | .alarm true => ⟨show eMin ≤ eInit by decide, show eInit ≤ eMax by decide, Nat.zero_le _⟩
  | .alarm false => ⟨sound.least, sound.most, Nat.zero_le _⟩

theorem Sound.letOut_le (sound : s.Sound) (sends : List Bool) :
    s.dataPacketCount.toNat + s.letOut sends ≤ s.cc.cwnd := by
  induction sends generalizing s with
  | nil => exact sound.within
  | cons data rest ih =>
    have further := ih (sound.send data)
    rw [sound.toNat_send, cc_send] at further
    rw [letOut]
    omega

/-- Whatever a session went through, its window is between 2 and 128 packets, and what it still sends
until it hears from its peer or its alarm goes off fits the window with what it has sent. -/
theorem burst_bounded (events : List OutflowEvent) (sends : List Bool) :
    let s := events.foldl step {}
    eMin ≤ s.cc.cwnd ∧ s.cc.cwnd ≤ eMax ∧ s.dataPacketCount.toNat + s.letOut sends ≤ s.cc.cwnd := by
  have sound : (events.foldl step {}).Sound :=
    List.foldlRecOn events step ⟨by decide, by decide, by decide⟩ fun _ sound e _ => sound.step e
  exact ⟨sound.least, sound.most, sound.letOut_le sends⟩

end Outflow
end Fms.Rtmfp
