import Fms.Base.Transition
import Mathlib

namespace Fms

def eDefaultAckWindow : UInt32 := 2500000

/-- The counters of `basic_rtmp_connection` that decide when an acknowledgement goes out; with
the acknowledgements sent, the bytes truly received, and how many of them had been at the last
acknowledgement or announcement. -/
structure AckWindow where
  bytesRead : UInt32 := 0
  bytesReadNotify : UInt32 := eDefaultAckWindow
  winAck : UInt32 := eDefaultAckWindow
  app : Bool := false
  acks : List UInt32 := []
  received : Nat := 0
  mark : Nat := 0

namespace AckWindow

def eMinWindowAck : UInt32 := 1024
def eMaxWindowAck : UInt32 := 0x20000000

def clampWindow (n : UInt32) : UInt32 :=
  if n < eMinWindowAck then eMinWindowAck else if eMaxWindowAck < n then eMaxWindowAck else n

def nextAckThreshold (bytesRead window : UInt32) : UInt32 := bytesRead + window

/-- The sign of the wrapping difference. -/
def ackDue (bytesRead threshold : UInt32) : Bool := 0 ≤ (bytesRead - threshold).toInt32

def handleBytesRead (c : AckWindow) (transferred : Nat) : AckWindow :=
  let c := { c with bytesRead := c.bytesRead + UInt32.ofNat transferred, received := c.received + transferred }
  if ackDue c.bytesRead c.bytesReadNotify then
    if !c.app then c
    else
      { c with
        bytesReadNotify := nextAckThreshold c.bytesRead c.winAck
        acks := c.acks ++ [c.bytesRead]
        mark := c.received }
  else c

def handleInternalMessage (c : AckWindow) (size : UInt32) : AckWindow :=
  if size ≠ 0 then
    let window := clampWindow size
    { c with winAck := window, bytesReadNotify := nextAckThreshold c.bytesRead window, mark := c.received }
  else c

inductive Move
  | read (transferred : Nat)
  | window (size : UInt32)
  | setApp

def step (c : AckWindow) : Move → AckWindow
  | .read transferred => c.handleBytesRead transferred
  | .window size => c.handleInternalMessage size
  | .setApp => { c with app := true }

/-- The bytes since the last acknowledgement or announcement. -/
def unacked (c : AckWindow) : Nat := c.received - c.mark

theorem ackDue_iff {a b : UInt32} : ackDue a b = true ↔ (a - b).toNat < 2 ^ 31 := by
  have sign : ackDue a b = true ↔ 0 ≤ (a - b).toBitVec.toInt := by
    rw [ackDue, decide_eq_true_iff, Int32.le_iff_toInt_le]
    rfl
  rw [sign, BitVec.toInt_eq_toNat_cond, UInt32.toNat_toBitVec]
  have below := (a - b).toNat_lt
  split <;> omega

theorem clampWindow_bounds (n : UInt32) : 0 < (clampWindow n).toNat ∧ (clampWindow n).toNat ≤ 2 ^ 29 := by
  have least : eMinWindowAck.toNat = 1024 := rfl
  have most : eMaxWindowAck.toNat = 2 ^ 29 := rfl
  unfold clampWindow
  simp only [UInt32.lt_iff_toNat_lt]
  split
  · omega
  · split <;> omega

/-- The counters are the true ones modulo 2^32. -/
structure Tracks (c : AckWindow) : Prop where
  bytesRead : c.bytesRead.toNat = c.received % 2 ^ 32
  notify : c.bytesReadNotify.toNat = (c.mark + c.winAck.toNat) % 2 ^ 32
  mark : c.mark ≤ c.received
  window : 0 < c.winAck.toNat ∧ c.winAck.toNat ≤ 2 ^ 29

variable {c : AckWindow} {transferred : Nat}

theorem toNat_nextAckThreshold {bytesRead window : UInt32} {received : Nat}
    (counter : bytesRead.toNat = received % 2 ^ 32) :
    (nextAckThreshold bytesRead window).toNat = (received + window.toNat) % 2 ^ 32 := by
  rw [nextAckThreshold, UInt32.toNat_add, counter]
  omega

theorem Tracks.read (tracks : c.Tracks) :
    (c.bytesRead + UInt32.ofNat transferred).toNat = (c.received + transferred) % 2 ^ 32 := by
  rw [UInt32.toNat_add, UInt32.toNat_ofNat', tracks.bytesRead]
  omega

theorem Tracks.step (tracks : c.Tracks) (move : Move) : (c.step move).Tracks := by
  cases move with
  | read transferred =>
    have counter : (c.bytesRead + UInt32.ofNat transferred).toNat = (c.received + transferred) % 2 ^ 32 := tracks.read
    have later : c.mark ≤ c.received + transferred := Nat.le_trans tracks.mark (Nat.le_add_right ..)
    simp only [AckWindow.step, handleBytesRead]
    split
    · split
      · exact ⟨counter, tracks.notify, later, tracks.window⟩
      · exact ⟨counter, toNat_nextAckThreshold counter, Nat.le_refl _, tracks.window⟩
    · exact ⟨counter, tracks.notify, later, tracks.window⟩
  | window size =>
    simp only [AckWindow.step, handleInternalMessage]
    split
    · exact ⟨tracks.bytesRead, toNat_nextAckThreshold tracks.bytesRead, Nat.le_refl _, clampWindow_bounds size⟩
    · exact tracks
  | setApp => exact ⟨tracks.bytesRead, tracks.notify, tracks.mark, tracks.window⟩

/-- The bytes that came after the window was full are fewer than 2^31, as far as 32 bits tell;
or it is not full. -/
def Measurable (c : AckWindow) (transferred : Nat) : Prop :=
  c.unacked + transferred < c.winAck.toNat ∨ (c.unacked + transferred - c.winAck.toNat) % 2 ^ 32 < 2 ^ 31

theorem wrapped_ahead (b e : Nat) : (2 ^ 32 - b % 2 ^ 32 + (b + e) % 2 ^ 32) % 2 ^ 32 = e % 2 ^ 32 := by
  omega

theorem wrapped_behind {a f : Nat} (positive : 0 < f) (small : f < 2 ^ 32) :
    (2 ^ 32 - (a + f) % 2 ^ 32 + a % 2 ^ 32) % 2 ^ 32 = 2 ^ 32 - f := by
  omega

theorem Tracks.ackDue_iff (tracks : c.Tracks) :
    ackDue (c.bytesRead + UInt32.ofNat transferred) c.bytesReadNotify = true ↔
      c.winAck.toNat ≤ c.unacked + transferred ∧ (c.unacked + transferred - c.winAck.toNat) % 2 ^ 32 < 2 ^ 31 := by
  have window := tracks.window
  have mark := tracks.mark
  rw [AckWindow.ackDue_iff, UInt32.toNat_sub, tracks.read, tracks.notify, unacked]
  by_cases full : c.winAck.toNat ≤ c.received - c.mark + transferred
  · have ahead : c.received + transferred =
        c.mark + c.winAck.toNat + (c.received - c.mark + transferred - c.winAck.toNat) := by omega
    rw [ahead, wrapped_ahead]
    exact (and_iff_right full).symm
  · have behind : c.mark + c.winAck.toNat =
        c.received + transferred + (c.winAck.toNat - (c.received - c.mark + transferred)) := by omega
    rw [behind, wrapped_behind (by omega) (by omega)]
    omega

/-- A read with an application leaves less than a window unacknowledged exactly when the bytes
beyond the window can be told; that is so whenever less than a window was unacknowledged
before it. -/
theorem window_honoured_iff (reach : Transition.Reach step (fun _ _ => True) {} c)
    (small : transferred < 2 ^ 31) (app : c.app = true) :
    let after := c.step (.read transferred)
    (after.unacked < after.winAck.toNat ↔ c.Measurable transferred) ∧
      (c.unacked < c.winAck.toNat → c.Measurable transferred) := by
  have tracks := reach.invariant (I := Tracks) ⟨rfl, rfl, Nat.le_refl 0, by decide⟩ fun _ tracks => tracks.step _
  have window := tracks.window
  have mark := tracks.mark
  refine ⟨?_, fun before => ?_⟩
  · simp only [AckWindow.step, handleBytesRead, app]
    by_cases due : ackDue (c.bytesRead + UInt32.ofNat transferred) c.bytesReadNotify = true
    · have measured := tracks.ackDue_iff.mp due
      rw [if_pos due]
      simp only [unacked, Bool.not_true, Bool.false_eq_true, if_false, Nat.sub_self]
      exact iff_of_true window.1 (.inr measured.2)
    · have missed := mt tracks.ackDue_iff.mpr due
      rw [if_neg due]
      simp only [unacked, Measurable] at missed ⊢
      omega
  · unfold Measurable
    omega

/-- Reads before the application comes, and a window of the least size. -/
def early : AckWindow := List.foldl step {} [.read 1537, .window 1, .read 700, .setApp]

theorem window_honoured_early :
    ((early.step (.read 400)).unacked < (early.step (.read 400)).winAck.toNat ↔ early.Measurable 400) ∧
      early.Measurable 400 := by
  have reach : Transition.Reach step (fun _ _ => True) {} early := Transition.Reach.start.foldl fun _ _ _ => trivial
  have honoured := window_honoured_iff reach (show 400 < 2 ^ 31 by decide) rfl
  exact ⟨honoured.1, honoured.2 (by decide)⟩

/-- Almost 2^32 bytes before the application comes: the next read is not acknowledged. -/
theorem window_overrun :
    let c := List.foldl step {} [.read (2 ^ 31 - 1), .read (2 ^ 31 - 1), .setApp, .read 1]
    c.app = true ∧ c.acks = [] ∧ c.winAck = 2500000 ∧ c.unacked = 4294967295 := by
  decide

end AckWindow
end Fms
