import Fms.Base.Transition
import Fms.ByteBuffer

namespace Fms.ByteWriter
open ByteWire Transition

/-- `write_buffer`: behind what is left to read, so much room of unknown contents. -/
def writeBuffer (w : ByteWriter) (room : Bytes) : ByteWriter where
  buf := w.buf.drop w.readPos ++ room
  readPos := 0
  reserved := room.length
  within := Nat.zero_le _

/-- A read puts bytes at the start of the room. -/
def receive (w : ByteWriter) (got : Bytes) : ByteWriter :=
  { w with
    buf := w.buf.take (w.buf.length - w.reserved) ++ (got ++ (w.buf.drop (w.buf.length - w.reserved)).drop got.length)
    within := by
      have := w.within
      simp only [List.length_append, List.length_take, List.length_drop]
      omega }

/-- So much of the room was filled; the rest goes. The bound says that it is behind the read offset. -/
def update (w : ByteWriter) (filled : Nat) (bound : w.readPos + w.reserved ≤ w.buf.length) : ByteWriter :=
  if filled > w.reserved then w
  else
    { w with
      buf := w.buf.take (w.buf.length - (w.reserved - filled))
      reserved := 0
      within := by
        rw [List.length_take]
        omega }

theorem receive_bound (w : ByteWriter) (room got : Bytes) :
    ((w.writeBuffer room).receive got).readPos + ((w.writeBuffer room).receive got).reserved ≤
      ((w.writeBuffer room).receive got).buf.length := by
  simp only [receive, writeBuffer, List.length_append, List.length_take, List.length_drop]
  omega

/-- A `write_buffer`, what arrived, and the `update` that says how much it was. -/
def fill (w : ByteWriter) (room got : Bytes) : ByteWriter :=
  ((w.writeBuffer room).receive got).update got.length (w.receive_bound room got)

theorem within_empty : 0 ≤ ([] : Bytes).length := Nat.zero_le _

def clear (_ : ByteWriter) : ByteWriter := { within := within_empty }

/-- The storage in use. -/
def footprint (w : ByteWriter) : Nat := w.buf.length

inductive Op
  | write (src : Bytes)
  | fill (room got : Bytes)
  | consume (n : Nat)
  | clear

def step (w : ByteWriter) : Op → ByteWriter
  | .write src => w.write src
  | .fill room got => w.fill room got
  | .consume n => if bound : n ≤ w.size then w.consume n bound else w
  | .clear => w.clear

/-- No more is filled than was reserved, and no more consumed than there is. -/
def Allowed (w : ByteWriter) : Op → Prop
  | .fill room got => got.length ≤ room.length
  | .consume n => n ≤ w.size
  | _ => True

instance (w : ByteWriter) : DecidablePred w.Allowed
  | .write _ => .isTrue trivial
  | .fill room got => inferInstanceAs (Decidable (got.length ≤ room.length))
  | .consume n => inferInstanceAs (Decidable (n ≤ w.size))
  | .clear => .isTrue trivial

/-- The same on a queue of bytes. -/
def Op.onQueue (queue : Bytes) : Op → Bytes
  | .write src => queue ++ src
  | .fill _ got => queue ++ got
  | .consume n => queue.drop n
  | .clear => []

variable {w : ByteWriter}

theorem data_fill {room got : Bytes} (fits : got.length ≤ room.length) : (w.fill room got).data = w.data ++ got := by
  have kept : (w.buf.drop w.readPos ++ room).length - room.length = (w.buf.drop w.readPos).length := by simp
  have received : ((w.writeBuffer room).receive got).buf = w.buf.drop w.readPos ++ (got ++ room.drop got.length) := by
    simp only [receive, writeBuffer, kept, List.take_left, List.drop_left]
  have length : ((w.writeBuffer room).receive got).buf.length - (room.length - got.length) =
      (w.buf.drop w.readPos ++ got).length := by
    simp only [received, List.length_append, List.length_drop]
    omega
  have updated : (w.fill room got).buf = w.buf.drop w.readPos ++ got := by
    have enough : ¬got.length > ((w.writeBuffer room).receive got).reserved := Nat.not_lt.mpr fits
    rw [fill, update, if_neg enough]
    show ((w.writeBuffer room).receive got).buf.take (_ - (room.length - got.length)) = _
    rw [length, received, ← List.append_assoc, List.take_left]
  have start : (w.fill room got).readPos = 0 := by
    rw [fill, update]
    split <;> rfl
  rw [data, start, updated, List.drop_zero, data]

/-- The dead prefix never takes more than half of the storage. -/
theorem footprint_consume (n : Nat) (bound : n ≤ w.size) :
    (w.consume n bound).footprint ≤ 2 * (w.consume n bound).size := by
  unfold consume
  split
  · exact Nat.zero_le _
  · split
    · simp only [footprint, size]
      omega
    · simp only [footprint, size]
      omega

theorem data_step {op : Op} (allowed : w.Allowed op) : (w.step op).data = op.onQueue w.data := by
  cases op with
  | write src => exact data_write w src
  | fill room got => exact data_fill allowed
  | consume n =>
    have bound : n ≤ w.size := allowed
    rw [step, dif_pos bound]
    exact data_consume w n bound
  | clear => rfl

theorem data_run {ops : List Op} (valid : Along step Allowed w ops) :
    (ops.foldl step w).data = ops.foldl Op.onQueue w.data := by
  induction ops generalizing w with
  | nil => rfl
  | cons op ops ih => rw [List.foldl_cons, List.foldl_cons, ih valid.2, data_step valid.1]

/-- After any operations the buffer shows the bytes that were appended and not consumed since the last `clear`,
and a `consume` leaves at most twice as much storage in use. -/
theorem input_is_queue (ops : List Op) (valid : Along step Allowed {} ops) :
    (ops.foldl step {}).data = ops.foldl Op.onQueue [] ∧ (ops.foldl step {}).size = (ops.foldl Op.onQueue []).length ∧
    ∀ before n, ops = before ++ [.consume n] → (ops.foldl step {}).footprint ≤ 2 * (ops.foldl step {}).size := by
  have shown := data_run valid
  refine ⟨shown, ?_, fun before n last => ?_⟩
  · rw [← length_data, shown]
    rfl
  · subst last
    have bound : n ≤ (before.foldl step {}).size := valid.last
    rw [List.foldl_append, List.foldl_cons, List.foldl_nil, step, dif_pos bound]
    exact footprint_consume n bound

/-- Three bytes arrive where eight could have, and two of them are read. -/
theorem input_is_queue_filled :
    (([.fill (List.replicate 8 0) [1, 2, 3], .consume 2] : List Op).foldl step {}).data = [3] :=
  (input_is_queue [.fill (List.replicate 8 0) [1, 2, 3], .consume 2] ⟨by decide, by decide, trivial⟩).1

end Fms.ByteWriter
