import Fms.Base.Dict
import Fms.ByteBuffer

namespace Fms
open ByteWire

/-- `rtmpt_session_data`, without the counters of the reaper. -/
structure RtmptSessionData where
  address : Nat
  sequence : UInt32 := 0
  outOfOrderData : Dict UInt32 Bytes := ∅
  oooBytes : Nat := 0

namespace RtmptSessionData

def eMaxOutOfOrder : Nat := 64
def eMaxOutOfOrderBytes : Nat := 4 * 1024 * 1024

/-- The loop of `advance_sequence`. Every turn takes a body out of the stash, so there are at
most as many turns as bodies. -/
def drain : Nat → RtmptSessionData → Bytes → RtmptSessionData × Bytes
  | 0, sd, drained => (sd, drained)
  | turns + 1, sd, drained => match sd.outOfOrderData.lookup sd.sequence with
    | none => (sd, drained)
    | some body =>
      drain turns
        { sd with
          oooBytes := sd.oooBytes - body.length
          outOfOrderData := sd.outOfOrderData.erase sd.sequence
          sequence := sd.sequence + 1 }
        (drained ++ body)

/-- Advance past `seq` and append any stashed bodies that are now contiguous; `false` if
`seq` is not the expected one. -/
def advanceSequence (sd : RtmptSessionData) (seq : UInt32) (drained : Bytes) : Bool × RtmptSessionData × Bytes :=
  if sd.sequence ≠ seq then (false, sd, drained)
  else (true, drain sd.outOfOrderData.size { sd with sequence := sd.sequence + 1 } drained)

/-- There is room in the stash for the body, and none with its number. -/
def Stashes (sd : RtmptSessionData) (seq : UInt32) (input : Bytes) : Prop :=
  sd.outOfOrderData.size < eMaxOutOfOrder ∧ sd.oooBytes + input.length ≤ eMaxOutOfOrderBytes ∧
    seq ∉ sd.outOfOrderData

instance (sd : RtmptSessionData) (seq : UInt32) (input : Bytes) : Decidable (sd.Stashes seq input) :=
  inferInstanceAs (Decidable (_ ∧ _ ∧ _))

def stash (sd : RtmptSessionData) (seq : UInt32) (input : Bytes) : RtmptSessionData :=
  if sd.Stashes seq input then
    { sd with outOfOrderData := sd.outOfOrderData.insert seq input, oooBytes := sd.oooBytes + input.length }
  else sd

end RtmptSessionData

/-- What the manager sees of an `rtmpt_session`, and the bytes it was handed. -/
structure RtmptSession where
  closeRequested : Bool := false
  closed : Bool := false
  received : Bytes := []

/-- What the session makes of a call: the result of `handle_data`, `none` for indeterminate,
and whether it closes itself on the way. -/
structure RtmptAnswer where
  result : Option Bool := some true
  closes : Bool := false

inductive RtmptRequest
  | send (body : Bytes)
  | idle

/-- What a request holds between its two locks: the bytes, and whether they go to the session. -/
structure RtmptTicket where
  hands : Bool
  bytes : Bytes

/-- One session and whether the id table still lists it. -/
structure RtmptTunnel where
  data : RtmptSessionData
  listed : Bool := true
  session : RtmptSession := {}

namespace RtmptTunnel

/-- The table forgets a closed session. -/
def validate (t : RtmptTunnel) (remote : Nat) (sequence : UInt32) : Bool × RtmptTunnel :=
  if ¬t.listed then (false, t)
  else if t.session.closed then (false, { t with listed := false })
  else if t.data.sequence > sequence ∨ t.data.address ≠ remote then (false, t)
  else (true, t)

def removeSession (t : RtmptTunnel) : RtmptTunnel :=
  if t.listed then { t with listed := false, session := { t.session with closed := true } } else t

/-- The step of `handle_data` and of `serialize_result` under `m_mutex`. -/
def sequenceRequest (t : RtmptTunnel) (seq : UInt32) : RtmptRequest → RtmptTunnel × Option RtmptTicket
  | .send body =>
    if ¬t.listed then (t, none)
    else
      let (inOrder, data, input) := t.data.advanceSequence seq body
      ({ t with data := if inOrder then data else data.stash seq input }, some { hands := inOrder, bytes := input })
  | .idle =>
    if ¬t.listed then (t, none)
    else
      let (_, data, drained) := t.data.advanceSequence seq []
      -- an idle request hands over only what it releases
      ({ t with data := data }, some { hands := drained ≠ [], bytes := drained })

/-- Their step under the session's own lock. -/
def serve (t : RtmptTunnel) (ticket : RtmptTicket) (answer : RtmptAnswer) : RtmptTunnel :=
  if t.session.closeRequested then { t with session := { t.session with closed := true } }.removeSession
  else
    let session := { t.session with closed := t.session.closed || answer.closes }
    if ticket.hands then
      let t := { t with session := { session with received := session.received ++ ticket.bytes } }
      if answer.result = some false ∨ session.closed then t.removeSession else t
    else
      let t := { t with session := session }
      if session.closed then t.removeSession else t

/-- A request that no other comes between. -/
def handleRequest (t : RtmptTunnel) (seq : UInt32) (request : RtmptRequest) (answer : RtmptAnswer) : RtmptTunnel :=
  match t.sequenceRequest seq request with
  | (t, none) => t
  | (t, some ticket) => t.serve ticket answer

def postClose (t : RtmptTunnel) : RtmptTunnel :=
  { t with session := { t.session with closeRequested := true } }

end RtmptTunnel

end Fms
