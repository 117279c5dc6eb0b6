import Fms.Base.Segments
import Fms.Base.SortedBy
import Fms.Rtmfp.Chunk
import Fms.Rtmfp.SeqManager
import Mathlib

namespace Fms.Rtmfp
open ByteWire Segments

/-- Fragment control: `eWhole`, `eBegin` (first), `eEnd` (last) and `eMiddle`. -/
abbrev FragCtrl := Mark

def FragCtrl.toByte : FragCtrl → UInt8
  | .whole => 0
  | .first => 1
  | .last => 2
  | .middle => 3

def FragCtrl.ofByte (b : UInt8) : FragCtrl :=
  if b = 0 then .whole else if b = 1 then .first else if b = 2 then .last else .middle

structure Fragment where
  seq : Nat
  data : Bytes
  fragCtrl : FragCtrl
  tsn : Nat := 0
  abandoned : Bool := false
  sentAbandoned : Bool := false
  nakCount : Nat := 0
  inFlight : Bool := false

/-- `fragment_store`: the buffered fragments by sequence number. The byte total the class
keeps is the sum of what they hold. -/
abbrev FragmentStore := SortedBy Fragment.seq

def FragmentStore.bytes (s : FragmentStore) : Nat := (s.elems.map fun f => f.data.length).sum

inductive Role
  | receiver
  | sender
  deriving DecidableEq, Repr

inductive Usage
  | data
  | audioVideo
  deriving DecidableEq, Repr

inductive FlowState
  | isOpen
  | rejected
  | completeLinger
  | closed
  deriving DecidableEq, Repr

/-- A flow. `others` is what the other flows of the session hold, for a flow whose store is
charged to the session's shared total. -/
structure Flow where
  role : Role
  usage : Usage := .data
  state : FlowState := .isOpen
  fragments : FragmentStore := {}
  others : Option Nat := none
  nextSn : Nat := 1
  seqManager : SeqManager := {}
  msgIsFragmented : Bool := false
  data : Bytes := []

namespace Flow

def eMaxBufferedFragments : Nat := 8192
def eMaxBufferedBytes : Nat := 16 * 1024 * 1024
def eMaxSessionBufferedBytes : Nat := 2 * eMaxBufferedBytes
def eMaxUnackedFragments : Nat := 256
def eFragmentMaxSize : Nat := 1160

def sharedBytes (f : Flow) : Nat :=
  match f.others with
  | some held => held + f.fragments.bytes
  | none => 0

/-- The buffer bounds leave no room for `len` more bytes. -/
def isFull (f : Flow) (len : Nat) : Bool :=
  f.fragments.size ≥ eMaxBufferedFragments || f.fragments.bytes + len > eMaxBufferedBytes ||
    f.sharedBytes + len > eMaxSessionBufferedBytes

def addFragment (f : Flow) (frag : Fragment) : Flow × SeqManager.Result :=
  if f.isFull frag.data.length then
    match f.role with
    | .sender => (f, .duplicate)
    | .receiver => ({ f with fragments := {}, state := .rejected }, .duplicate)
  else
    match f.seqManager.addSeq frag.seq with
    | (seqManager, .duplicate) => ({ f with seqManager }, .duplicate)
    | (seqManager, ret) => ({ f with seqManager, fragments := f.fragments.assign frag }, ret)

def removeFragmentsUntilSeq (f : Flow) (seq : Nat) : Flow :=
  { f with fragments := f.fragments.filter fun frag => frag.seq > seq }

def addSequencesUntil (f : Flow) (value : Nat) : Flow :=
  { f with seqManager := f.seqManager.addSequencesUntil value }

/-- How the search behind a first fragment ends: nothing that closes the message yet, a
message and what is buffered behind it, or a fragment that opens another message. -/
inductive Join
  | incomplete
  | complete (message : Bytes) (rest : List Fragment)
  | torn (rest : List Fragment)

/-- The inner loop of `message_data`, with the data of the fragments passed so far;
`create_message` joins the data without looking at the numbers. -/
def join (csn : Nat) (passed : Bytes) : List Fragment → Join
  | [] => .incomplete
  | j :: rest =>
    if j.seq ≤ csn then
      match j.fragCtrl with
      | .last => .complete (passed ++ j.data) rest
      | .middle => join csn (passed ++ j.data) rest
      | .whole => .torn (j :: rest)
      | .first => .torn (j :: rest)
    else .incomplete

/-- What `message_data` finds, each with the fragments it leaves buffered. -/
inductive Ready
  | nothing (rest : List Fragment)
  | whole (message : Bytes) (rest : List Fragment)
  | joined (message : Bytes) (rest : List Fragment)

def Ready.rest : Ready → List Fragment
  | .nothing rest => rest
  | .whole _ rest => rest
  | .joined _ rest => rest

/-- The outer loop of `message_data`. A first fragment ends it whatever follows. -/
def scan (csn : Nat) : List Fragment → Ready
  | [] => .nothing []
  | i :: rest =>
    if i.seq ≤ csn then
      match i.fragCtrl with
      | .whole => .whole i.data (i :: rest)
      | .last => scan csn rest
      | .middle => scan csn rest
      | .first =>
        match join csn i.data rest with
        | .complete message rest => .joined message rest
        | .torn rest => .nothing rest
        | .incomplete => .nothing (i :: rest)
    else .nothing (i :: rest)

theorem join_suffix {csn : Nat} {passed : Bytes} {l : List Fragment} :
    (∀ {message rest}, join csn passed l = .complete message rest → rest <:+ l) ∧
      ∀ {rest}, join csn passed l = .torn rest → rest <:+ l := by
  induction l generalizing passed with
  | nil => exact ⟨fun found => (by cases found), fun found => (by cases found)⟩
  | cons j l ih =>
    unfold join
    split
    · split
      · refine ⟨fun found => ?_, fun found => (by cases found)⟩
        cases found
        exact List.suffix_cons _ _
      · exact ⟨fun found => (ih.1 found).trans (List.suffix_cons _ _),
          fun found => (ih.2 found).trans (List.suffix_cons _ _)⟩
      · refine ⟨fun found => (by cases found), fun found => ?_⟩
        cases found
        exact List.suffix_refl _
      · refine ⟨fun found => (by cases found), fun found => ?_⟩
        cases found
        exact List.suffix_refl _
    · exact ⟨fun found => (by cases found), fun found => (by cases found)⟩

theorem scan_suffix (csn : Nat) (l : List Fragment) : (scan csn l).rest <:+ l := by
  induction l with
  | nil => exact List.suffix_refl _
  | cons i l ih =>
    unfold scan
    split
    · split
      · exact List.suffix_refl _
      · exact ih.trans (List.suffix_cons _ _)
      · exact ih.trans (List.suffix_cons _ _)
      · split
        · rename_i found
          exact (join_suffix.1 found).trans (List.suffix_cons _ _)
        · rename_i found
          exact (join_suffix.2 found).trans (List.suffix_cons _ _)
        · exact List.suffix_refl _
    · exact List.suffix_refl _

def messageData (f : Flow) : Option Bytes × Flow :=
  let ready := scan f.seqManager.csn f.fragments.elems
  let fragments := f.fragments.restrict ready.rest (scan_suffix f.seqManager.csn f.fragments.elems).sublist
  match ready with
  | .nothing _ => (none, { f with fragments })
  | .whole message _ => (some message, { f with fragments, msgIsFragmented := false })
  | .joined message _ => (some message, { f with fragments, msgIsFragmented := true, data := message })

def removeLastMessage (f : Flow) : Flow :=
  if f.msgIsFragmented then { f with data := [], msgIsFragmented := false }
  else { f with fragments := f.fragments.restrict _ (List.drop_sublist 1 f.fragments.elems) }

/-- The number of fragments a longer message is cut into, as the 16-bit count it is kept in. -/
def fragmentCount (len : Nat) : Nat := (len + eFragmentMaxSize - 1) % 2 ^ 32 / eFragmentMaxSize % 2 ^ 16

/-- The loop of `add_and_fragment_data` over a longer message: `ftype` and `clen` are set at
the end of each round for the next one, and a fragment's length is kept in 16 bits. -/
def cutFrom (data : Bytes) (cnt : Nat) : Nat → Nat → FragCtrl → Nat → List (FragCtrl × Bytes)
  | 0, _, _, _ => []
  | todo + 1, i, ftype, clen =>
    (ftype, (data.drop (i * eFragmentMaxSize)).take (clen % 2 ^ 16)) ::
      if i + 2 ≠ cnt then cutFrom data cnt todo (i + 1) .middle clen
      else cutFrom data cnt todo (i + 1) .last (data.length - (i + 1) * eFragmentMaxSize)

/-- The fragments of a message. -/
def cut (data : Bytes) : List (FragCtrl × Bytes) :=
  if data.length ≤ eFragmentMaxSize then [(.whole, data)]
  else cutFrom data (fragmentCount data.length) (fragmentCount data.length) 0 .first eFragmentMaxSize

/-- One fragment under the next sequence number. -/
def enqueue (f : Flow) (part : FragCtrl × Bytes) : Flow :=
  let frag := { seq := f.nextSn, data := part.2, fragCtrl := part.1 }
  ({ f with nextSn := f.nextSn + 1 }.addFragment frag).1

/-- The walk of `abandon_stale_fragments`, with the number abandoned so far. -/
def abandonFrom (target : Nat) : Nat → List Fragment → List Fragment
  | _, [] => []
  | abandoned, f :: rest =>
    let mark := f.abandoned || abandoned < target
    let abandoned := if mark then abandoned + 1 else abandoned
    let boundary := f.fragCtrl = .whole ∨ f.fragCtrl = .last
    { f with abandoned := mark } :: if abandoned ≥ target ∧ boundary then rest else abandonFrom target abandoned rest

theorem abandonFrom_seq (target abandoned : Nat) (l : List Fragment) :
    (abandonFrom target abandoned l).map Fragment.seq = l.map Fragment.seq := by
  induction l generalizing abandoned with
  | nil => rfl
  | cons f rest ih =>
    rw [abandonFrom, List.map_cons, apply_ite (List.map Fragment.seq), ih, ite_self, List.map_cons]

def abandonStaleFragments (f : Flow) : Flow :=
  if f.usage ≠ .audioVideo ∨ f.fragments.size ≤ eMaxUnackedFragments then f
  else
    let target := f.fragments.size - eMaxUnackedFragments
    { f with fragments := f.fragments.relabel _ (abandonFrom_seq target 0 f.fragments.elems) }

def addAndFragmentData (f : Flow) (data : Bytes) : Flow := ((cut data).foldl enqueue f).abandonStaleFragments

/-- The first loop of `get_fragment_for_sending`: abandoned fragments that are not in flight
go, as long as two are left. -/
def dropAbandoned : Nat → List Fragment → List Fragment
  | _, [] => []
  | size, f :: rest =>
    if size ≥ 2 then
      if !f.inFlight && f.abandoned then dropAbandoned (size - 1) rest else f :: dropAbandoned size rest
    else f :: rest

theorem dropAbandoned_sublist (size : Nat) (l : List Fragment) : (dropAbandoned size l).Sublist l := by
  induction l generalizing size with
  | nil => exact .slnil
  | cons f rest ih =>
    unfold dropAbandoned
    split
    · split
      · exact (ih _).cons f
      · exact (ih _).cons_cons f
    · exact .refl _

/-- The forward sequence number, from the oldest fragment left. -/
def forwardSn (oldest : Fragment) : Nat :=
  if !oldest.abandoned then oldest.seq - 1
  else if oldest.inFlight && !oldest.sentAbandoned then oldest.seq - 1
  else oldest.seq

/-- The fragment to send next and the forward sequence number to send it with. -/
def getFragmentForSending (f : Flow) : Option (Fragment × Nat) × Flow :=
  let left := dropAbandoned f.fragments.size f.fragments.elems
  let f := { f with fragments := f.fragments.restrict left (dropAbandoned_sublist _ _) }
  match left with
  | [] => (none, f)
  | oldest :: rest =>
    if !oldest.inFlight then (some (oldest, forwardSn oldest), f)
    else ((rest.find? fun g => !g.inFlight && !g.abandoned).map fun g => (g, forwardSn oldest), f)

/-- Erase the fragments `acked` picks; the result is the transmission number of the last. -/
def eraseAcked (f : Flow) (acked : Fragment → Bool) : Flow × Nat :=
  ({ f with fragments := f.fragments.filter fun frag => !acked frag },
    ((f.fragments.elems.filter acked).getLast?.map Fragment.tsn).getD 0)

/-- Fragments that timed out are not in flight and stay. -/
def ackFragmentsUntil (f : Flow) (seq : Nat) : Flow × Nat :=
  f.eraseAcked fun frag => frag.seq ≤ seq && frag.inFlight

def ackFragmentsForRange (f : Flow) (first last : Nat) : Flow × Nat :=
  f.eraseAcked fun frag => first ≤ frag.seq && frag.seq ≤ last

def updateNakCount (f : Flow) (maxTsn : Nat) : Flow :=
  let nak (frag : Fragment) : Fragment :=
    if frag.inFlight && frag.tsn < maxTsn then
      { frag with nakCount := frag.nakCount + 1, inFlight := !(frag.nakCount + 1 ≥ 3) }
    else frag
  { f with fragments := f.fragments.update nak fun frag => by unfold nak; split <;> rfl }

def onTimeoutAlarm (f : Flow) : Flow :=
  { f with fragments := f.fragments.update (fun frag => { frag with inFlight := false }) fun _ => rfl }

end Flow
end Fms.Rtmfp
