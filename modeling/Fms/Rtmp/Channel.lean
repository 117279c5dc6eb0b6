import Fms.Rtmp.Header
import Mathlib.Data.List.AList

namespace Fms
open ByteWire

/-- `rtmp_channel`: the reassembly state of one chunk stream, with the header last
received on it and the header last sent on it. -/
structure RtmpChannel where
  id : UInt32
  messageLen : UInt32 := 0
  prevMessageComplete : Bool := false
  usesContinuation : Bool := false
  receivedHeader : RtmpHeader := {}
  sentHeader : RtmpHeader := {}
  buffer : Bytes := []
  prevHeaderType : HeaderType := .headerNew
  prevTimeDelta : UInt32 := 0
  prevTimestamp : UInt32 := 0

namespace RtmpChannel

/-- Peek-then-commit: nothing changes unless the whole chunk header is present. -/
def tryDeserializeHeader (c : RtmpChannel) (r : Bytes) : Option (RtmpChannel × Bytes) :=
  (c.receivedHeader.tryDeserialize r).map fun (h, r) =>
    ({ c with
        receivedHeader := h
        prevHeaderType := c.receivedHeader.headerType
        prevTimeDelta := c.receivedHeader.tsDeltaRead
        prevTimestamp := c.receivedHeader.timestamp }, r)

/-- A type-3 header that opens a message repeats the previous delta, or after a
type-0 header the type-0 timestamp as delta. -/
def adjustTimestamp (c : RtmpChannel) : RtmpChannel :=
  let continued := c.prevMessageComplete ∧ c.receivedHeader.headerType = .headerContinue
  if (c.prevHeaderType = .headerTimerChange ∨ c.prevHeaderType = .headerSameSource ∨
      c.prevHeaderType = .headerContinue) ∧ continued then
    { c with
      receivedHeader := { c.receivedHeader with timestamp := c.receivedHeader.timestamp + c.prevTimeDelta }
      usesContinuation := true }
  else if c.prevHeaderType = .headerNew ∧ continued then
    { c with
      receivedHeader := { c.receivedHeader with
        timestamp := c.receivedHeader.timestamp + c.prevTimestamp
        tsDeltaRead := c.prevTimestamp }
      usesContinuation := true }
  else if c.usesContinuation ∧ c.receivedHeader.headerType ≠ .headerContinue then
    { c with usesContinuation := false }
  else c

def addData (c : RtmpChannel) (src : Bytes) : RtmpChannel :=
  { c with buffer := c.buffer ++ src, messageLen := c.messageLen + UInt32.ofNat src.length }

def hasEnoughData (c : RtmpChannel) : Bool := c.receivedHeader.messageLength = c.messageLen

def dataSize (c : RtmpChannel) : UInt32 := c.messageLen

def setPrevMessageComplete (c : RtmpChannel) (v : Bool) : RtmpChannel :=
  { c with prevMessageComplete := v }

def clearData (c : RtmpChannel) : RtmpChannel := { c with messageLen := 0, buffer := [] }

end RtmpChannel

/-- `channel_manager`: the channels a connection has opened, one per id. -/
abbrev ChannelManager := AList (fun _ : UInt32 => RtmpChannel)

namespace ChannelManager

def eMaxChannels : Nat := 4096

def size (m : ChannelManager) : Nat := m.keys.length

def findChannel (m : ChannelManager) (id : UInt32) : Option RtmpChannel := m.lookup id

/-- Find-or-insert, for ids that are already bounded. -/
def getChannel (m : ChannelManager) (id : UInt32) : RtmpChannel × ChannelManager :=
  match m.findChannel id with
  | some channel => (channel, m)
  | none => ({ id }, m.insert id { id })

/-- Inbound find-or-create: refused once `eMaxChannels` chunk streams are open. -/
def openChannel (m : ChannelManager) (id : UInt32) : Option (RtmpChannel × ChannelManager) :=
  match m.findChannel id with
  | some channel => some (channel, m)
  | none => if m.size ≥ eMaxChannels then none else some ({ id }, m.insert id { id })

/-- The channel map after a channel object has been changed through its pointer. -/
def store (m : ChannelManager) (id : UInt32) (channel : RtmpChannel) : ChannelManager := m.insert id channel

end ChannelManager
end Fms
