import Fms.Amf.Decoder

namespace Fms.Amf
open ByteWire Fallible

/-- The output of a write and the thread's `amf_write_budget`: the scopes open, the nodes
charged and the size the output had when the budget was reset. -/
structure Encoder where
  buffer : Bytes := []
  scopes : Nat := 0
  nodes : Nat := 0
  origin : Nat := 0

abbrev Encode := Action AmfError Encoder

namespace WriteBudget

def eMaxDepth : Nat := 32
def eMaxNodes : Nat := 1 <<< 20
def eMaxBytes : Nat := 0xFFFFFF

end WriteBudget

/-- The bytes since the budget was reset, as `std::size_t` subtracts. -/
def Encoder.emitted (s : Encoder) : Nat := wrap64 (2 ^ 64 + s.buffer.length - s.origin)

/-- `amf_write_budget::frame` at `s_depth`, which is given back on every exit and so is a
parameter here. A node that is too deep is not counted. -/
def frame (refusal : AmfError) (depth : Nat) : Encode Unit := do
  if depth = 0 ∧ (← get).scopes = 0 then modify fun s => { s with nodes := 0, origin := s.buffer.length }
  if depth + 1 > WriteBudget.eMaxDepth then throw refusal
  else
    modify fun s => { s with nodes := s.nodes + 1 }
    let s ← get
    if s.nodes ≤ WriteBudget.eMaxNodes ∧ s.emitted < WriteBudget.eMaxBytes then return else throw refusal

def append (bytes : Bytes) : Encode Unit := modify fun s => { s with buffer := s.buffer ++ bytes }

/-- A stretch of the encoding of a value: bytes of its own, or a value it contains. -/
inductive Part (α : Type)
  | bytes (own : Bytes)
  | value (inner : α)

def emit {α : Type} (write : α → Encode Unit) : List (Part α) → Encode Unit
  | [] => return
  | .bytes own :: rest => do
    append own
    emit write rest
  | .value inner :: rest => do
    write inner
    emit write rest

/-- `amf_write_budget::scope` around a body: the outermost one starts the budget, and it is closed
on every exit. -/
def writeScope (body : Encode Unit) : Encode Unit :=
  guarded (fun s => { s with scopes := s.scopes - 1 }) do
    if (← get).scopes = 0 then modify fun s => { s with nodes := 0, origin := s.buffer.length }
    modify fun s => { s with scopes := s.scopes + 1 }
    body

/-- Overwrite bytes at a position that `mark` gave. -/
def patch (pos : Nat) (bytes : Bytes) : Encode Unit :=
  modify fun s => { s with buffer := s.buffer.take pos ++ bytes ++ s.buffer.drop (pos + bytes.length) }

/-- A body behind its length, which is filled in once it is known. -/
def lengthPrefixed (body : Encode Unit) : Encode Unit := do
  let pos := (← get).buffer.length
  append (u32Be 0)
  body
  let size := (← get).buffer.length - pos - 4
  patch pos (u32Be (UInt32.ofNat size))

end Fms.Amf
