import Fms.Base.Scan
import Fms.Rtmfp.Chunk

namespace Fms.Rtmfp
open ByteWire Scan

variable {r rest : Bytes}

theorem readBlock_local : Local readBlock :=
  readVlu_local.bind fun n => takeBytes_local n

theorem readOption_local : Local readOption := by
  refine readVlu_local.bind fun len => ?_
  by_cases marker : len = 0
  · simp only [marker, ne_eq, not_true_eq_false, if_false]
    exact Local.pure _
  · intro r opt rest got
    simp only [ne_eq, marker, not_false_eq_true, if_true] at got
    obtain ⟨⟨type, behind⟩, first, got⟩ := Option.bind_eq_some_iff.mp got
    obtain ⟨used, rfl, again⟩ := readVlu_local first
    have counted (more : Bytes) : (used ++ more).length - more.length = used.length := by simp
    simp only [counted] at got
    split at got
    · cases got
    · rename_i inside
      split at got
      · cases got
      · rename_i short
        obtain ⟨⟨value, last⟩, cut, same⟩ := Option.bind_eq_some_iff.mp got
        cases same
        obtain ⟨rfl, length⟩ := takeBytes_some cut
        refine ⟨used ++ value, (List.append_assoc _ _ _).symm, fun more => ?_⟩
        simp only [ne_eq, marker, not_false_eq_true, if_true, List.append_assoc, again, Option.bind_eq_bind,
          Option.bind_some, counted, inside, short, if_false, takeBytes_append length, Option.pure_def]

theorem readOption_used {opt : OptionField} (read : readOption r = some (opt, rest)) :
    ∃ a used, r = a :: used ++ rest ∧ ∀ more, readOption (a :: used ++ more) = some (opt, more) := by
  obtain ⟨used, rfl, again⟩ := readOption_local read
  cases used with
  | nil =>
    have nothing := again []
    cases nothing
  | cons a used => exact ⟨a, used, rfl, again⟩

theorem readOptions_used (fuel : Nat) {opts : List OptionField} (read : readOptions fuel r = some (opts, rest)) :
    ∃ used, r = used ++ rest ∧
      ∀ more fuel', used.length ≤ fuel' → readOptions fuel' (used ++ more) = some (opts, more) := by
  induction fuel generalizing r opts with
  | zero => cases read
  | succ fuel ih =>
    obtain ⟨⟨opt, behind⟩, first, later⟩ := Option.bind_eq_some_iff.mp read
    obtain ⟨a, used, rfl, again⟩ := readOption_used first
    dsimp only at later
    split at later
    · rename_i marker
      cases Option.some.inj later
      refine ⟨a :: used, rfl, fun more fuel' enough => ?_⟩
      obtain ⟨fuel', rfl⟩ := Nat.exists_eq_add_of_lt (Nat.lt_of_lt_of_le (Nat.succ_pos _) enough)
      simp only [Nat.zero_add, readOptions, again, Option.bind_eq_bind, Option.bind_some, marker, if_true,
        Option.pure_def]
    · rename_i notMarker
      obtain ⟨⟨opts', last⟩, tail, same⟩ := Option.bind_eq_some_iff.mp later
      cases same
      obtain ⟨used', rfl, again'⟩ := ih tail
      refine ⟨a :: used ++ used', (List.append_assoc _ _ _).symm, fun more fuel' enough => ?_⟩
      simp only [List.length_append, List.length_cons] at enough
      obtain ⟨k, rfl⟩ : ∃ k, fuel' = k + 1 := ⟨fuel' - 1, by omega⟩
      simp only [List.append_assoc, readOptions, again, Option.bind_eq_bind, Option.bind_some, notMarker, if_false,
        again' more k (by omega), Option.pure_def]

theorem readFlaggedOptions_local (flags : UInt8) : Local (readFlaggedOptions flags) := by
  unfold readFlaggedOptions
  split
  · intro r opts rest read
    obtain ⟨used, rfl, again⟩ := readOptions_used _ read
    exact ⟨used, rfl, fun more => again more _ (by simp)⟩
  · exact Local.pure []

theorem iikeyingFields_local : Local iikeyingFields :=
  (takeBytes_local 4).bind fun _ => readBlock_local.bind fun _ => readBlock_local.bind fun _ =>
    readBlock_local.bind fun _ => Local.pure _

theorem userDataFields_local : Local userDataFields :=
  tryU8_local.bind fun flags => readVlu_local.bind fun _ => readVlu_local.bind fun _ => readVlu_local.bind fun _ =>
    (readFlaggedOptions_local flags).bind fun _ => Local.pure _

theorem nextUserDataFields_local : Local nextUserDataFields :=
  tryU8_local.bind fun flags => (readFlaggedOptions_local flags).bind fun _ => Local.pure _

theorem rangeAckFields_local : Local rangeAckFields :=
  readVlu_local.bind fun _ => readVlu_local.bind fun _ => readVlu_local.bind fun _ => Local.pure _

theorem flowExceptionFields_local : Local flowExceptionFields :=
  readVlu_local.bind fun _ => readVlu_local.bind fun _ => Local.pure _

theorem readTrailing_length {α : Type} {fields : Bytes → Option (α × Bytes)} {make : α → Bytes → Chunk}
    (isLocal : Local fields) {len : Nat} {c : Chunk} (read : readTrailing fields make r len = some (c, rest)) :
    rest.length ≤ r.length := by
  obtain ⟨⟨a, behind⟩, first, read⟩ := Option.bind_eq_some_iff.mp read
  obtain ⟨n, _, read⟩ := Option.bind_eq_some_iff.mp read
  obtain ⟨⟨tail, last⟩, cut, same⟩ := Option.bind_eq_some_iff.mp read
  cases same
  have consumed := (isLocal.suffix first).length_le
  have taken := ((takeBytes_local n).suffix cut).length_le
  omega

theorem readRanges_length {after : Nat} (fuel cursor : Nat) {ranges : List (Nat × Nat)}
    (read : readRanges after fuel cursor r = some (ranges, rest)) : rest.length ≤ r.length := by
  induction fuel generalizing cursor r ranges with
  | zero =>
    cases Option.some.inj read
    exact Nat.le_refl _
  | succ fuel ih =>
    unfold readRanges at read
    split at read
    · obtain ⟨⟨x, behind⟩, first, read⟩ := Option.bind_eq_some_iff.mp read
      obtain ⟨⟨y, last⟩, second, read⟩ := Option.bind_eq_some_iff.mp read
      obtain ⟨⟨more, left⟩, tail, same⟩ := Option.bind_eq_some_iff.mp read
      cases same
      have := readVlu_length first
      have := readVlu_length second
      have := ih _ tail
      omega
    · cases Option.some.inj read
      exact Nat.le_refl _

theorem deserialize_length {type : ChunkType} {len : Nat} {c : Chunk}
    (read : deserialize type r len = some (c, rest)) :
    rest.length ≤ r.length := by
  cases type with
  | initiatorHello =>
    unfold deserialize at read
    exact readTrailing_length readBlock_local read
  | initiatorInitialKeying =>
    unfold deserialize at read
    exact readTrailing_length iikeyingFields_local read
  | userData =>
    unfold deserialize at read
    exact readTrailing_length userDataFields_local read
  | nextUserData =>
    unfold deserialize at read
    exact readTrailing_length nextUserDataFields_local read
  | dataAcknowledgementRanges =>
    obtain ⟨⟨fields, behind⟩, first, read⟩ := Option.bind_eq_some_iff.mp read
    obtain ⟨⟨ranges, last⟩, second, same⟩ := Option.bind_eq_some_iff.mp read
    cases same
    have := (rangeAckFields_local.suffix first).length_le
    have := readRanges_length _ _ second
    omega
  | flowExceptionReport =>
    obtain ⟨⟨fields, behind⟩, first, same⟩ := Option.map_eq_some_iff.mp read
    cases same
    exact (flowExceptionFields_local.suffix first).length_le
  | ping =>
    obtain ⟨⟨data, behind⟩, first, same⟩ := Option.map_eq_some_iff.mp read
    cases same
    exact ((takeBytes_local len).suffix first).length_le
  | sessionClose =>
    cases Option.some.inj read
    exact Nat.le_refl _
  | sessionCloseAcknowledgement =>
    cases Option.some.inj read
    exact Nat.le_refl _

def ePad0 : UInt8 := 0x00
def ePadff : UInt8 := 0xff

/-- What can be seen of the scan of a packet: a chunk handed to the handler or skipped,
each with the number of bytes left unread behind it. -/
inductive Event
  | handled (c : Chunk) (unread : Nat)
  | skipped (unread : Nat)
  deriving DecidableEq, Repr

/-- The state of the loop: the handler's own, the length variable, which is not reset
between chunks, and whether a chunk made the function return false. -/
structure PacketScan (σ : Type) where
  handler : σ
  len : Nat := 0
  result : Bool := true

section parse
variable {σ : Type} (handle : σ → Chunk → σ × Bool)

/-- `deserialize_chunk`, on the packet from the body of a chunk on. -/
def deserializeChunk (s : PacketScan σ) (type : UInt8) (raw : Bytes) : Outcome (PacketScan σ) UInt8 Event :=
  match ChunkType.ofByte type with
  | none => .next s (raw.drop s.len) [.skipped (raw.drop s.len).length]
  | some type =>
    match deserialize type raw s.len with
    | none => .next { s with result := false } raw []
    | some (c, raw) =>
      let (handler, accepted) := handle s.handler c
      .next { s with handler, result := accepted } raw [.handled c raw.length]

/-- One round of `parse_chunks`. A round that made the result false is the last one. -/
def chunkStep (s : PacketScan σ) (raw : Bytes) : Outcome (PacketScan σ) UInt8 Event :=
  match raw with
  | type :: hi :: lo :: body =>
    if s.result ∧ s.len ≤ raw.length then
      let s := { s with len := beNat [hi, lo] }
      if type = ePad0 ∨ type = ePadff then .stop s body
      else if s.len ≤ body.length then deserializeChunk handle s type body
      else .next s body []
    else .stop s raw
  | short => .stop s short

theorem deserializeChunk_length {s s' : PacketScan σ} {type : UInt8} {raw : Bytes} {out : List Event}
    (round : deserializeChunk handle s type raw = .next s' rest out) : rest.length ≤ raw.length := by
  unfold deserializeChunk at round
  split at round
  · cases round
    simp
  · split at round
    · cases round
      exact Nat.le_refl _
    · rename_i read
      cases round
      exact deserialize_length read

theorem chunkStep_length {s s' : PacketScan σ} {raw : Bytes} {out : List Event}
    (round : chunkStep handle s raw = .next s' rest out) : rest.length < raw.length := by
  unfold chunkStep at round
  split at round
  · rename_i type hi lo body
    suffices rest.length ≤ body.length by simp only [List.length_cons]; omega
    split at round
    · dsimp only at round
      split at round
      · cases round
      · split at round
        · exact deserializeChunk_length handle round
        · cases round
          exact Nat.le_refl _
    · cases round
  · cases round

def chunkScanner : Scanner (PacketScan σ) UInt8 Event where
  step := chunkStep handle
  rank _ raw := raw.length
  progress _ round := chunkStep_length handle round

/-- What a scan shows: its events, the handler it leaves and what it returns. -/
structure PacketTrace (σ : Type) where
  events : List Event
  handler : σ
  result : Bool

def PacketTrace.of (r : Result (PacketScan σ) UInt8 Event) : PacketTrace σ :=
  ⟨r.out, r.state.handler, r.state.result⟩

def PacketTrace.after (t : PacketTrace σ) (e : Event) : PacketTrace σ := { t with events := e :: t.events }

/-- `parser::parse_chunks`. -/
def parseChunks (handler : σ) (raw : Bytes) : PacketTrace σ :=
  .of ((chunkScanner handle).run { handler } raw)

end parse
end Fms.Rtmfp
