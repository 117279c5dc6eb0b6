import Fms.Base.Dict

namespace Fms

/-- `result_handler_registry`: by invoke id, the connection that owes the reply and its
callback; and how many replies each connection owes. -/
structure ResultHandlerRegistry (α : Type) where
  maxPerConnection : Nat
  handlers : Dict UInt32 (UInt32 × α) := ∅
  perConn : Dict UInt32 Nat := ∅

namespace ResultHandlerRegistry
variable {α : Type}

def outstanding (r : ResultHandlerRegistry α) (connId : UInt32) : Nat := (r.perConn.lookup connId).getD 0

def add (r : ResultHandlerRegistry α) (invokeId connId : UInt32) (handler : α) : ResultHandlerRegistry α :=
  let outstanding := r.outstanding connId
  if r.maxPerConnection ≠ 0 ∧ outstanding ≥ r.maxPerConnection then
    { r with perConn := r.perConn.insert connId outstanding }
  else
    { r with
      handlers := r.handlers.insert invokeId (connId, handler)
      perConn := r.perConn.insert connId (outstanding + 1) }

def release (r : ResultHandlerRegistry α) (connId : UInt32) : ResultHandlerRegistry α :=
  match r.perConn.lookup connId with
  | some n => if n > 0 then { r with perConn := r.perConn.insert connId (n - 1) } else r
  | none => r

def take (r : ResultHandlerRegistry α) (invokeId : UInt32) : Option α × ResultHandlerRegistry α :=
  match r.handlers.lookup invokeId with
  | none => (none, r)
  | some (connId, handler) => (some handler, { r.release connId with handlers := r.handlers.erase invokeId })

def eraseConnection (r : ResultHandlerRegistry α) (connId : UInt32) : ResultHandlerRegistry α :=
  { r with
    handlers := r.handlers.filterMap fun _ entry => if entry.1 = connId then none else some entry
    perConn := r.perConn.erase connId }

/-- The callbacks for the replies that a connection owes. -/
def owed (r : ResultHandlerRegistry α) (connId invokeId : UInt32) : Option α :=
  (r.handlers.lookup invokeId).bind fun entry => if entry.1 = connId then some entry.2 else none

variable {r : ResultHandlerRegistry α} {invokeId connId other : UInt32} {handler : α}

theorem owed_eq_some : r.owed connId invokeId = some handler ↔
    r.handlers.lookup invokeId = some (connId, handler) := by
  unfold owed
  cases found : r.handlers.lookup invokeId with
  | none => simp
  | some entry =>
    obtain ⟨owner, h⟩ := entry
    simp only [Option.bind_some, Option.some.injEq, Prod.mk.injEq, ite_eq_iff]
    tauto

theorem owed_of_none (none : r.handlers.lookup invokeId = none) : r.owed connId invokeId = .none := by
  rw [owed, none]
  rfl

end ResultHandlerRegistry

/-- What one connection owes: its callbacks and their number. -/
@[ext]
structure Owing (α : Type) where
  owed : UInt32 → Option α := fun _ => none
  outstanding : Nat := 0

namespace Owing
variable {α : Type}

def add (o : Owing α) (most : Nat) (invokeId : UInt32) (handler : α) : Owing α :=
  if most ≠ 0 ∧ o.outstanding ≥ most then o
  else { owed := Function.update o.owed invokeId (some handler), outstanding := o.outstanding + 1 }

def take (o : Owing α) (invokeId : UInt32) : Option α × Owing α :=
  match o.owed invokeId with
  | none => (none, o)
  | some handler => (some handler, { owed := Function.update o.owed invokeId none, outstanding := o.outstanding - 1 })

variable {o : Owing α} {invokeId id : UInt32} {handler : α}

theorem owed_add_ne (most : Nat) (apart : id ≠ invokeId) : (o.add most invokeId handler).owed id = o.owed id := by
  unfold add
  split
  · rfl
  · exact Function.update_of_ne apart ..

theorem owed_take_ne (apart : id ≠ invokeId) : (o.take invokeId).2.owed id = o.owed id := by
  unfold take
  split
  · rfl
  · exact Function.update_of_ne apart ..

end Owing

namespace ResultHandlerRegistry
variable {α : Type} {r : ResultHandlerRegistry α} {invokeId connId other : UInt32} {handler : α}

/-- The part of a registry that one connection is responsible for. -/
def of (r : ResultHandlerRegistry α) (connId : UInt32) : Owing α := ⟨r.owed connId, r.outstanding connId⟩

theorem of_add : (r.add invokeId connId handler).of connId = (r.of connId).add r.maxPerConnection invokeId
    handler := by
  unfold add Owing.add
  show of (if _ then _ else _) connId = if r.maxPerConnection ≠ 0 ∧
    r.outstanding connId ≥ r.maxPerConnection then _ else _
  split
  · refine Owing.ext rfl ?_
    simp [of, outstanding]
  · refine Owing.ext (funext fun id => ?_) ?_
    · show owed _ connId id = Function.update (r.owed connId) invokeId (some handler) id
      rw [owed, Dict.lookup_insert_if, Function.update_apply]
      split
      · simp
      · rfl
    · simp [of, outstanding]

/-- A new callback under a fresh id is no matter of other connections. -/
theorem of_add_other (fresh : r.handlers.lookup invokeId = none) (apart : other ≠ connId) :
    (r.add invokeId connId handler).of other = r.of other := by
  unfold add
  dsimp only
  split
  · refine Owing.ext rfl ?_
    simp [of, outstanding, AList.lookup_insert_ne apart]
  · refine Owing.ext (funext fun id => ?_) ?_
    · show owed _ other id = r.owed other id
      rw [owed, Dict.lookup_insert_if]
      split
      · rename_i same
        rw [same, owed_of_none fresh]
        simp [apart.symm]
      · rfl
    · simp [of, outstanding, AList.lookup_insert_ne apart]

theorem outstanding_release : (r.release connId).outstanding connId = r.outstanding connId - 1 := by
  unfold release
  split
  · rename_i n found
    split
    · simp [outstanding, found]
    · simp only [outstanding, found, Option.getD_some]
      omega
  · rename_i none
    simp [outstanding, none]

theorem outstanding_release_other (apart : other ≠ connId) :
    (r.release connId).outstanding other = r.outstanding other := by
  unfold release
  split
  · split
    · rw [outstanding, AList.lookup_insert_ne apart]
      rfl
    · rfl
  · rfl

theorem take_of_none (none : r.handlers.lookup invokeId = none) : r.take invokeId = (.none, r) := by
  rw [take, none]

theorem take_of_some (found : r.handlers.lookup invokeId = some (connId, handler)) :
    r.take invokeId = (some handler, { r.release connId with handlers := r.handlers.erase invokeId }) := by
  rw [take, found]

/-- A connection that quotes an id it owes, or that nobody does, gets its own callback. -/
theorem take_own (own : ∀ entry, r.handlers.lookup invokeId = some entry → entry.1 = connId) :
    (r.take invokeId).1 = ((r.of connId).take invokeId).1 ∧
      (r.take invokeId).2.of connId = ((r.of connId).take invokeId).2 := by
  cases found : r.handlers.lookup invokeId with
  | none =>
    have nothing : (r.of connId).owed invokeId = none := owed_of_none found
    rw [take_of_none found, Owing.take, nothing]
    exact ⟨rfl, rfl⟩
  | some entry =>
    obtain ⟨owner, handler⟩ := entry
    cases own _ found
    have callback : (r.of owner).owed invokeId = some handler := owed_eq_some.mpr found
    rw [take_of_some found, Owing.take, callback]
    refine ⟨rfl, Owing.ext (funext fun id => ?_) outstanding_release⟩
    show Option.bind ((r.handlers.erase invokeId).lookup id) _ = Function.update (r.owed owner) invokeId none id
    rw [Dict.lookup_erase_if, Function.update_apply]
    split <;> rfl

theorem of_take_other (own : ∀ entry, r.handlers.lookup invokeId = some entry → entry.1 = connId)
    (apart : other ≠ connId) : (r.take invokeId).2.of other = r.of other := by
  cases found : r.handlers.lookup invokeId with
  | none => rw [take_of_none found]
  | some entry =>
    obtain ⟨owner, handler⟩ := entry
    cases own _ found
    rw [take_of_some found]
    refine Owing.ext (funext fun id => ?_) (outstanding_release_other apart)
    show Option.bind ((r.handlers.erase invokeId).lookup id) _ = r.owed other id
    rw [Dict.lookup_erase_if]
    split
    · rename_i same
      rw [same, owed, found]
      simp [apart.symm]
    · rfl

theorem take_some (taken : (r.take invokeId).1 = some handler) :
    ∃ connId, r.handlers.lookup invokeId = some (connId, handler) := by
  cases found : r.handlers.lookup invokeId with
  | none =>
    rw [take_of_none found] at taken
    cases taken
  | some entry =>
    obtain ⟨connId, h⟩ := entry
    rw [take_of_some found] at taken
    cases taken
    exact ⟨connId, rfl⟩

@[simp] theorem add_maxPerConnection : (r.add invokeId connId handler).maxPerConnection = r.maxPerConnection := by
  unfold add
  dsimp only
  split <;> rfl

@[simp] theorem take_maxPerConnection : (r.take invokeId).2.maxPerConnection = r.maxPerConnection := by
  unfold take release
  split
  · rfl
  · dsimp only
    split
    · split <;> rfl
    · rfl

variable {entry : UInt32 × α} {id : UInt32}

theorem lookup_add
    (found : (r.add invokeId connId handler).handlers.lookup id = some entry) :
    entry = (connId, handler) ∨ r.handlers.lookup id = some entry := by
  unfold add at found
  dsimp only at found
  split at found
  · exact .inr found
  · rw [Dict.lookup_insert_if] at found
    split at found
    · exact .inl (Option.some.inj found).symm
    · exact .inr found

theorem lookup_take (found : (r.take invokeId).2.handlers.lookup id = some entry) :
    r.handlers.lookup id = some entry := by
  unfold take at found
  split at found
  · exact found
  · rw [Dict.lookup_erase_if] at found
    split at found
    · cases found
    · exact found

theorem lookup_take_none (fresh : (r.handlers.erase invokeId).lookup id = none) :
    (r.take invokeId).2.handlers.lookup id = none := by
  cases found : r.handlers.lookup invokeId with
  | none =>
    rw [Dict.lookup_erase_if] at fresh
    rw [take_of_none found]
    split at fresh
    · rename_i same
      exact same ▸ found
    · exact fresh
  | some entry =>
    rw [take_of_some found]
    exact fresh

theorem lookup_eraseConnection
    (found : (r.eraseConnection connId).handlers.lookup id = some entry) : r.handlers.lookup id = some entry := by
  rw [eraseConnection, Dict.lookup_filterMap] at found
  obtain ⟨before, is, kept⟩ := Option.bind_eq_some_iff.mp found
  split at kept
  · cases kept
  · exact kept ▸ is

theorem owed_eraseConnection (id : UInt32) :
    (r.eraseConnection connId).owed other id = if other = connId then none else r.owed other id := by
  rw [owed, eraseConnection, Dict.lookup_filterMap, owed]
  cases r.handlers.lookup id with
  | none => simp
  | some entry =>
    by_cases same : entry.1 = connId
    · by_cases mine : other = connId <;> simp [same, mine, eq_comm]
    · by_cases mine : other = connId
      · subst mine
        simp [same]
      · simp [same, mine]

theorem of_eraseConnection : (r.eraseConnection connId).of connId = {} := by
  refine Owing.ext (funext fun id => ?_) ?_
  · exact (owed_eraseConnection id).trans (if_pos rfl)
  · simp [of, outstanding, eraseConnection]

theorem of_eraseConnection_other (apart : other ≠ connId) : (r.eraseConnection connId).of other = r.of other := by
  refine Owing.ext (funext fun id => ?_) ?_
  · exact (owed_eraseConnection id).trans (if_neg apart)
  · simp [of, outstanding, eraseConnection, AList.lookup_erase_ne apart]

end ResultHandlerRegistry

/-- The counters of `client_stats` that a bandwidth check reads. -/
structure ClientStats where
  bytesRead : UInt32 := 0
  bytesWritten : UInt32 := 0

/-- What the server finds when it handles a message: the clock, in nanoseconds, and the
counters of its clients. -/
structure Surroundings where
  now : Int
  stats : UInt32 → Option ClientStats

def Surroundings.getClientStats (env : Surroundings) (connectionId : UInt32) : ClientStats :=
  (env.stats connectionId).getD {}

/-- The two exchanges, by their callbacks. -/
inductive BwCheck
  | download
  | upload
  deriving DecidableEq

/-- `bwcheck_result_handler`; the latency is set before it is read. -/
structure BwcheckResultHandler where
  connectionId : UInt32
  callBack : BwCheck
  bytes : UInt32 := 0
  numCalled : UInt8 := 0
  time : Int
  latency : Int := 0
  deriving DecidableEq

/-- The parameters the exchange sends; the long random string stands for itself. -/
inductive BwParameter
  | null
  | bwcheckString
  | boolean (value : Bool)
  | array (kbps : UInt32)
  deriving DecidableEq

/-- An invoke of the exchange. -/
structure BwInvoke where
  function : String
  id : UInt32
  parameters : List BwParameter
  deriving DecidableEq

/-- Whole milliseconds, towards zero. -/
def milliseconds (duration : Int) : Int := duration.tdiv 1000000

/-- Kilobits per second: the difference of counters is multiplied in 32 bits and divided in 64. -/
def kbps (bytes : UInt32) (duration : Int) : UInt32 :=
  if milliseconds duration ≠ 0 then UInt32.ofInt (((bytes * 8).toNat : Int).tdiv (milliseconds duration)) else 100

namespace BwcheckResultHandler

def handleResultBwCheckUpload (h : BwcheckResultHandler) (env : Surroundings) : BwInvoke :=
  let stats := env.getClientStats h.connectionId
  ⟨"onBWDoneU", 0, [.null, .array (kbps (stats.bytesRead - h.bytes) (env.now - h.time))]⟩

/-- The answer, and the callback to be registered again under the id that the answer has. -/
def handleResultBwCheckDownload (h : BwcheckResultHandler) (env : Surroundings) (id : UInt32) :
    BwInvoke × Option BwcheckResultHandler :=
  if h.numCalled = 0 then
    -- without parameters, to measure the latency
    (⟨"onBWCheck", id, [.null, .boolean true]⟩, some { h with numCalled := h.numCalled + 1, time := env.now })
  else if h.numCalled = 1 then
    let stats := env.getClientStats h.connectionId
    (⟨"onBWCheck", id, [.null, .bwcheckString]⟩,
      some { h with
        numCalled := h.numCalled + 1
        latency := env.now - h.time
        time := env.now
        bytes := stats.bytesWritten })
  else
    let stats := env.getClientStats h.connectionId
    let dt := env.now - h.time - h.latency
    let dt := if milliseconds dt ≤ 0 then env.now - h.time else dt
    (⟨"onBWDone", 0, [.null, .array (kbps (stats.bytesWritten - h.bytes) dt)]⟩, none)

def call (h : BwcheckResultHandler) (env : Surroundings) (id : UInt32) : BwInvoke × Option BwcheckResultHandler :=
  match h.callBack with
  | .download => h.handleResultBwCheckDownload env id
  | .upload => (h.handleResultBwCheckUpload env, none)

theorem call_connectionId {h again : BwcheckResultHandler} {env : Surroundings} {id : UInt32}
    (registers : (h.call env id).2 = some again) : again.connectionId = h.connectionId := by
  unfold call handleResultBwCheckDownload at registers
  split at registers
  · split at registers
    · cases registers
      rfl
    · split at registers
      · cases registers
        rfl
      · cases registers
  · cases registers

end BwcheckResultHandler

/-- A message of a connection that concerns bandwidth checks, or its disconnect. The id that a
`_result` quotes is none if the number in it is not a 32-bit one. -/
inductive BwMove
  | checkBandwidth (connectionId : UInt32) (env : Surroundings)
  | checkUploadBandwidth (connectionId : UInt32) (env : Surroundings)
  | result (connectionId : UInt32) (id : Option UInt32) (env : Surroundings)
  | disconnect (connectionId : UInt32)

def BwMove.connectionId : BwMove → UInt32
  | .checkBandwidth connectionId _ => connectionId
  | .checkUploadBandwidth connectionId _ => connectionId
  | .result connectionId _ _ => connectionId
  | .disconnect connectionId => connectionId

/-- The part of an `rtmp_application` that bandwidth checks use; with what was sent to whom,
and the moves so far, each with the last invoke id before it. -/
structure Bandwidth where
  resultHandlers : ResultHandlerRegistry BwcheckResultHandler := { maxPerConnection := 16 }
  invokeId : UInt32 := 100000
  sent : List (UInt32 × BwInvoke) := []
  history : List (UInt32 × BwMove) := []

namespace Bandwidth

def addResultHandler (b : Bandwidth) (invokeId : UInt32) (handler : BwcheckResultHandler) : Bandwidth :=
  { b with resultHandlers := b.resultHandlers.add invokeId handler.connectionId handler }

def reply (b : Bandwidth) (connectionId : UInt32) (result : BwInvoke) : Bandwidth :=
  { b with sent := b.sent ++ [(connectionId, result)] }

/-- The callback and the invoke of the first step of an exchange. -/
def firstStep (check : BwCheck) (connectionId : UInt32) (env : Surroundings) (id : UInt32) :
    BwcheckResultHandler × BwInvoke :=
  let stats := env.getClientStats connectionId
  match check with
  | .download =>
    ({ connectionId := connectionId, callBack := .download, bytes := stats.bytesWritten, time := env.now },
      ⟨"onBWCheck", id, [.null, .bwcheckString]⟩)
  | .upload =>
    ({ connectionId := connectionId, callBack := .upload, bytes := stats.bytesRead, time := env.now },
      ⟨"onBWCheckU", id, [.null]⟩)

def handleInvokeCheck (b : Bandwidth) (check : BwCheck) (connectionId : UInt32) (env : Surroundings) : Bandwidth :=
  let id := b.invokeId + 1
  let first := firstStep check connectionId env id
  ({ b with invokeId := id }.addResultHandler id first.1).reply connectionId first.2

def handleInvokeCheckBandwidth (b : Bandwidth) (connectionId : UInt32) (env : Surroundings) : Bandwidth :=
  b.handleInvokeCheck .download connectionId env

def handleInvokeCheckUploadBandwidth (b : Bandwidth) (connectionId : UInt32) (env : Surroundings) : Bandwidth :=
  b.handleInvokeCheck .upload connectionId env

/-- The callback is found by the id alone. -/
def handleInvokeResult (b : Bandwidth) (connectionId : UInt32) (id : Option UInt32)
    (env : Surroundings) : Bandwidth :=
  match id with
  | none => b
  | some id =>
    match b.resultHandlers.take id with
    | (none, _) => b
    | (some handler, rest) =>
      let b := { b with resultHandlers := rest }
      match handler.call env (b.invokeId + 1) with
      | (invoke, none) => b.reply connectionId invoke
      | (invoke, some handler) =>
        ({ b with invokeId := b.invokeId + 1 }.addResultHandler (b.invokeId + 1) handler).reply connectionId invoke

def deleteConnection (b : Bandwidth) (connectionId : UInt32) : Bandwidth :=
  { b with resultHandlers := b.resultHandlers.eraseConnection connectionId }

def handle (b : Bandwidth) : BwMove → Bandwidth
  | .checkBandwidth connectionId env => b.handleInvokeCheckBandwidth connectionId env
  | .checkUploadBandwidth connectionId env => b.handleInvokeCheckUploadBandwidth connectionId env
  | .result connectionId id env => b.handleInvokeResult connectionId id env
  | .disconnect connectionId => b.deleteConnection connectionId

def step (b : Bandwidth) (move : BwMove) : Bandwidth :=
  { b.handle move with history := b.history ++ [(b.invokeId, move)] }

end Bandwidth
end Fms
