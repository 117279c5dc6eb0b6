import Fms.App.Bandwidth
import Fms.Base.Transition

namespace Fms

variable {id : UInt32} {env : Surroundings} {handler : BwcheckResultHandler}

/-- One connection with the server to itself: what it owes and what it was sent. -/
@[ext]
structure BwPeer where
  owing : Owing BwcheckResultHandler := {}
  sent : List BwInvoke := []

namespace BwPeer
open Bandwidth

def check (p : BwPeer) (check : BwCheck) (connectionId : UInt32) (env : Surroundings) (last : UInt32) : BwPeer :=
  let first := firstStep check connectionId env (last + 1)
  { owing := p.owing.add 16 (last + 1) first.1, sent := p.sent ++ [first.2] }

def result (p : BwPeer) (id : Option UInt32) (env : Surroundings) (last : UInt32) : BwPeer :=
  match id with
  | none => p
  | some id =>
    match p.owing.take id with
    | (none, _) => p
    | (some handler, rest) =>
      match handler.call env (last + 1) with
      | (invoke, none) => { owing := rest, sent := p.sent ++ [invoke] }
      | (invoke, some handler) => { owing := rest.add 16 (last + 1) handler, sent := p.sent ++ [invoke] }

/-- A move of the connection, with the last invoke id that the server gave out. -/
def step (p : BwPeer) : UInt32 × BwMove → BwPeer
  | (last, .checkBandwidth connectionId env) => p.check .download connectionId env last
  | (last, .checkUploadBandwidth connectionId env) => p.check .upload connectionId env last
  | (last, .result _ id env) => p.result id env last
  | (_, .disconnect _) => { p with owing := {} }

theorem owed_result_ne {p : BwPeer} {quoted last : UInt32} (apart : id ≠ quoted)
    (used : ∀ handler, (p.owing.take quoted).1 = some handler → (handler.call env (last + 1)).2.isSome →
      id ≠ last + 1) :
    (p.result (some quoted) env last).owing.owed id = p.owing.owed id := by
  have kept : (p.owing.take quoted).2.owed id = p.owing.owed id := Owing.owed_take_ne apart
  unfold result
  dsimp only
  split
  · rfl
  · rename_i handler rest taken
    rw [taken] at kept
    split
    · exact kept
    · rename_i invoke next called
      have fresh := used handler (congrArg Prod.fst taken) (by rw [called]; rfl)
      exact (Owing.owed_add_ne 16 fresh).trans kept

end BwPeer

namespace Bandwidth

/-- The part of the server that belongs to a connection. -/
def peer (b : Bandwidth) (connectionId : UInt32) : BwPeer where
  owing := b.resultHandlers.of connectionId
  sent := (b.sent.filter fun entry => entry.1 = connectionId).map Prod.snd

/-- The callback that a `_result` quoting this id runs registers itself again. -/
def registers (b : Bandwidth) (id : UInt32) (env : Surroundings) : Bool :=
  (b.resultHandlers.take id).1.any fun handler => (handler.call env (b.invokeId + 1)).2.isSome

/-- Where a callback is registered the next id is not in use, and a `_result` quotes no id that
another connection owes. -/
def Own (b : Bandwidth) : BwMove → Prop
  | .checkBandwidth _ _ | .checkUploadBandwidth _ _ => b.resultHandlers.handlers.lookup (b.invokeId + 1) = none
  | .result connectionId (some id) env =>
    (∀ entry, b.resultHandlers.handlers.lookup id = some entry → entry.1 = connectionId) ∧
      (b.registers id env = true → (b.resultHandlers.handlers.erase id).lookup (b.invokeId + 1) = none)
  | .result _ none _ | .disconnect _ => True

def invoked (b : Bandwidth) : BwMove → Option BwcheckResultHandler
  | .result _ (some id) _ => (b.resultHandlers.take id).1
  | _ => none

variable {b : Bandwidth} {connectionId other : UInt32} {move : BwMove} {invoke : BwInvoke}

theorem peer_reply : (b.reply connectionId invoke).peer connectionId =
    { b.peer connectionId with sent := (b.peer connectionId).sent ++ [invoke] } := by
  simp [peer, reply]

theorem peer_reply_other (apart : other ≠ connectionId) :
    (b.reply connectionId invoke).peer other = b.peer other := by
  simp [peer, reply, apart.symm]

/-- Every callback is registered for its own connection. -/
structure Registered (b : Bandwidth) : Prop where
  most : b.resultHandlers.maxPerConnection = 16
  own : ∀ id connId handler, b.resultHandlers.handlers.lookup id = some (connId, handler) →
    handler.connectionId = connId

theorem peer_add (most : b.resultHandlers.maxPerConnection = 16) (id : UInt32)
    (owner : handler.connectionId = connectionId) :
    (b.addResultHandler id handler).peer connectionId =
      { b.peer connectionId with owing := (b.peer connectionId).owing.add 16 id handler } := by
  refine BwPeer.ext ?_ rfl
  show (b.resultHandlers.add id handler.connectionId handler).of connectionId = _
  rw [owner, ResultHandlerRegistry.of_add, most]
  rfl

theorem peer_add_other (fresh : b.resultHandlers.handlers.lookup id = none) (apart : other ≠ handler.connectionId) :
    (b.addResultHandler id handler).peer other = b.peer other :=
  BwPeer.ext (ResultHandlerRegistry.of_add_other fresh apart) rfl

theorem firstStep_connectionId (check : BwCheck) (env : Surroundings) (id : UInt32) :
    (firstStep check connectionId env id).1.connectionId = connectionId := by
  cases check <;> rfl

theorem peer_check (most : b.resultHandlers.maxPerConnection = 16) (check : BwCheck) (env : Surroundings) :
    (b.handleInvokeCheck check connectionId env).peer connectionId =
      (b.peer connectionId).check check connectionId env b.invokeId := by
  rw [handleInvokeCheck, peer_reply, peer_add (by exact most) _ (firstStep_connectionId check env _)]
  rfl

theorem peer_check_other (fresh : b.resultHandlers.handlers.lookup (b.invokeId + 1) = none)
    (apart : other ≠ connectionId) (check : BwCheck) (env : Surroundings) :
    (b.handleInvokeCheck check connectionId env).peer other = b.peer other := by
  rw [handleInvokeCheck, peer_reply_other apart, peer_add_other (by exact fresh)]
  · rfl
  · rw [firstStep_connectionId]
    exact apart

/-- What a `_result` can do: miss, or run a callback, which may register itself again. -/
inductive Answered (b : Bandwidth) (connectionId id : UInt32) (env : Surroundings) : Bandwidth → Prop
  | miss : (b.resultHandlers.take id).1 = none → Answered b connectionId id env b
  | done (handler : BwcheckResultHandler) (invoke : BwInvoke) : (b.resultHandlers.take id).1 = some handler →
      handler.call env (b.invokeId + 1) = (invoke, none) →
      Answered b connectionId id env
        (reply { b with resultHandlers := (b.resultHandlers.take id).2 } connectionId invoke)
  | again (handler next : BwcheckResultHandler) (invoke : BwInvoke) : (b.resultHandlers.take id).1 = some handler →
      handler.call env (b.invokeId + 1) = (invoke, some next) →
      Answered b connectionId id env
        (reply (addResultHandler { b with resultHandlers := (b.resultHandlers.take id).2, invokeId := b.invokeId + 1 }
          (b.invokeId + 1) next) connectionId invoke)

theorem handleInvokeResult_answered (id : UInt32) (env : Surroundings) :
    Answered b connectionId id env (b.handleInvokeResult connectionId (some id) env) := by
  unfold handleInvokeResult
  dsimp only
  split
  · rename_i taken
    exact .miss (congrArg Prod.fst taken)
  · rename_i handler rest taken
    have found := congrArg Prod.fst taken
    have left : (b.resultHandlers.take id).2 = rest := congrArg Prod.snd taken
    subst left
    split
    · rename_i invoke called
      exact .done handler invoke found called
    · rename_i invoke next called
      exact .again handler next invoke found called

/-- The callback that a connection gets for an id it owes is its own. -/
theorem Registered.taken (registered : b.Registered)
    (own : ∀ entry, b.resultHandlers.handlers.lookup id = some entry → entry.1 = connectionId)
    (found : (b.resultHandlers.take id).1 = some handler) : handler.connectionId = connectionId := by
  obtain ⟨owner, entry⟩ := ResultHandlerRegistry.take_some found
  rw [registered.own id owner handler entry]
  exact own _ entry

theorem peer_result (registered : b.Registered) (own : b.Own (.result connectionId (some id) env)) :
    (b.handleInvokeResult connectionId (some id) env).peer connectionId =
      (b.peer connectionId).result (some id) env b.invokeId := by
  obtain ⟨first, rest⟩ := ResultHandlerRegistry.take_own own.1
  have same : (b.peer connectionId).owing.take id =
      ((b.resultHandlers.take id).1, (b.resultHandlers.take id).2.of connectionId) := Prod.ext first.symm rest.symm
  have answered : Answered b connectionId id env _ := handleInvokeResult_answered id env
  generalize b.handleInvokeResult connectionId (some id) env = after at answered
  unfold BwPeer.result
  cases answered with
  | miss none =>
    rw [none] at same
    simp only [same]
  | done handler invoke found called =>
    rw [found] at same
    simp only [same, called]
    rw [peer_reply]
    rfl
  | again handler next invoke found called =>
    rw [found] at same
    simp only [same, called]
    have owner : next.connectionId = connectionId := by
      rw [BwcheckResultHandler.call_connectionId (congrArg Prod.snd called)]
      exact registered.taken own.1 found
    rw [peer_reply, peer_add (by simp [registered.most]) _ owner]
    rfl

theorem peer_result_other (registered : b.Registered) (own : b.Own (.result connectionId (some id) env))
    (apart : other ≠ connectionId) : (b.handleInvokeResult connectionId (some id) env).peer other = b.peer other := by
  have rest : (b.resultHandlers.take id).2.of other = b.resultHandlers.of other :=
    ResultHandlerRegistry.of_take_other own.1 apart
  have answered : Answered b connectionId id env _ := handleInvokeResult_answered id env
  generalize b.handleInvokeResult connectionId (some id) env = after at answered
  cases answered with
  | miss => rfl
  | done handler invoke found called =>
    rw [peer_reply_other apart]
    exact BwPeer.ext rest rfl
  | again handler next invoke found called =>
    have owner : next.connectionId = connectionId := by
      rw [BwcheckResultHandler.call_connectionId (congrArg Prod.snd called)]
      exact registered.taken own.1 found
    have fresh := own.2 (by simp [registers, found, called])
    rw [peer_reply_other apart, peer_add_other (ResultHandlerRegistry.lookup_take_none fresh) (owner ▸ apart)]
    exact BwPeer.ext rest rfl

theorem peer_step (registered : b.Registered) (own : b.Own move) :
    (b.step move).peer move.connectionId = (b.peer move.connectionId).step (b.invokeId, move) := by
  cases move with
  | checkBandwidth connectionId env => exact peer_check registered.most .download env
  | checkUploadBandwidth connectionId env => exact peer_check registered.most .upload env
  | result connectionId id env =>
    cases id with
    | none => rfl
    | some id => exact peer_result registered own
  | disconnect connectionId => exact BwPeer.ext ResultHandlerRegistry.of_eraseConnection rfl

theorem peer_step_other (registered : b.Registered) (own : b.Own move) (apart : other ≠ move.connectionId) :
    (b.step move).peer other = b.peer other := by
  cases move with
  | checkBandwidth connectionId env => exact peer_check_other own apart .download env
  | checkUploadBandwidth connectionId env => exact peer_check_other own apart .upload env
  | result connectionId id env =>
    cases id with
    | none => rfl
    | some id => exact peer_result_other registered own apart
  | disconnect connectionId => exact BwPeer.ext (ResultHandlerRegistry.of_eraseConnection_other apart) rfl

theorem Registered.add (registered : b.Registered) (id : UInt32) (handler : BwcheckResultHandler) :
    (b.addResultHandler id handler).Registered := by
  refine ⟨ResultHandlerRegistry.add_maxPerConnection.trans registered.most, fun place owner h found => ?_⟩
  rcases ResultHandlerRegistry.lookup_add found with new | before
  · cases new
    rfl
  · exact registered.own place owner h before

theorem Registered.step (registered : b.Registered) (move : BwMove) : (b.step move).Registered := by
  have counted (last : UInt32) : Registered { b with invokeId := last } := ⟨registered.most, registered.own⟩
  have check (check : BwCheck) (connectionId : UInt32) (env : Surroundings) :
      (b.handleInvokeCheck check connectionId env).Registered := by
    have added := (counted (b.invokeId + 1)).add (b.invokeId + 1)
      (firstStep check connectionId env (b.invokeId + 1)).1
    exact ⟨added.most, added.own⟩
  cases move with
  | checkBandwidth connectionId env =>
    exact ⟨(check .download connectionId env).most, (check .download connectionId env).own⟩
  | checkUploadBandwidth connectionId env =>
    exact ⟨(check .upload connectionId env).most, (check .upload connectionId env).own⟩
  | result connectionId id env =>
    cases id with
    | none => exact ⟨registered.most, registered.own⟩
    | some id =>
      have rest : Registered { b with resultHandlers := (b.resultHandlers.take id).2 } :=
        ⟨ResultHandlerRegistry.take_maxPerConnection.trans registered.most, fun place owner h found =>
          registered.own place owner h (ResultHandlerRegistry.lookup_take found)⟩
      have answered : Answered b connectionId id env _ := handleInvokeResult_answered id env
      show Registered { b.handleInvokeResult connectionId (some id) env with history := _ }
      generalize b.handleInvokeResult connectionId (some id) env = after at answered
      cases answered with
      | miss => exact ⟨registered.most, registered.own⟩
      | done => exact ⟨rest.most, rest.own⟩
      | again handler next invoke found called =>
        have added := Registered.add (b := { b with
          resultHandlers := (b.resultHandlers.take id).2
          invokeId := b.invokeId + 1 }) ⟨rest.most, rest.own⟩ (b.invokeId + 1) next
        exact ⟨added.most, added.own⟩
  | disconnect connectionId =>
    exact ⟨registered.most, fun place owner h found =>
      registered.own place owner h (ResultHandlerRegistry.lookup_eraseConnection found)⟩

/-- Only a `_result` of the connection that quotes the id, or its disconnect, ends what it owes. -/
theorem owed_step (registered : b.Registered) (own : b.Own move)
    (owes : (b.peer connectionId).owing.owed id = some handler) :
    ((b.step move).peer connectionId).owing.owed id = some handler ∨
      (∃ env, move = .result connectionId (some id) env) ∨ move = .disconnect connectionId := by
  by_cases mine : connectionId = move.connectionId
  · subst mine
    have entry := ResultHandlerRegistry.owed_eq_some.mp owes
    rw [peer_step registered own]
    cases move with
    | checkBandwidth | checkUploadBandwidth =>
      have used : id ≠ b.invokeId + 1 := by
        rintro rfl
        cases (show _ = none from own).symm.trans entry
      exact .inl ((Owing.owed_add_ne 16 used).trans owes)
    | result from_ quoted env =>
      cases quoted with
      | none => exact .inl owes
      | some quoted =>
        by_cases same : id = quoted
        · subst same
          exact .inr (.inl ⟨env, rfl⟩)
        · refine .inl ((BwPeer.owed_result_ne same fun handler found again => ?_).trans owes)
          rintro rfl
          have fresh := own.2 (by simpa [registers, (ResultHandlerRegistry.take_own own.1).1.trans found] using again)
          rw [AList.lookup_erase_ne same] at fresh
          cases fresh.symm.trans entry
    | disconnect => exact .inr (.inr rfl)
  · rw [peer_step_other registered own mine]
    exact .inl owes

/-- When no `_result` quotes an id that another connection owes and no id is used twice, all
that a connection owes and all it is sent comes from its own messages alone, whatever others
do; a message runs a callback of its sender only, and a callback waits until its own
connection answers or disconnects. -/
theorem replies_isolated (reach : Transition.Reach step (fun b move => b.Own move) {} b) (connectionId : UInt32) :
    b.peer connectionId = (b.history.filter fun entry => entry.2.connectionId = connectionId).foldl BwPeer.step {} ∧
      ∀ move, b.Own move →
        (∀ handler, b.invoked move = some handler → handler.connectionId = move.connectionId) ∧
          ∀ id handler, (b.peer connectionId).owing.owed id = some handler →
            ((b.step move).peer connectionId).owing.owed id = some handler ∨
              (∃ env, move = .result connectionId (some id) env) ∨ move = .disconnect connectionId := by
  obtain ⟨registered, alone⟩ := reach.invariant
    (I := fun b => b.Registered ∧ ∀ connectionId,
      b.peer connectionId = (b.history.filter fun entry => entry.2.connectionId = connectionId).foldl BwPeer.step {})
    ⟨⟨rfl, nofun⟩, fun _ => rfl⟩ fun {b move} own ⟨registered, alone⟩ => by
      refine ⟨registered.step move, fun connectionId => ?_⟩
      by_cases mine : connectionId = move.connectionId
      · subst mine
        rw [peer_step registered own, alone]
        simp [step]
      · rw [peer_step_other registered own mine, alone]
        simp [step, Ne.symm mine]
  refine ⟨alone connectionId, fun move own => ⟨fun handler runs => ?_, fun id handler owes => ?_⟩⟩
  · cases move with
    | result from_ id env =>
      cases id with
      | none => cases runs
      | some id => exact registered.taken own.1 runs
    | _ => cases runs
  · exact owed_step registered own owes

/-- A clock and no counters. -/
def atTime (now : Int) : Surroundings := ⟨now, fun _ => none⟩

/-- Two connections check at once; each answers the id it was sent. -/
def twoChecks : Bandwidth :=
  List.foldl step {}
    [.checkBandwidth 7 (atTime 0), .checkUploadBandwidth 9 (atTime 1), .result 7 (some 100001) (atTime 2),
      .result 9 (some 100002) (atTime 3)]

theorem replies_isolated_twoChecks :
    (twoChecks.peer 7).sent = [⟨"onBWCheck", 100001, [.null, .bwcheckString]⟩,
      ⟨"onBWCheck", 100003, [.null, .boolean true]⟩] ∧
      twoChecks.peer 7 =
        (twoChecks.history.filter fun entry => entry.2.connectionId = 7).foldl BwPeer.step {} := by
  have reach : Transition.Reach step (fun b move => b.Own move) {} twoChecks :=
    Transition.Reach.start.along
      ⟨rfl, rfl, ⟨fun entry found => by cases found; rfl, fun _ => rfl⟩,
        ⟨fun entry found => by cases found; rfl, fun _ => rfl⟩, trivial⟩
  exact ⟨by decide, (replies_isolated reach 7).1⟩

/-- Connection 9 answers what connection 7 was asked: it runs the callback of 7 and is sent the
next step of its exchange, and the answer of 7 itself finds nothing. -/
theorem reply_taken_over :
    let asked := step {} (.checkBandwidth 7 (atTime 0))
    let stolen := asked.step (.result 9 (some 100001) (atTime 1))
    (asked.invoked (.result 9 (some 100001) (atTime 1))).map BwcheckResultHandler.connectionId = some 7 ∧
      ((asked.peer 7).owing.owed 100001).isSome ∧ (stolen.peer 7).owing.owed 100001 = none ∧
      (stolen.peer 9).sent = [⟨"onBWCheck", 100002, [.null, .boolean true]⟩] ∧
      (stolen.step (.result 7 (some 100001) (atTime 2))).sent = stolen.sent := by
  decide

end Bandwidth
end Fms
