import Fms.So.Converge
import Fms.So.Table

namespace Fms
open ByteWire

variable {msg : SoMessage} {e : SoEvent} {events : List SoEvent} {s : Standing}

/-- The request that a Success acknowledges. -/
def SoEvent.acknowledged : SoEvent → Option (Bytes × SoValue)
  | .success name acknowledged => some (name, acknowledged)
  | _ => none

def SoEvent.isUseSuccess : SoEvent → Bool
  | .useSuccess => true
  | _ => false

def SoEvent.payload : SoEvent → Option Bytes
  | .sendMessage data => some data
  | _ => none

/-- The events by which a client asks for something for itself. -/
def SoEvent.isRequest : SoEvent → Bool
  | .use | .requestChange _ _ | .requestRemove _ => true
  | _ => false

namespace SoMessage

theorem length_addEvent {more : SoMessage} (added : msg.addEvent e = some more) :
    more.events.length ≤ eMaxEvents := by
  unfold addEvent at added
  split at added
  · cases added
  · cases added
    rw [List.length_append, List.length_singleton]
    omega

theorem length_addEvents (short : msg.events.length ≤ eMaxEvents) :
    (msg.addEvents events).events.length ≤ eMaxEvents := by
  induction events generalizing msg with
  | nil => exact short
  | cons e rest ih =>
    unfold addEvents
    split
    · exact short
    · rename_i more added
      exact ih (length_addEvent added)

end SoMessage

namespace SoManager

def received (client : Nat) (sends : PendingSends) : List SoMessage :=
  sends.filterMap fun send => if send.1 = client then some send.2 else none

namespace Effect

def change : Effect → Option (Bytes × SoValue)
  | .changed name value => some (name, value)
  | _ => none

def isAnswer : Effect → Bool
  | .answered => true
  | _ => false

def isEcho : Effect → Bool
  | .echoed => true
  | _ => false

/-- What an effect does to `echoesBack`. -/
def returns (is : Bool) : Effect → Bool
  | .echoed => true
  | .removed _ => false
  | _ => is

/-- The request itself is the reply that replaces the one built up. -/
def echoesBack (trace : List Effect) : Bool := trace.foldl returns false

end Effect

variable {so : SoMessage} {connectionId client : Nat} {m : SoManager} {h last : Handling}
  {now trace : List Effect}

theorem received_eq_inbox {name : Bytes} {sends : PendingSends} (named : ∀ send ∈ sends, send.2.name = name) :
    received client sends = inbox name client sends := by
  refine List.filterMap_congr fun send member => ?_
  simp only [named send member, and_true]

theorem received_deliveries (m : SoManager) (so : SoMessage) (connectionId client : Nat) :
    let h := handleEvents so connectionId (beginHandling m so) so.events
    received client (m.deliveries so connectionId) = inbox so.name client
      ((finish connectionId h).1 ++ ((finish connectionId h).2.map (connectionId, ·)).toList) :=
  received_eq_inbox (runs_trace m so connectionId).named.deliveries

/-- The request is passed on as it is; every other message has at most 64 events. -/
def Capped (so msg : SoMessage) : Prop := msg = so ∨ msg.events.length ≤ SoMessage.eMaxEvents

structure AllCapped (so : SoMessage) (h : Handling) : Prop where
  pending : ∀ send ∈ h.pending, Capped so send.2
  ret : h.ret.events.length ≤ SoMessage.eMaxEvents
  replacement : ∀ msg ∈ h.replacement, Capped so msg

theorem capped_append {sends more : PendingSends} (before : ∀ send ∈ sends, Capped so send.2)
    (after : ∀ send ∈ more, Capped so send.2) : ∀ send ∈ sends ++ more, Capped so send.2 := by
  intro send member
  rcases List.mem_append.mp member with old | new
  · exact before send old
  · exact after send new

theorem capped_notification {version : UInt32} (is : notification so version e = some msg) : Capped so msg :=
  .inr (SoMessage.length_addEvent is)

theorem AllCapped.use (capped : AllCapped so h) (connectionId : Nat) :
    let done := handleUseEvent h.manager so connectionId h.ret h.pending
    (∀ send ∈ done.2.2, Capped so send.2) ∧ done.2.1.events.length ≤ SoMessage.eMaxEvents := by
  simp only [handleUseEvent]
  split
  · exact ⟨capped.pending, capped.ret⟩
  · split
    · exact ⟨capped.pending, capped.ret⟩
    · split
      · refine ⟨capped.pending, SoMessage.length_addEvents ?_⟩
        exact capped.ret
      · refine ⟨capped_append capped.pending fun send member => ?_, capped.ret⟩
        rw [List.mem_singleton.mp member]
        exact .inr (SoMessage.length_addEvents (Nat.zero_le _))

theorem AllCapped.reqChange (capped : AllCapped so h) (connectionId : Nat) (name : Bytes) (value : SoValue) :
    let done := handleReqChangeEvent h.manager so connectionId name value h.ret h.pending
    (∀ send ∈ done.2.2, Capped so send.2) ∧ done.2.1.events.length ≤ SoMessage.eMaxEvents := by
  simp only [handleReqChangeEvent]
  split
  · exact ⟨capped.pending, capped.ret⟩
  · split
    · split
      · exact ⟨capped.pending, capped.ret⟩
      · split
        · exact ⟨capped.pending, capped.ret⟩
        · rename_i added
          refine ⟨capped_append capped.pending fun send member => ?_, SoMessage.length_addEvent added⟩
          obtain ⟨other, _, told⟩ := List.mem_filterMap.mp member
          obtain ⟨notify, is, rfl⟩ := Option.map_eq_some_iff.mp told
          exact capped_notification is
    · exact ⟨capped.pending, capped.ret⟩

theorem capped_fanOut {data : SoData} (capped : Capped so msg) :
    ∀ send ∈ (othersOf data connectionId).map (·, msg), Capped so send.2 := by
  intro send member
  obtain ⟨_, _, rfl⟩ := List.mem_map.mp member
  exact capped

theorem AllCapped.reqRemove (capped : AllCapped so h) (connectionId : Nat) (name : Bytes) :
    let done := handleReqRemoveEvent h.manager so connectionId name h.replacement h.pending
    (∀ send ∈ done.2.2, Capped so send.2) ∧ ∀ msg ∈ done.2.1, Capped so msg := by
  simp only [handleReqRemoveEvent]
  split
  · exact ⟨capped.pending, capped.replacement⟩
  · split
    · split
      · exact ⟨capped.pending, capped.replacement⟩
      · rename_i notify is
        refine ⟨capped_append capped.pending (capped_fanOut (capped_notification is)), fun msg same => ?_⟩
        rw [← Option.some.inj same]
        exact capped_notification is
    · exact ⟨capped.pending, capped.replacement⟩

theorem AllCapped.sendMessage (capped : AllCapped so h) (connectionId : Nat) :
    let done := handleSendMessageEvent h.manager so connectionId h.replacement h.pending
    (∀ send ∈ done.2, Capped so send.2) ∧ ∀ msg ∈ done.1, Capped so msg := by
  simp only [handleSendMessageEvent]
  split
  · exact ⟨capped.pending, capped.replacement⟩
  · exact ⟨capped_append capped.pending (capped_fanOut (.inl rfl)), fun msg same => .inl (Option.some.inj same).symm⟩

theorem AllCapped.makeRoom (capped : AllCapped so h)
    (connectionId : Nat) : AllCapped so (makeRoom so connectionId h) := by
  unfold SoManager.makeRoom
  split
  · refine ⟨capped_append capped.pending fun send member => ?_, Nat.zero_le _, capped.replacement⟩
    rw [List.mem_singleton.mp member]
    exact .inr capped.ret
  · exact capped

theorem AllCapped.handleEvent (capped : AllCapped so h) (connectionId : Nat)
    (e : SoEvent) : AllCapped so (handleEvent so connectionId h e) := by
  cases e with
  | use =>
    unfold SoManager.handleEvent
    by_cases used : h.used = true
    · simp only [if_pos used]
      exact capped
    · simp only [if_neg used]
      obtain ⟨pending, ret⟩ := capped.use connectionId
      exact ⟨pending, ret, capped.replacement⟩
  | release => exact ⟨capped.pending, capped.ret, capped.replacement⟩
  | requestChange name value =>
    have roomy := capped.makeRoom connectionId
    obtain ⟨pending, ret⟩ := roomy.reqChange connectionId name value
    exact ⟨pending, ret, roomy.replacement⟩
  | sendMessage data =>
    obtain ⟨pending, replacement⟩ := capped.sendMessage connectionId
    exact ⟨pending, capped.ret, replacement⟩
  | requestRemove name =>
    obtain ⟨pending, replacement⟩ := capped.reqRemove connectionId name
    exact ⟨pending, capped.ret, replacement⟩
  | _ => exact capped

theorem AllCapped.handleEvents (capped : AllCapped so h) (connectionId : Nat) (events : List SoEvent) :
    AllCapped so (handleEvents so connectionId h events) := by
  induction events generalizing h with
  | nil => exact capped
  | cons e rest ih =>
    unfold SoManager.handleEvents
    simp only
    split
    · exact capped.handleEvent connectionId e
    · exact ih (capped.handleEvent connectionId e)

theorem capped_deliveries (m : SoManager) (so : SoMessage) (connectionId : Nat) :
    ∀ send ∈ m.deliveries so connectionId, Capped so send.2 := by
  have start : AllCapped so (beginHandling m so) :=
    ⟨fun _ none => (nomatch none), Nat.zero_le _, fun _ none => (nomatch none)⟩
  have capped := start.handleEvents connectionId so.events
  refine capped_append ?_ fun send member => ?_
  · simp only [handleSo, finish]
    split
    · refine capped_append capped.pending fun send member => ?_
      rw [List.mem_singleton.mp member]
      exact .inr capped.ret
    · exact capped.pending
  · simp only [handleSo, finish] at member
    split at member
    · cases member
    · rw [Option.map_some, Option.toList_some, List.mem_singleton] at member
      rw [member]
      cases replaced : (SoManager.handleEvents so connectionId (beginHandling m so) so.events).replacement with
      | none => exact .inr capped.ret
      | some msg => exact capped.replacement msg replaced

/-- The events sent to the requester so far, the reply it has yet to get included. -/
def answersSoFar (so : SoMessage) (connectionId : Nat) (h : Handling) : List SoEvent :=
  (inbox so.name connectionId h.pending).flatMap SoMessage.events ++ h.ret.events

theorem acknowledged_useReply (values : Dict Bytes SoValue) :
    (useReply values).filterMap SoEvent.acknowledged = [] := by
  refine List.filterMap_eq_nil_iff.mpr fun e member => ?_
  simp only [useReply, List.mem_cons, List.mem_map] at member
  rcases member with rfl | rfl | ⟨entry, _, rfl⟩
  · rfl
  · rfl
  · rfl

theorem countP_useReply (values : Dict Bytes SoValue) : (useReply values).countP SoEvent.isUseSuccess = 1 := by
  have changes : (values.ordered.map fun entry => SoEvent.change entry.1 entry.2).countP
      SoEvent.isUseSuccess = 0 := by
    refine List.countP_eq_zero.mpr fun e member => ?_
    obtain ⟨entry, _, rfl⟩ := List.mem_map.mp member
    exact Bool.false_ne_true
  rw [useReply, List.countP_cons_of_pos rfl, List.countP_cons_of_neg Bool.false_ne_true, changes]

/-- Every change is acknowledged once, and every `use` that is taken is answered once. -/
structure Answered (so : SoMessage) (connectionId : Nat) (trace : List Effect) (h : Handling) : Prop where
  changes : (answersSoFar so connectionId h).filterMap SoEvent.acknowledged = trace.filterMap Effect.change
  uses : (answersSoFar so connectionId h).countP SoEvent.isUseSuccess = trace.countP Effect.isAnswer

theorem answersSoFar_others {manager : SoManager} {data : SoData} {ret : SoMessage} {replacement : Option SoMessage}
    (named : msg.name = so.name) :
    answersSoFar so connectionId
        { h with
          manager := manager, ret := ret, replacement := replacement,
          pending := h.pending ++ (othersOf data connectionId).map (·, msg) } =
      answersSoFar so connectionId { h with ret := ret } := by
  unfold answersSoFar
  simp only
  rw [inbox_append, ← named, inbox_others_self, named, List.append_nil]

theorem Answered.performs {past : List Effect} (answered : Answered so connectionId past h)
    (named : h.ret.name = so.name)
    (step : Performs so connectionId h now last) : Answered so connectionId (past ++ now) last := by
  obtain ⟨changes, uses⟩ := answered
  have ofSame (same : answersSoFar so connectionId last = answersSoFar so connectionId h)
      (noChange : now.filterMap Effect.change = []) (noUse : now.countP Effect.isAnswer = 0) :
      Answered so connectionId (past ++ now) last := by
    refine ⟨?_, ?_⟩
    · rw [same, changes, List.filterMap_append, noChange, List.append_nil]
    · rw [same, uses, List.countP_append, noUse, Nat.add_zero]
  cases step with
  | ignored => exact ofSame rfl rfl rfl
  | @answered manager data ret _ _ _ first _ replies =>
    have same : answersSoFar so connectionId { h with manager := manager, ret := ret, used := true } =
        answersSoFar so connectionId h ++ useReply data.values := by
      simp only [answersSoFar, first, replies, List.append_nil]
    refine ⟨?_, ?_⟩
    · rw [same, List.filterMap_append, List.filterMap_append, acknowledged_useReply, changes]
      rfl
    · rw [same, List.countP_append, List.countP_append, countP_useReply, uses]
      rfl
  | @answeredApart manager data answer _ _ _ name replies =>
    have same : answersSoFar so connectionId
        { h with manager := manager, pending := h.pending ++ [(connectionId, answer)], used := true } =
          (inbox so.name connectionId h.pending).flatMap SoMessage.events ++ useReply data.values ++
            h.ret.events := by
      simp only [answersSoFar]
      rw [inbox_append, ← name, inbox_self, name, List.flatMap_append, List.flatMap_singleton, replies]
    simp only [answersSoFar, List.filterMap_append, List.countP_append] at changes uses
    refine ⟨?_, ?_⟩
    · rw [same, List.filterMap_append, List.filterMap_append, acknowledged_useReply, List.append_nil,
        List.filterMap_append, ← changes]
      exact (List.append_nil _).symm
    · rw [same, List.countP_append, List.countP_append, countP_useReply, List.countP_append, ← uses]
      show _ + 1 + _ = _ + 1
      omega
  | flushed =>
    refine ofSame ?_ rfl rfl
    simp only [answersSoFar, emptyReply, List.append_nil]
    rw [inbox_append, ← named, inbox_self, List.flatMap_append, List.flatMap_singleton]
  | @changed manager data new ret notify name value _ _ _ _ _ replies about =>
    have same : answersSoFar so connectionId
        { h with
          manager := manager, ret := ret, pending := h.pending ++ (othersOf data connectionId).map (·, notify) } =
          answersSoFar so connectionId h ++ [.success name value] := by
      refine (answersSoFar_others about).trans ?_
      simp only [answersSoFar, replies, List.append_assoc]
    refine ⟨?_, ?_⟩
    · rw [same, List.filterMap_append, List.filterMap_append, changes]
      rfl
    · rw [same, List.countP_append, List.countP_append, uses]
      rfl
  | removed _ _ _ _ _ about => exact ofSame (answersSoFar_others about) rfl rfl
  | echoed => exact ofSame (answersSoFar_others rfl) rfl rfl
  | left => exact ofSame rfl rfl rfl

theorem Runs.answered (run : Runs so connectionId (beginHandling m so) trace h) :
    Answered so connectionId trace h := by
  induction run with
  | start => exact ⟨rfl, rfl⟩
  | next before _ step ih => exact ih.performs before.named.ret step

theorem Runs.answers_once (run : Runs so connectionId (beginHandling m so) trace h) :
    trace.countP Effect.isAnswer ≤ h.used.toNat := by
  induction run with
  | start => exact Nat.zero_le _
  | @next past now mid last _ _ step ih =>
    rw [List.countP_append]
    cases step with
    | @ignored used after =>
      refine ih.trans ?_
      cases used with
      | true => exact Bool.toNat_le _
      | false => rw [after rfl]
    | answered _ _ _ _ _ _ fresh =>
      rw [fresh] at ih
      exact Nat.add_le_add_right ih 1
    | answeredApart _ _ _ _ _ fresh =>
      rw [fresh] at ih
      exact Nat.add_le_add_right ih 1
    | _ => exact ih

theorem Runs.properties (run : Runs so connectionId (beginHandling m so) trace h) (going : h.released = false) :
    h.manager.propertiesOf so.name = (trace.foldl Standing.after (m.standing so connectionId)).values := by
  have stores {manager : SoManager} {data : SoData} {object : Bytes → Option SoData}
      (stored : manager.object = Function.update object so.name (some data)) :
        manager.propertiesOf so.name = data.values := by
    rw [propertiesOf, stored, Function.update_self]
    rfl
  have finds {mid : Handling} {data : SoData} (found : mid.manager.findSo so connectionId = some data) :
      mid.manager.propertiesOf so.name = data.values := by
    rw [propertiesOf, (findSo_eq_some.mp found).1]
    rfl
  induction run with
  | start => rfl
  | @next past now mid last _ before step ih =>
    have same := ih before
    rw [List.foldl_append]
    cases step with
    | answered stored _ keeps => exact (stores stored).trans (keeps.trans same)
    | answeredApart stored _ keeps => exact (stores stored).trans (keeps.trans same)
    | changed found stored _ values =>
      rw [stores stored, values, ← finds found, same]
      rfl
    | removed found _ stored _ values =>
      rw [stores stored, values, ← finds found, same]
      rfl
    | left => cases going
    | _ => exact same

/-- One message holds the answer to `use`, or the reply will. -/
def HoldsAnswer (so : SoMessage) (connectionId : Nat) (values : Dict Bytes SoValue) (h : Handling) : Prop :=
  ∃ msg ∈ inbox so.name connectionId h.pending ++ [h.ret], useReply values <:+: msg.events

theorem HoldsAnswer.performs {values : Dict Bytes SoValue} (holds : HoldsAnswer so connectionId values h)
    (named : h.ret.name = so.name) (step : Performs so connectionId h now last) :
    HoldsAnswer so connectionId values last := by
  obtain ⟨msg, member, block⟩ := holds
  rcases List.mem_append.mp member with sent | reply
  · -- what is pending stays pending
    have grows (more : PendingSends) (pending : last.pending = h.pending ++ more) :
        HoldsAnswer so connectionId values last := by
      refine ⟨msg, List.mem_append_left _ ?_, block⟩
      rw [pending, inbox_append]
      exact List.mem_append_left _ sent
    cases step with
    | ignored => exact grows [] (List.append_nil _).symm
    | answered => exact grows [] (List.append_nil _).symm
    | answeredApart => exact grows _ rfl
    | flushed => exact grows _ rfl
    | changed => exact grows _ rfl
    | removed => exact grows _ rfl
    | echoed => exact grows _ rfl
    | left => exact grows [] (List.append_nil _).symm
  · obtain rfl := List.mem_singleton.mp reply
    have kept (ret : last.ret = h.ret) : HoldsAnswer so connectionId values last :=
      ⟨last.ret, List.mem_append_right _ (List.mem_singleton_self _), ret ▸ block⟩
    cases step with
    | answered _ _ _ first =>
      rw [first] at block
      cases List.infix_nil.mp block
    | flushed =>
      refine ⟨h.ret, List.mem_append_left _ ?_, block⟩
      rw [inbox_append, ← named, inbox_self]
      exact List.mem_append_right _ (List.mem_singleton_self _)
    | changed _ _ _ _ _ replies =>
      refine ⟨_, List.mem_append_right _ (List.mem_singleton_self _), ?_⟩
      rw [replies]
      exact block.trans (List.prefix_append _ _).isInfix
    | ignored => exact kept rfl
    | answeredApart => exact kept rfl
    | removed => exact kept rfl
    | echoed => exact kept rfl
    | left => exact kept rfl

theorem Runs.holdsAnswer (run : Runs so connectionId (beginHandling m so) trace h) {past later : List Effect}
    (split : trace = past ++ .answered :: later) :
    HoldsAnswer so connectionId (past.foldl Standing.after (m.standing so connectionId)).values h := by
  induction run generalizing later with
  | start =>
    have never := congrArg List.length split
    simp at never
  | @next before now mid last run going step ih =>
    have earlier {rest : List Effect} (is : before = past ++ .answered :: rest) := (ih is).performs run.named.ret step
    have values := run.properties going
    -- the answer came earlier, or this step gives it
    have cut {effect : Effect} (is : before ++ [effect] = past ++ .answered :: later) :
        (∃ rest, before = past ++ .answered :: rest) ∨ before = past ∧ effect = .answered := by
      rcases List.eq_nil_or_concat later with rfl | ⟨rest, final, rfl⟩
      · obtain ⟨same, effects⟩ := List.append_inj' is rfl
        exact .inr ⟨same, List.singleton_inj.mp effects⟩
      · rw [List.concat_eq_append, ← List.cons_append, ← List.append_assoc] at is
        exact .inl ⟨rest, (List.append_inj' is rfl).1⟩
    cases step with
    | ignored =>
      rw [List.append_nil] at split
      exact earlier split
    | answered _ _ keeps _ _ replies =>
      rcases cut split with ⟨rest, is⟩ | ⟨rfl, _⟩
      · exact earlier is
      · refine ⟨_, List.mem_append_right _ (List.mem_singleton_self _), ?_⟩
        exact (replies.trans (congrArg useReply (keeps.trans values))) ▸ List.infix_rfl
    | @answeredApart _ _ answer _ _ keeps name replies =>
      rcases cut split with ⟨rest, is⟩ | ⟨rfl, _⟩
      · exact earlier is
      · refine ⟨answer, List.mem_append_left _ ?_, ?_⟩
        · rw [inbox_append, ← name, inbox_self]
          exact List.mem_append_right _ (List.mem_singleton_self _)
        · exact (replies.trans (congrArg useReply (keeps.trans values))) ▸ List.infix_rfl
    | _ =>
      rcases cut split with ⟨rest, is⟩ | ⟨_, other⟩
      · exact earlier is
      · cases other

theorem Runs.replaced (run : Runs so connectionId (beginHandling m so) trace h) :
    if Effect.echoesBack trace then h.replacement = some so
    else ∀ msg ∈ h.replacement, ∃ name, msg.events = [.remove name] := by
  unfold Effect.echoesBack
  induction run with
  | start =>
    intro msg none
    cases none
  | @next past now mid last _ _ step ih =>
    rw [List.foldl_append]
    cases step with
    | @removed _ _ _ notify name _ _ _ _ _ _ tells =>
      intro msg is
      cases is
      exact ⟨name, tells⟩
    | echoed => rfl
    | _ => exact ih

theorem events_received (connectionId : Nat) {h : Handling} (named : Named so h) (stays : h.released = false) :
    (inbox so.name connectionId
      ((finish connectionId h).1 ++
        ((finish connectionId h).2.map (connectionId, ·)).toList)).flatMap SoMessage.events =
        answersSoFar so connectionId h ++ (h.replacement.elim [] SoMessage.events) := by
  rw [inbox_requester named stays, List.flatMap_append, answersSoFar, List.append_assoc]
  congr 1
  cases h.replacement with
  | none => simp
  | some msg =>
    by_cases empty : h.ret.events = []
    · simp [empty]
    · simp [empty]

/-- A request is acknowledged exactly: its requester gets one Success for each change that is
accepted, in order, and where its `use` is taken, one answer with the properties of then in one
message; and what the server builds has at most 64 events. -/
structure Acknowledged (m : SoManager) (so : SoMessage) (connectionId : Nat) : Prop where
  changes : ((received connectionId (m.deliveries so connectionId)).flatMap SoMessage.events).filterMap
    SoEvent.acknowledged = (m.trace so connectionId).filterMap Effect.change
  use : ∀ past later, m.trace so connectionId = past ++ .answered :: later →
    ((received connectionId (m.deliveries so connectionId)).flatMap SoMessage.events).countP
      SoEvent.isUseSuccess = 1 ∧
    ∃ msg ∈ received connectionId (m.deliveries so connectionId),
      useReply (past.foldl Standing.after (m.standing so connectionId)).values <:+: msg.events
  bounded : ∀ send ∈ m.deliveries so connectionId, send.2 = so ∨ send.2.events.length ≤ 64

theorem HoldsAnswer.received {values : Dict Bytes SoValue} (holds : HoldsAnswer so connectionId values h)
    (named : Named so h) (stays : h.released = false) :
    ∃ msg ∈ inbox so.name connectionId
      ((finish connectionId h).1 ++ ((finish connectionId h).2.map (connectionId, ·)).toList),
      useReply values <:+: msg.events := by
  obtain ⟨msg, member, block⟩ := holds
  refine ⟨msg, ?_, block⟩
  rw [inbox_requester named stays]
  rcases List.mem_append.mp member with sent | reply
  · exact List.mem_append_left _ sent
  · refine List.mem_append_right _ ?_
    obtain rfl := List.mem_singleton.mp reply
    have some : h.ret.events ≠ [] := by
      intro empty
      rw [empty] at block
      cases List.infix_nil.mp block
    cases h.replacement with
    | none => exact List.mem_singleton_self _
    | some other =>
      simp only [if_neg some]
      exact List.mem_cons_self ..

/-- The requester gets the answers, and in what is sent back besides them lies all that can be
wrong. -/
theorem acknowledged_iff_rest (m : SoManager) (so : SoMessage) (connectionId : Nat) (noRelease : .release ∉ so.events)
    {rest : List SoEvent} (back : (handleEvents so connectionId (beginHandling m so) so.events).replacement.elim
      [] SoMessage.events = rest) :
    Acknowledged m so connectionId ↔ rest.filterMap SoEvent.acknowledged = [] ∧
      (.answered ∈ m.trace so connectionId → rest.countP SoEvent.isUseSuccess = 0) := by
  have run := runs_trace m so connectionId
  have stays := stays_of_noRelease m connectionId noRelease
  have messages := received_deliveries m so connectionId connectionId
  have events := events_received connectionId run.named stays
  rw [← messages, back] at events
  obtain ⟨changes, uses⟩ := run.answered
  have once := run.answers_once.trans (Bool.toNat_le _)
  constructor
  · intro acknowledged
    refine ⟨?_, fun answered => ?_⟩
    · have extra := acknowledged.changes
      rw [events, List.filterMap_append, changes] at extra
      exact List.append_right_eq_self.mp extra
    · obtain ⟨past, later, split⟩ := List.append_of_mem answered
      have count := (acknowledged.use past later split).1
      rw [events, List.countP_append, uses, split, List.countP_append, List.countP_cons_of_pos rfl] at count
      omega
  · rintro ⟨noSuccess, noUse⟩
    refine ⟨?_, fun past later split => ⟨?_, ?_⟩, capped_deliveries m so connectionId⟩
    · rw [events, List.filterMap_append, changes, noSuccess, List.append_nil]
    · have none := noUse (split ▸ List.mem_append_right _ (List.mem_cons_self ..))
      rw [events, List.countP_append, uses, none, Nat.add_zero]
      rw [split, List.countP_append, List.countP_cons_of_pos rfl] at once ⊢
      omega
    · rw [messages]
      exact (run.holdsAnswer split).received run.named stays

/-- A request without a Release is acknowledged exactly unless it is sent back to its requester
with a Success, or where its `use` is taken with a UseSuccess, among its own events. -/
theorem acknowledged_iff (m : SoManager) (so : SoMessage) (connectionId : Nat) (noRelease : .release ∉ so.events) :
    Acknowledged m so connectionId ↔ (Effect.echoesBack (m.trace so connectionId) = true →
      so.events.filterMap SoEvent.acknowledged = [] ∧
      (.answered ∈ m.trace so connectionId → so.events.countP SoEvent.isUseSuccess = 0)) := by
  rw [acknowledged_iff_rest m so connectionId noRelease rfl]
  have replaced := (runs_trace m so connectionId).replaced
  cases echo : Effect.echoesBack (m.trace so connectionId) with
  | true =>
    rw [echo, if_pos rfl] at replaced
    rw [replaced, Option.elim_some]
    exact ⟨fun clean _ => clean, fun clean => clean rfl⟩
  | false =>
    rw [echo, if_neg Bool.false_ne_true] at replaced
    refine ⟨fun _ never => (Bool.false_ne_true never).elim, fun _ => ?_⟩
    cases is : (handleEvents so connectionId (beginHandling m so) so.events).replacement with
    | none => exact ⟨rfl, fun _ => rfl⟩
    | some msg =>
      obtain ⟨name, tells⟩ := replaced msg is
      rw [Option.elim_some, tells]
      exact ⟨rfl, fun _ => rfl⟩

/-- Join an object, set a property and send a message over it. -/
def busyRequest : SoMessage :=
  { name := [120], events := [.use, .requestChange [97] (sampleValue true), .sendMessage [7]] }

theorem acknowledged_busy : Acknowledged {} busyRequest 1 :=
  (acknowledged_iff {} busyRequest 1 (by simp [busyRequest])).mpr fun _ => ⟨rfl, fun _ => rfl⟩

/-- The request has a UseSuccess of its own and a message to pass on: it is sent back, and its
requester is answered twice. -/
theorem answered_twice :
    ¬Acknowledged {} { name := [120], events := [.use, .sendMessage [7], .useSuccess] } 1 := by
  intro acknowledged
  have once := (acknowledged.use [] [.echoed] rfl).1
  revert once
  decide +kernel

/-- Each client but the sender gets every message of the request once, in order, and nothing
the sender asked for itself; others get nothing. -/
structure Broadcast (m : SoManager) (so : SoMessage) (connectionId : Nat) : Prop where
  members : ∀ c, c ≠ connectionId → m.isClient so.name c = true →
    ((received c (m.deliveries so connectionId)).flatMap SoMessage.events).filterMap SoEvent.payload =
      so.events.filterMap SoEvent.payload ∧
    ∀ msg ∈ received c (m.deliveries so connectionId), ∀ e ∈ msg.events, e.isRequest = false
  strangers : ∀ c, m.isClient so.name c = false → received c (m.deliveries so connectionId) = []

theorem received_other (m : SoManager) (so : SoMessage) (other : client ≠ connectionId) :
    (received client (m.deliveries so connectionId)).map SoMessage.events =
      if m.isClient so.name client then (m.trace so connectionId).filterMap (Effect.fanOut so) else [] := by
  rw [received_deliveries, heard_other other]
  exact ((runs_trace m so connectionId).others other).told

/-- An event of a client leaves it one, and is passed on if it is a message. -/
theorem Standing.effects_joined (joined : s.joined = true) (stays : e ≠ .release) :
    ((s.effects e).foldl after s).joined = true ∧ (s.effects e).countP Effect.isEcho = e.payload.toList.length := by
  cases e with
  | release => exact absurd rfl stays
  | use =>
    simp only [effects]
    split
    · exact ⟨rfl, rfl⟩
    · exact ⟨joined, rfl⟩
  | requestChange name value =>
    simp only [effects]
    split
    · split
      · exact ⟨joined, rfl⟩
      · exact ⟨joined, rfl⟩
    · split
      · exact ⟨joined, rfl⟩
      · exact ⟨joined, rfl⟩
  | sendMessage data =>
    simp only [effects, if_pos joined]
    exact ⟨joined, rfl⟩
  | requestRemove name =>
    simp only [effects]
    split
    · exact ⟨joined, rfl⟩
    · exact ⟨joined, rfl⟩
  | _ => exact ⟨joined, rfl⟩

theorem Standing.countP_echo (joined : s.joined = true) (noRelease : .release ∉ events) :
    (s.trace events).countP Effect.isEcho = (events.filterMap SoEvent.payload).length := by
  induction events generalizing s with
  | nil => rfl
  | cons e rest ih =>
    obtain ⟨stays, later⟩ := not_or.mp (List.mem_cons.not.mp noRelease)
    obtain ⟨still, echoes⟩ := effects_joined joined (Ne.symm stays)
    have trace : s.trace (e :: rest) = s.effects e ++ ((s.effects e).foldl after s).trace rest := by
      cases e with
      | release => exact absurd rfl stays
      | _ => rfl
    rw [trace, List.countP_append, echoes, ih still later, List.filterMap_cons]
    cases e.payload with
    | none => exact Nat.zero_add _
    | some data => exact Nat.add_comm 1 _

/-- The messages among what the others are told: those of the request, once for each echo. -/
theorem payload_fanOut (trace : List Effect) :
    ((trace.filterMap (Effect.fanOut so)).flatten).filterMap SoEvent.payload =
      (List.replicate (trace.countP Effect.isEcho) (so.events.filterMap SoEvent.payload)).flatten := by
  induction trace with
  | nil => rfl
  | cons effect rest ih =>
    rw [List.filterMap_cons, List.countP_cons]
    cases effect with
    | echoed => simp [Effect.fanOut, Effect.isEcho, List.replicate_succ, ih]
    | changed name value => simp [Effect.fanOut, Effect.isEcho, List.filterMap_cons, SoEvent.payload, ih]
    | removed name => simp [Effect.fanOut, Effect.isEcho, List.filterMap_cons, SoEvent.payload, ih]
    | _ => simp [Effect.fanOut, Effect.isEcho, ih]

/-- What the others are told holds a request event just when the request has one and is passed on. -/
theorem fanOut_requests (trace : List Effect) :
    (∀ events ∈ trace.filterMap (Effect.fanOut so), ∀ e ∈ events, e.isRequest = false) ↔
      (0 < trace.countP Effect.isEcho → ∀ e ∈ so.events, e.isRequest = false) := by
  induction trace with
  | nil => simp
  | cons effect rest ih =>
    rw [List.filterMap_cons, List.countP_cons]
    cases effect with
    | echoed =>
      simp only [Effect.fanOut, List.forall_mem_cons, ih, Effect.isEcho, if_true, Nat.succ_pos, true_implies]
      exact ⟨And.left, fun none => ⟨none, fun _ => none⟩⟩
    | changed name value => simpa [Effect.fanOut, Effect.isEcho, SoEvent.isRequest] using ih
    | removed name => simpa [Effect.fanOut, Effect.isEcho, SoEvent.isRequest] using ih
    | _ => simpa [Effect.fanOut, Effect.isEcho] using ih

/-- What a client sends reaches the others exactly once just when there are none, or the request
has no message, or has one and asks for nothing else. -/
theorem broadcast_iff (m : SoManager) (so : SoMessage) (connectionId : Nat)
    (member : m.isClient so.name connectionId = true) (noRelease : .release ∉ so.events) :
    Broadcast m so connectionId ↔ (∀ c, c ≠ connectionId → m.isClient so.name c = false) ∨
      so.events.filterMap SoEvent.payload = [] ∨
      (so.events.filterMap SoEvent.payload).length = 1 ∧ ∀ e ∈ so.events, e.isRequest = false := by
  have joined : (m.standing so connectionId).joined = true := by
    obtain ⟨data, here, client⟩ := isClient_iff.mp member
    show (m.findSo so connectionId).isSome = true
    rw [findSo_eq_some.mpr ⟨here, client⟩]
    rfl
  have echoes : (m.trace so connectionId).countP Effect.isEcho = (so.events.filterMap SoEvent.payload).length :=
    Standing.countP_echo joined noRelease
  have told {c : Nat} (other : c ≠ connectionId) (is : m.isClient so.name c = true) :
      (received c (m.deliveries so connectionId)).map SoMessage.events =
        (m.trace so connectionId).filterMap (Effect.fanOut so) := by
    rw [received_other m so other, is, if_pos rfl]
  have payloads {c : Nat} (other : c ≠ connectionId) (is : m.isClient so.name c = true) :
      ((received c (m.deliveries so connectionId)).flatMap SoMessage.events).filterMap SoEvent.payload =
        (List.replicate (so.events.filterMap SoEvent.payload).length (so.events.filterMap SoEvent.payload)).flatten :=
          by
    rw [List.flatMap_def, told other is, payload_fanOut, echoes]
  have requests {c : Nat} (other : c ≠ connectionId) (is : m.isClient so.name c = true) :
      (∀ msg ∈ received c (m.deliveries so connectionId), ∀ e ∈ msg.events, e.isRequest = false) ↔
        (0 < (so.events.filterMap SoEvent.payload).length → ∀ e ∈ so.events, e.isRequest = false) := by
    rw [← echoes, ← fanOut_requests, ← told other is, List.forall_mem_map]
  constructor
  · intro broadcast
    by_cases alone : ∀ c, c ≠ connectionId → m.isClient so.name c = false
    · exact .inl alone
    · obtain ⟨c, other, is⟩ : ∃ c, c ≠ connectionId ∧ m.isClient so.name c = true := by
        by_contra none
        exact alone fun c other => Bool.eq_false_iff.mpr fun is => none ⟨c, other, is⟩
      obtain ⟨once, none⟩ := broadcast.members c other is
      rw [payloads other is] at once
      have square := congrArg List.length once
      rw [List.length_flatten, List.map_replicate, List.sum_replicate_nat] at square
      rcases Nat.eq_zero_or_pos (so.events.filterMap SoEvent.payload).length with zero | positive
      · exact .inr (.inl (List.length_eq_zero_iff.mp zero))
      · exact .inr (.inr ⟨Nat.eq_of_mul_eq_mul_right positive (square.trans (Nat.one_mul _).symm),
          (requests other is).mp none positive⟩)
  · intro condition
    refine ⟨fun c other is => ?_, fun c outside => ?_⟩
    · rcases condition with alone | none | ⟨one, clean⟩
      · rw [alone c other] at is
        cases is
      · refine ⟨?_, (requests other is).mpr fun positive => ?_⟩
        · rw [payloads other is, none]
          rfl
        · rw [none] at positive
          cases positive
      · refine ⟨?_, (requests other is).mpr fun _ => clean⟩
        rw [payloads other is, one, List.replicate_one, List.flatten_singleton]
    · have other : c ≠ connectionId := by
        rintro rfl
        rw [member] at outside
        cases outside
      have nothing := received_other m so other
      rw [outside] at nothing
      exact List.map_eq_nil_iff.mp nothing

/-- One of two clients sends a message. -/
theorem broadcast_one : Broadcast joined { name := [120], events := [.sendMessage [7]] } 1 :=
  (broadcast_iff _ _ 1 (by decide) (by simp)).mpr (.inr (.inr ⟨rfl, by simp [SoEvent.isRequest]⟩))

/-- One request of a client with two messages: the other client gets each of them twice. -/
theorem message_passed_on_twice :
    ¬Broadcast joined { name := [120], events := [.sendMessage [7], .sendMessage [8]] } 1 := by
  intro broadcast
  have once := (broadcast.members 2 (by decide) (by decide)).1
  revert once
  decide +kernel

end SoManager

end Fms
