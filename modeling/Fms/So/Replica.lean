import Fms.Base.Transition
import Fms.So.Effect

namespace Fms
open ByteWire

/-- A client's copy of the properties of one object. -/
abbrev SoCopy := Bytes → Option SoValue

def SoData.view (data : SoData) : SoCopy := fun name => data.values.lookup name

def SoEvent.hear (copy : SoCopy) : SoEvent → SoCopy
  | .clear => fun _ => none
  | .change name value => Function.update copy name (some value)
  | .success name acknowledged => Function.update copy name (some acknowledged)
  | .remove name => Function.update copy name none
  | _ => copy

/-- The five events that clients send. -/
def SoEvent.Requested : SoEvent → Prop
  | .use | .release | .requestChange _ _ | .sendMessage _ | .requestRemove _ => True
  | _ => False

def SoMessage.hear (copy : SoCopy) (msg : SoMessage) : SoCopy := msg.events.foldl SoEvent.hear copy

namespace SoManager

/-- The messages about one object among those sent to one client. -/
def inbox (name : Bytes) (client : Nat) (sends : PendingSends) : List SoMessage :=
  sends.filterMap fun send => if send.1 = client ∧ send.2.name = name then some send.2 else none

/-- What a request puts out: the deliveries and then the result, which is its requester's. -/
def deliveries (m : SoManager) (so : SoMessage) (connectionId : Nat) : PendingSends :=
  let done := (m.handleSo so connectionId).2
  done.1 ++ (done.2.map (connectionId, ·)).toList

/-- The objects of the server and the copies that the clients keep of them. -/
structure Room where
  manager : SoManager := {}
  copies : Bytes → Nat → SoCopy

inductive Call
  | handleSo (so : SoMessage) (connectionId : Nat)
  | removeConnection (connectionId : Nat)

def Room.step (room : Room) : Call → Room
  | .handleSo so connectionId =>
    { manager := (room.manager.handleSo so connectionId).1
      copies := fun name client =>
        (inbox name client (room.manager.deliveries so connectionId)).foldl SoMessage.hear (room.copies name client) }
  | .removeConnection connectionId => { room with manager := room.manager.removeConnection connectionId }

/-- Every client's copy is what the server stores. -/
def Room.Converged (room : Room) : Prop :=
  ∀ name, ∀ data ∈ room.manager.object name, ∀ client ∈ data.clients, room.copies name client = data.view

namespace Effect

def hear (copy : SoCopy) : Effect → SoCopy
  | .changed name value => Function.update copy name (some value)
  | .removed name => Function.update copy name none
  | _ => copy

/-- What an effect does to `lastRemoval`. -/
def supersede (last : Option Bytes) : Effect → Option Bytes
  | .removed name => some name
  | .echoed => none
  | _ => last

/-- The property whose removal is the last reply to replace the one that is built up. -/
def lastRemoval (trace : List Effect) : Option Bytes := trace.foldl supersede none

/-- What an effect does to `gone`. -/
def goes (name : Bytes) (is : Bool) : Effect → Bool
  | .changed other _ => if other = name then false else is
  | .removed other => if other = name then true else is
  | _ => is

/-- The property was removed and not changed again. -/
def gone (name : Bytes) (trace : List Effect) : Bool := trace.foldl (goes name) false

/-- What an effect does to `owes`. -/
def owe (name : Bytes) (is : Bool × Bool) : Effect → Bool × Bool
  | .answered => (is.1, is.1 && is.2)
  | .flushed => (false, is.2)
  | .changed other _ => if other = name then (true, false) else is
  | .removed other => if other = name then (is.1, true) else is
  | _ => is

/-- Whether an acknowledgement of the property waits in the reply, and whether the property
was removed with nothing after it that would take it out of the requester's copy: an answer
to `use` would, but one that overtakes a waiting acknowledgement does not. -/
def owes (name : Bytes) (trace : List Effect) : Bool × Bool := trace.foldl (owe name) (false, false)

theorem owes_concat (name : Bytes) (trace : List Effect) (effect : Effect) :
    owes name (trace ++ [effect]) = owe name (owes name trace) effect := List.foldl_concat ..

/-- A request tells its requester of its removals: the one removal that is the final reply is
the only one left to tell, and its property is not there again by then. -/
def Told (trace : List Effect) : Prop :=
  ∀ name, ((owes name trace).2 = true → lastRemoval trace = some name) ∧
    (lastRemoval trace = some name → gone name trace = true)

end Effect

/-- A request of the five events clients send, which tells its requester of its removals if
the requester is still a client then. -/
def Call.Tells (room : Room) : Call → Prop
  | .handleSo so connectionId => (∀ e ∈ so.events, e.Requested) ∧
      (.left ∈ room.manager.trace so connectionId ∨ Effect.Told (room.manager.trace so connectionId))
  | .removeConnection _ => True

section Inbox
variable {name : Bytes} {client : Nat} {sends more : PendingSends} {msg : SoMessage}

@[simp] theorem inbox_nil : inbox name client [] = [] := rfl

@[simp] theorem inbox_append : inbox name client (sends ++ more) = inbox name client sends ++
    inbox name client more :=
  List.filterMap_append

theorem inbox_cons {send : Nat × SoMessage} : inbox name client (send :: sends) =
    (if send.1 = client ∧ send.2.name = name then [send.2] else []) ++ inbox name client sends := by
  unfold inbox
  rw [List.filterMap_cons]
  split
  · rename_i none
    rw [if_neg (by simpa using none), List.nil_append]
  · rename_i found some
    split at some
    · rename_i here
      cases some
      rw [if_pos here, List.singleton_append]
    · cases some

theorem inbox_self : inbox msg.name client [(client, msg)] = [msg] := by simp [inbox_cons]

theorem inbox_other {other : Nat} (apart : other ≠ client) : inbox name client [(other, msg)] = [] := by
  simp [inbox_cons, apart]

theorem inbox_eq_nil (elsewhere : ∀ send ∈ sends, send.2.name ≠ name) : inbox name client sends = [] := by
  refine List.filterMap_eq_nil_iff.mpr fun send member => ?_
  simp [elsewhere send member]

theorem inbox_map {clients : List Nat} (distinct : clients.Nodup) :
    inbox msg.name client (clients.map (·, msg)) = if client ∈ clients then [msg] else [] := by
  induction clients with
  | nil => rfl
  | cons first rest ih =>
    obtain ⟨absent, later⟩ := List.nodup_cons.mp distinct
    rw [List.map_cons, inbox_cons, ih later]
    by_cases here : first = client
    · subst here
      simp [absent]
    · simp [here, Ne.symm here]

theorem inbox_others {data : SoData} {connectionId : Nat} :
    inbox msg.name client ((othersOf data connectionId).map (·, msg)) =
      if client ∈ data.clients ∧ client ≠ connectionId then [msg] else [] := by
  have distinct : (othersOf data connectionId).Nodup := data.clients.nodup.filter _
  rw [inbox_map distinct]
  have iff : client ∈ othersOf data connectionId ↔ client ∈ data.clients ∧ client ≠ connectionId := by
    rw [othersOf, List.mem_filter, decide_eq_true_iff]
    rfl
  simp only [iff]

theorem inbox_others_self {data : SoData} {connectionId : Nat} :
    inbox msg.name connectionId ((othersOf data connectionId).map (·, msg)) = [] := by
  rw [inbox_others, if_neg fun other => other.2 rfl]

end Inbox

variable {so : SoMessage} {connectionId client : Nat} {m : SoManager} {h last : Handling}
  {past now trace : List Effect}

/-- All that is put out is about the object the request names. -/
structure Named (so : SoMessage) (h : Handling) : Prop where
  pending : ∀ send ∈ h.pending, send.2.name = so.name
  ret : h.ret.name = so.name
  replacement : ∀ msg ∈ h.replacement, msg.name = so.name

theorem Performs.named (step : Performs so connectionId h now last) (named : Named so h) : Named so last := by
  have fan {data : SoData} {msg : SoMessage} (same : msg.name = so.name) :
      ∀ send ∈ h.pending ++ (othersOf data connectionId).map (·, msg), send.2.name = so.name := by
    intro send member
    rcases List.mem_append.mp member with before | sent
    · exact named.pending send before
    · obtain ⟨_, _, rfl⟩ := List.mem_map.mp sent
      exact same
  have one {msg : SoMessage} (same : msg.name = so.name) :
      ∀ send ∈ h.pending ++ [(connectionId, msg)], send.2.name = so.name := by
    intro send member
    rcases List.mem_append.mp member with before | sent
    · exact named.pending send before
    · rw [List.mem_singleton.mp sent]
      exact same
  cases step with
  | ignored => exact ⟨named.pending, named.ret, named.replacement⟩
  | answered _ _ _ _ name => exact ⟨named.pending, name.trans named.ret, named.replacement⟩
  | answeredApart _ _ _ name => exact ⟨one name, named.ret, named.replacement⟩
  | flushed => exact ⟨one named.ret, rfl, named.replacement⟩
  | changed _ _ _ _ same _ name => exact ⟨fan name, same.trans named.ret, named.replacement⟩
  | removed _ _ _ _ _ name => exact ⟨fan name, named.ret, fun msg is => Option.some.inj is ▸ name⟩
  | echoed => exact ⟨fan rfl, named.ret, fun msg is => Option.some.inj is ▸ rfl⟩
  | left => exact ⟨named.pending, named.ret, named.replacement⟩

theorem Runs.named (run : Runs so connectionId (beginHandling m so) trace h) : Named so h := by
  induction run with
  | start => exact ⟨by simp [beginHandling], rfl, by simp [beginHandling]⟩
  | next _ _ step ih => exact step.named ih

theorem Runs.elsewhere (run : Runs so connectionId (beginHandling m so) trace h) {name : Bytes}
    (other : name ≠ so.name) : h.manager.object name = m.object name := by
  induction run with
  | start => rfl
  | next _ _ step ih =>
    rw [← ih]
    cases step with
    | answered stored | answeredApart stored | changed _ stored | removed _ _ stored =>
      exact (congrFun stored name).trans (Function.update_of_ne other _ _)
    | left elsewhere => exact elsewhere name other
    | _ => rfl

def before (m : SoManager) (so : SoMessage) : SoCopy := fun name => (m.propertiesOf so.name).lookup name

theorem before_eq {data : SoData} (here : m.object so.name = some data) : before m so = data.view := by
  unfold before propertiesOf
  rw [here]
  rfl

theorem Runs.view (run : Runs so connectionId (beginHandling m so) trace h) :
    (h.released = false → before h.manager so = trace.foldl Effect.hear (before m so)) ∧
      ∀ data ∈ h.manager.object so.name, data.view = trace.foldl Effect.hear (before m so) := by
  induction run with
  | start => exact ⟨fun _ => rfl, fun data here => (before_eq (m := m) here).symm⟩
  | @next past now mid last _ going step ih =>
    have properties := ih.1 going
    -- a step that stores the object is known by the view it stores
    have settle {manager : SoManager} {data : SoData} (copy : SoCopy)
        (stored : manager.object = Function.update mid.manager.object so.name (some data))
        (view : data.view = copy) :
        before manager so = copy ∧ ∀ other ∈ manager.object so.name, other.view = copy := by
      have here : manager.object so.name = some data := by rw [stored, Function.update_self]
      refine ⟨(before_eq here).trans view, fun other is => ?_⟩
      cases here.symm.trans is
      exact view
    have found {data : SoData} (finds : mid.manager.findSo so connectionId = some data) :
        data.view = past.foldl Effect.hear (before m so) := by
      rw [← properties, before_eq (findSo_eq_some.mp finds).1]
    rw [List.foldl_append]
    cases step with
    | ignored | flushed | echoed => exact ⟨fun _ => properties, ih.2⟩
    | answered stored _ keeps | answeredApart stored _ keeps =>
      obtain ⟨all, each⟩ := settle (past.foldl Effect.hear (before m so)) stored (by
        rw [← properties]
        unfold SoData.view
        rw [keeps]
        rfl)
      exact ⟨fun _ => all, each⟩
    | @changed manager data new ret notify name value finds stored clients values =>
      obtain ⟨all, each⟩ :=
        settle (Function.update (past.foldl Effect.hear (before m so)) name (some value)) stored (by
        rw [← found finds]
        funext other
        rw [SoData.view, values, Dict.lookup_insert_if, Function.update_apply]
        rfl)
      exact ⟨fun _ => all, each⟩
    | @removed manager data new notify name finds present stored clients values =>
      obtain ⟨all, each⟩ := settle (Function.update (past.foldl Effect.hear (before m so)) name none) stored (by
        rw [← found finds]
        funext other
        rw [SoData.view, values, Dict.lookup_erase_if, Function.update_apply]
        rfl)
      exact ⟨fun _ => all, each⟩
    | left elsewhere remains =>
      refine ⟨fun never => (Bool.noConfusion never), fun data here => ?_⟩
      obtain ⟨old, was, same, _⟩ := remains data here
      have kept : data.view = old.view := by
        unfold SoData.view
        rw [same]
      exact kept.trans (ih.2 old was)

/-- The events of the message that tells the other clients of an effect. -/
def Effect.fanOut (so : SoMessage) : Effect → Option (List SoEvent)
  | .changed name value => some [.change name value]
  | .removed name => some [.remove name]
  | .echoed => some so.events
  | _ => none

def isClient (m : SoManager) (name : Bytes) (client : Nat) : Bool :=
  (m.object name).any fun data => client ∈ data.clients

theorem isClient_iff {name : Bytes} :
    m.isClient name client = true ↔ ∃ data ∈ m.object name, client ∈ data.clients := by
  simp [isClient, Option.any_eq_true_iff_get, Option.eq_some_iff_get_eq]

theorem isClient_of_object {name : Bytes} {data : SoData} (here : m.object name = some data) :
    m.isClient name client = decide (client ∈ data.clients) := by
  rw [isClient, here, Option.any_some]

/-- What a request means for a client that did not make it: it stays a client or stays
outside, and a client is told every effect in order. -/
structure Others (so : SoMessage) (client : Nat) (m : SoManager) (trace : List Effect) (h : Handling) : Prop where
  stays : h.released = false → h.manager.isClient so.name client = m.isClient so.name client
  before : h.manager.isClient so.name client = true → m.isClient so.name client = true
  told : (inbox so.name client h.pending).map SoMessage.events =
    if m.isClient so.name client then trace.filterMap (Effect.fanOut so) else []

theorem Others.fanOut {past : List Effect} (others : Others so client m past h) (going : h.released = false)
    (other : client ≠ connectionId) {data new : SoData} {manager : SoManager}
    (finds : h.manager.findSo so connectionId = some data) (here : manager.object so.name = some new)
    (clients : new.clients = data.clients) {msg : SoMessage} (named : msg.name = so.name) {effect : Effect}
    (tells : effect.fanOut so = some msg.events) {ret : SoMessage} {replacement : Option SoMessage} :
    Others so client m (past ++ [effect])
      { h with manager := manager, ret := ret, replacement := replacement,
               pending := h.pending ++ (othersOf data connectionId).map (·, msg) } := by
  have same : manager.isClient so.name client = m.isClient so.name client := by
    rw [← others.stays going, isClient_of_object here, isClient_of_object (findSo_eq_some.mp finds).1, clients]
  refine ⟨fun _ => same, fun is => same ▸ is, ?_⟩
  have member : (client ∈ data.clients ∧ client ≠ connectionId) ↔ m.isClient so.name client = true := by
    rw [← others.stays going, isClient_of_object (findSo_eq_some.mp finds).1, decide_eq_true_iff]
    exact and_iff_left other
  show (inbox so.name client (h.pending ++ _)).map SoMessage.events = _
  rw [inbox_append, List.map_append, others.told, ← named, inbox_others, named]
  simp only [member]
  split
  · simp [tells]
  · rfl

theorem Runs.others (run : Runs so connectionId (beginHandling m so) trace h) (other : client ≠ connectionId) :
    Others so client m trace h := by
  induction run with
  | start => exact ⟨fun _ => rfl, id, by cases m.isClient so.name client <;> rfl⟩
  | @next past now mid last _ going step ih =>
    -- effects that tell the other clients nothing
    have quiet {effect : Effect} (silent : effect.fanOut so = none) :
        (past ++ [effect]).filterMap (Effect.fanOut so) = past.filterMap (Effect.fanOut so) := by
      simp [silent]
    have joined {manager : SoManager} {data : SoData}
        (stored : manager.object = Function.update mid.manager.object so.name (some data))
        (joins : ∀ c, c ∈ data.clients ↔ c = connectionId ∨ ∃ old ∈ mid.manager.object so.name, c ∈ old.clients) :
        manager.isClient so.name client = m.isClient so.name client := by
      rw [← ih.stays going, Bool.eq_iff_iff, isClient_iff, isClient_iff]
      refine ⟨fun ⟨new, here, member⟩ => ?_, fun member => ⟨data, ?_, (joins client).mpr (.inr member)⟩⟩
      · cases eq_of_stored stored here
        exact ((joins client).mp member).resolve_left other
      · rw [stored, Function.update_self, Option.mem_some_iff]
    cases step with
    | ignored =>
      rw [List.append_nil]
      exact ⟨ih.stays, ih.before, ih.told⟩
    | answered stored joins =>
      have same := joined stored joins
      refine ⟨fun _ => same, fun is => same ▸ is, ?_⟩
      rw [quiet rfl]
      exact ih.told
    | answeredApart stored joins =>
      have same := joined stored joins
      refine ⟨fun _ => same, fun is => same ▸ is, ?_⟩
      rw [quiet rfl, inbox_append, inbox_other other.symm, List.append_nil]
      exact ih.told
    | flushed =>
      refine ⟨ih.stays, ih.before, ?_⟩
      rw [quiet rfl, inbox_append, inbox_other other.symm, List.append_nil]
      exact ih.told
    | changed finds stored clients _ _ _ named tells =>
      refine ih.fanOut going other finds ?_ clients named ?_
      · rw [stored, Function.update_self]
      · rw [tells, Effect.fanOut]
    | removed finds _ stored clients _ named tells =>
      refine ih.fanOut going other finds ?_ clients named ?_
      · rw [stored, Function.update_self]
      · rw [tells, Effect.fanOut]
    | echoed finds => exact ih.fanOut going other finds (findSo_eq_some.mp finds).1 rfl rfl rfl
    | left elsewhere remains =>
      refine ⟨Bool.noConfusion, fun is => ih.before ?_, ?_⟩
      · obtain ⟨new, here, member⟩ := isClient_iff.mp is
        obtain ⟨data, was, _, clients⟩ := remains new here
        exact isClient_iff.mpr ⟨data, was, ((clients client).mp member).2⟩
      · rw [quiet rfl]
        exact ih.told

end SoManager

end Fms
