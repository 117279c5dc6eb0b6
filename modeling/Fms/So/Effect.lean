import Fms.So.Manager

namespace Fms
open ByteWire

theorem SoMessage.addEvents_eq {msg : SoMessage} {events : List SoEvent}
    (room : msg.events.length + events.length ≤ eMaxEvents) :
    msg.addEvents events = { msg with events := msg.events ++ events } := by
  induction events generalizing msg with
  | nil => simp [addEvents]
  | cons e rest ih =>
    simp only [List.length_cons] at room
    have below : ¬msg.events.length ≥ eMaxEvents := by omega
    have later : (msg.events ++ [e]).length + rest.length ≤ eMaxEvents := by
      simp only [List.length_append, List.length_singleton]
      omega
    rw [addEvents, addEvent, if_neg below]
    simp only
    rw [ih later]
    simp

namespace SoManager

def object (m : SoManager) (name : Bytes) : Option SoData := m.soMap.lookup name

/-- A `use` of the connection would be taken. -/
def Welcomes (m : SoManager) (so : SoMessage) (connectionId : Nat) : Prop :=
  ¬((m.object so.name).isNone ∧ m.soMap.size ≥ eMaxObjects) ∧
    ¬(m.joining so connectionId ∧ m.useCount connectionId ≥ eMaxObjectsPerConnection)

instance (m : SoManager) (so : SoMessage) (connectionId : Nat) : Decidable (m.Welcomes so connectionId) :=
  inferInstanceAs (Decidable (¬_ ∧ ¬_))

def propertiesOf (m : SoManager) (name : Bytes) : Dict Bytes SoValue :=
  ((m.object name).map SoData.values).getD ∅

/-- What an event of a request does: a `use` is answered, a full reply goes out, a property
is changed or removed, a message is passed on, the connection leaves. -/
inductive Effect
  | answered
  | flushed
  | changed (name : Bytes) (value : SoValue)
  | removed (name : Bytes)
  | echoed
  | left

/-- What a connection in the course of a request has of the object: whether a `use` would be
answered, whether it is a client, the events of the reply so far, the properties. -/
structure Standing where
  welcome : Bool
  joined : Bool
  held : Nat
  values : Dict Bytes SoValue

namespace Standing

def effects (s : Standing) : SoEvent → List Effect
  | .use => if s.welcome then [.answered] else []
  | .release => [.left]
  | .requestChange name value =>
    (if s.held ≥ SoMessage.eMaxEvents then [.flushed] else []) ++
      if s.joined ∧ (s.values.size < eMaxProperties ∨ name ∈ s.values) ∧ replayable value then
        [.changed name value]
      else []
  | .sendMessage _ => if s.joined then [.echoed] else []
  | .requestRemove name => if s.joined ∧ name ∈ s.values then [.removed name] else []
  | _ => []

def after (s : Standing) : Effect → Standing
  | .answered =>
    { s with welcome := false, joined := true, held := if s.held = 0 then s.values.size + 2 else s.held }
  | .flushed => { s with held := 0 }
  | .changed name value => { s with held := s.held + 1, values := s.values.insert name value }
  | .removed name => { s with values := s.values.erase name }
  | .echoed => s
  | .left => { s with joined := false }

/-- The effects of a request, up to a release. -/
def trace (s : Standing) : List SoEvent → List Effect
  | [] => []
  | .release :: _ => [.left]
  | e :: rest => s.effects e ++ ((s.effects e).foldl after s).trace rest

end Standing

def standing (m : SoManager) (so : SoMessage) (connectionId : Nat) : Standing where
  welcome := m.Welcomes so connectionId
  joined := (m.findSo so connectionId).isSome
  held := 0
  values := m.propertiesOf so.name

/-- The effects of a request on the object it names. -/
def trace (m : SoManager) (so : SoMessage) (connectionId : Nat) : List Effect :=
  (m.standing so connectionId).trace so.events

/-- What one effect does to the locals of `handle_so` and to the stored objects. -/
inductive Performs (so : SoMessage) (connectionId : Nat) (h : Handling) : List Effect → Handling → Prop
  | ignored {used : Bool} (after : used = false → h.used = false) :
      Performs so connectionId h [] { h with used := used }
  | answered {manager : SoManager} {data : SoData} {ret : SoMessage}
      (stored : manager.object = Function.update h.manager.object so.name (some data))
      (joins : ∀ c, c ∈ data.clients ↔ c = connectionId ∨ ∃ old ∈ h.manager.object so.name, c ∈ old.clients)
      (keeps : data.values = h.manager.propertiesOf so.name) (first : h.ret.events = [])
      (name : ret.name = h.ret.name) (replies : ret.events = useReply data.values) (fresh : h.used = false) :
      Performs so connectionId h [.answered] { h with manager := manager, ret := ret, used := true }
  | answeredApart {manager : SoManager} {data : SoData} {answer : SoMessage}
      (stored : manager.object = Function.update h.manager.object so.name (some data))
      (joins : ∀ c, c ∈ data.clients ↔ c = connectionId ∨ ∃ old ∈ h.manager.object so.name, c ∈ old.clients)
      (keeps : data.values = h.manager.propertiesOf so.name)
      (name : answer.name = so.name) (replies : answer.events = useReply data.values) (fresh : h.used = false) :
      Performs so connectionId h [.answered]
        { h with manager := manager, pending := h.pending ++ [(connectionId, answer)], used := true }
  | flushed : Performs so connectionId h [.flushed]
      { h with pending := h.pending ++ [(connectionId, h.ret)], ret := emptyReply so }
  | changed {manager : SoManager} {data new : SoData} {ret notify : SoMessage} {name : Bytes} {value : SoValue}
      (found : h.manager.findSo so connectionId = some data)
      (stored : manager.object = Function.update h.manager.object so.name (some new))
      (clients : new.clients = data.clients) (values : new.values = data.values.insert name value)
      (same : ret.name = h.ret.name) (replies : ret.events = h.ret.events ++ [.success name value])
      (named : notify.name = so.name) (tells : notify.events = [.change name value]) :
      Performs so connectionId h [.changed name value]
        { h with manager := manager, ret := ret,
                 pending := h.pending ++ (othersOf data connectionId).map (·, notify) }
  | removed {manager : SoManager} {data new : SoData} {notify : SoMessage} {name : Bytes}
      (found : h.manager.findSo so connectionId = some data) (present : name ∈ data.values)
      (stored : manager.object = Function.update h.manager.object so.name (some new))
      (clients : new.clients = data.clients) (values : new.values = data.values.erase name)
      (named : notify.name = so.name) (tells : notify.events = [.remove name]) :
      Performs so connectionId h [.removed name]
        { h with manager := manager, replacement := some notify,
                 pending := h.pending ++ (othersOf data connectionId).map (·, notify) }
  | echoed {data : SoData} (found : h.manager.findSo so connectionId = some data) :
      Performs so connectionId h [.echoed]
        { h with replacement := some so, pending := h.pending ++ (othersOf data connectionId).map (·, so) }
  | left {manager : SoManager} (elsewhere : ∀ name, name ≠ so.name → manager.object name = h.manager.object name)
      (remains : ∀ new ∈ manager.object so.name, ∃ data ∈ h.manager.object so.name,
        new.values = data.values ∧ ∀ c, c ∈ new.clients ↔ c ≠ connectionId ∧ c ∈ data.clients) :
      Performs so connectionId h [.left] { h with manager := manager, released := true }

/-- The effects of a stretch of the loop of `handle_so`. -/
inductive Runs (so : SoMessage) (connectionId : Nat) (h : Handling) : List Effect → Handling → Prop
  | start : Runs so connectionId h [] h
  | next {past now : List Effect} {mid last : Handling} : Runs so connectionId h past mid → mid.released = false →
      Performs so connectionId mid now last → Runs so connectionId h (past ++ now) last

variable {so : SoMessage} {connectionId : Nat} {m : SoManager} {h mid last : Handling} {past now : List Effect}

theorem Performs.runs (step : Performs so connectionId h now last) (going : h.released = false) :
    Runs so connectionId h now last := by
  simpa using Runs.start.next going step

theorem Runs.append (first : Runs so connectionId h past mid) (second : Runs so connectionId mid now last) :
    Runs so connectionId h (past ++ now) last := by
  induction second with
  | start => simpa using first
  | next _ going step ih => simpa [List.append_assoc] using ih.next going step

/-- The locals agree with the standing of the connection. -/
structure Tracks (so : SoMessage) (connectionId : Nat) (h : Handling) (s : Standing) : Prop where
  going : h.released = false
  welcome : s.welcome = true ↔ h.used = false ∧ h.manager.Welcomes so connectionId
  joined : s.joined = (h.manager.findSo so connectionId).isSome
  held : s.held = h.ret.events.length
  values : s.values = h.manager.propertiesOf so.name

theorem tracks_begin : Tracks so connectionId (beginHandling m so) (m.standing so connectionId) where
  going := rfl
  welcome := by
    show decide (m.Welcomes so connectionId) = true ↔ _
    rw [decide_eq_true_iff]
    exact ⟨fun welcome => ⟨rfl, welcome⟩, And.right⟩
  joined := rfl
  held := rfl
  values := rfl

variable {data : SoData}

theorem findSo_eq_some :
    m.findSo so connectionId = some data ↔ m.object so.name = some data ∧ connectionId ∈ data.clients := by
  simp [findSo, object, Option.filter_eq_some_iff]

theorem object_store (data : SoData) :
    (m.store so data).object = Function.update m.object so.name (some data) := by
  funext name
  rw [object, store, Dict.lookup_insert_if, Function.update_apply]
  rfl

theorem object_removeConnection {name : Bytes} {data : SoData}
    (here : (m.removeConnection connectionId).object name = some data) :
    ∃ old, m.object name = some old ∧ data = { old with clients := old.clients.erase connectionId } ∧
      data.clients.size ≠ 0 := by
  have dropped : (m.soMap.filterMap fun _ data =>
      if (data.clients.erase connectionId).size = 0 then none
      else some { data with clients := data.clients.erase connectionId }).lookup name = some data := here
  rw [Dict.lookup_filterMap, Option.bind_eq_some_iff] at dropped
  obtain ⟨old, was, becomes⟩ := dropped
  split at becomes
  · cases becomes
  · rename_i more
    cases becomes
    exact ⟨old, was, rfl, more⟩

theorem eq_of_stored {manager : SoManager} {data new : SoData}
    (stored : manager.object = Function.update m.object so.name (some data)) (here : new ∈ manager.object so.name) :
    new = data := by
  rw [stored, Function.update_self, Option.mem_some_iff] at here
  exact here.symm

theorem Tracks.values_of {s : Standing} (tracks : Tracks so connectionId h s)
    (found : h.manager.findSo so connectionId = some data) : s.values = data.values := by
  rw [tracks.values, propertiesOf, (findSo_eq_some.mp found).1]
  rfl

theorem increaseVersion_eq (m : SoManager) (data : SoData) : ∃ newMessage version,
    m.increaseVersion data = ({ m with newMessage := newMessage }, { data with version := version }) := by
  unfold increaseVersion
  split
  · exact ⟨_, _, rfl⟩
  · exact ⟨_, _, rfl⟩

theorem store_standing {data new : SoData} (newMessage : Bool) (found : m.findSo so connectionId = some data)
    (clients : new.clients = data.clients) :
    (({ m with newMessage := newMessage }.store so new).Welcomes so connectionId ↔ m.Welcomes so connectionId) ∧
      ({ m with newMessage := newMessage }.store so new).findSo so connectionId = some new := by
  obtain ⟨at_, member⟩ := findSo_eq_some.mp found
  have there : m.soMap.lookup so.name = some data := at_
  have key : so.name ∈ m.soMap := by
    rw [← AList.lookup_isSome, there]
    rfl
  refine ⟨?_, ?_⟩
  · simp only [Welcomes, object, joining, store, useCount, AList.lookup_insert, there, clients,
      Dict.size_insert_mem key, Option.isNone_some]
  · refine findSo_eq_some.mpr ⟨?_, clients ▸ member⟩
    exact AList.lookup_insert _

theorem handleUseEvent_refused {result : SoMessage} {pending : PendingSends} (refused : ¬m.Welcomes so connectionId) :
    handleUseEvent m so connectionId result pending = (m, result, pending) := by
  unfold handleUseEvent
  simp only
  split
  · rfl
  · rename_i known
    split
    · rfl
    · rename_i few
      exact absurd ⟨known, few⟩ refused

theorem handleUseEvent_taken (result : SoMessage) (pending : PendingSends) (taken : m.Welcomes so connectionId) :
    ∃ (manager : SoManager) (data : SoData),
      manager.object = Function.update m.object so.name (some data) ∧
      (∀ c, c ∈ data.clients ↔ c = connectionId ∨ ∃ old ∈ m.object so.name, c ∈ old.clients) ∧
      data.values = m.propertiesOf so.name ∧
      handleUseEvent m so connectionId result pending =
        (manager, if result.events = [] then ({ result with flags := 0x20, events := useReply data.values }, pending)
          else (result, pending ++ [(connectionId,
            { name := so.name, version := so.version, flags := 0x20, events := useReply data.values })])) := by
  let found := (m.soMap.lookup so.name).getD {}
  let data : SoData := { found with clients := found.clients.insert connectionId }
  let counted :=
    if m.joining so connectionId then m.useCounts.insert connectionId (m.useCount connectionId + 1) else m.useCounts
  have whole : (useReply ((m.soMap.lookup so.name).getD {}).values).length ≤ SoMessage.eMaxEvents := by
    have bound := found.bounded
    simp only [eMaxProperties, SoMessage.eMaxEvents] at bound
    simp only [useReply, List.length_cons, List.length_map, Dict.length_ordered, SoMessage.eMaxEvents]
    show found.values.size + 1 + 1 ≤ 64
    omega
  refine ⟨{ m.store so data with useCounts := counted }, data, object_store data, fun c => ?_, ?_, ?_⟩
  · show c ∈ found.clients.insert connectionId ↔ _
    rw [OrdSet.mem_insert]
    cases known : m.soMap.lookup so.name with
    | none => simp [found, object, known]
    | some old => simp [found, object, known]
  · show found.values = _
    cases known : m.soMap.lookup so.name with
    | none => simp [found, propertiesOf, object, known]
    | some old => simp [found, propertiesOf, object, known]
  · unfold handleUseEvent
    simp only
    have known : ¬((m.soMap.lookup so.name).isNone ∧ m.soMap.size ≥ eMaxObjects) := taken.1
    rw [if_neg known, if_neg taken.2]
    split
    · rename_i empty
      rw [SoMessage.addEvents_eq (by simpa [empty] using whole)]
      simp only [empty, List.nil_append]
      rfl
    · rw [SoMessage.addEvents_eq (by simpa using whole)]
      rfl

/-- One event does what its effects say. -/
def Follows (so : SoMessage) (connectionId : Nat) (h : Handling) (s : Standing) (e : SoEvent) : Prop :=
  Runs so connectionId h (s.effects e) (handleEvent so connectionId h e) ∧
    Tracks so connectionId (handleEvent so connectionId h e) ((s.effects e).foldl Standing.after s)

variable {s : Standing}

theorem Tracks.follows_use (tracks : Tracks so connectionId h s) : Follows so connectionId h s .use := by
  unfold Follows
  cases welcome : s.welcome with
  | false =>
    have refused : ¬(h.used = false ∧ h.manager.Welcomes so connectionId) := by
      rw [← tracks.welcome, welcome]
      exact Bool.false_ne_true
    have same : handleEvent so connectionId h .use = { h with used := true } := by
      cases used : h.used with
      | true =>
        simp only [handleEvent, used, if_true]
        rw [← used]
      | false =>
        have never : ¬h.manager.Welcomes so connectionId := fun welcomes => refused ⟨used, welcomes⟩
        simp only [handleEvent, used, handleUseEvent_refused never]
        rfl
    simp only [Standing.effects, welcome, Bool.false_eq_true, if_false, List.foldl_nil, same]
    refine ⟨(Performs.ignored Bool.noConfusion).runs tracks.going,
      ⟨tracks.going, ?_, tracks.joined, tracks.held, tracks.values⟩⟩
    simp [welcome]
  | true =>
    obtain ⟨fresh, taken⟩ := tracks.welcome.mp welcome
    obtain ⟨manager, data, stored, joins, keeps, becomes⟩ :=
      handleUseEvent_taken h.ret h.pending taken
    have here : manager.object so.name = some data := by rw [stored, Function.update_self]
    have client : (manager.findSo so connectionId).isSome = true := by
      rw [findSo_eq_some.mpr ⟨here, (joins connectionId).mpr (.inl rfl)⟩]
      rfl
    have values : s.values = manager.propertiesOf so.name := by
      rw [tracks.values, ← keeps, propertiesOf, here]
      rfl
    simp only [Standing.effects, welcome, if_true, List.foldl_cons, List.foldl_nil, handleEvent, fresh, becomes,
      Bool.false_eq_true, if_false]
    by_cases empty : h.ret.events = []
    · have none : s.held = 0 := by rw [tracks.held, empty, List.length_nil]
      simp only [empty, if_true]
      refine ⟨Performs.runs (Performs.answered stored joins keeps empty rfl rfl fresh) tracks.going, tracks.going,
        ?_, ?_, ?_, ?_⟩
      · simp [Standing.after]
      · simp [Standing.after, client]
      · simp only [Standing.after, none, if_true, useReply, List.length_cons, List.length_map, Dict.length_ordered,
          tracks.values, ← keeps]
      · exact values
    · have some_ : s.held ≠ 0 := by
        rw [tracks.held]
        exact fun zero => empty (List.length_eq_zero_iff.mp zero)
      simp only [empty, if_false]
      refine ⟨Performs.runs (Performs.answeredApart stored joins keeps rfl rfl fresh) tracks.going, tracks.going,
        ?_, ?_, ?_, ?_⟩
      · simp [Standing.after]
      · simp [Standing.after, client]
      · simp only [Standing.after, if_neg some_]
        exact tracks.held
      · exact values

theorem Tracks.follows_sendMessage (tracks : Tracks so connectionId h s) (data : Bytes) :
    Follows so connectionId h s (.sendMessage data) := by
  unfold Follows
  cases found : h.manager.findSo so connectionId with
  | none =>
    have outside : s.joined = false := by rw [tracks.joined, found, Option.isSome_none]
    simp only [Standing.effects, outside, handleEvent, handleSendMessageEvent, found]
    exact ⟨(Performs.ignored id).runs tracks.going, tracks⟩
  | some object =>
    have inside : s.joined = true := by rw [tracks.joined, found, Option.isSome_some]
    simp only [Standing.effects, inside, handleEvent, handleSendMessageEvent, found]
    exact ⟨(Performs.echoed found).runs tracks.going,
      ⟨tracks.going, tracks.welcome, tracks.joined, tracks.held, tracks.values⟩⟩

theorem notification_eq (version : UInt32) (e : SoEvent) :
    notification so version e = some { name := so.name, version := version, flags := 0, events := [e] } := rfl

theorem Tracks.follows_requestRemove (tracks : Tracks so connectionId h s) (name : Bytes) :
    Follows so connectionId h s (.requestRemove name) := by
  unfold Follows
  cases found : h.manager.findSo so connectionId with
  | none =>
    have outside : s.joined = false := by rw [tracks.joined, found, Option.isSome_none]
    simp only [Standing.effects, outside, handleEvent, handleReqRemoveEvent, found]
    exact ⟨(Performs.ignored id).runs tracks.going, tracks⟩
  | some data =>
    have inside : s.joined = true := by rw [tracks.joined, found, Option.isSome_some]
    have values := tracks.values_of found
    by_cases present : name ∈ data.values
    · obtain ⟨newMessage, version, raised⟩ := increaseVersion_eq h.manager (data.eraseValue name)
      have kept : ({ data.eraseValue name with version := version } : SoData).clients = data.clients := rfl
      obtain ⟨welcomes, finds⟩ := store_standing newMessage found kept
      simp only [Standing.effects, inside, values, present, handleEvent, handleReqRemoveEvent, found, if_true, raised,
        notification_eq, and_self, List.foldl_cons, List.foldl_nil]
      refine ⟨Performs.runs (@Performs.removed so connectionId h _ data _ _ _ found present
        (object_store _) kept rfl rfl rfl)
        tracks.going, tracks.going, ?_, ?_, tracks.held, ?_⟩
      · exact tracks.welcome.trans (and_congr_right fun _ => welcomes.symm)
      · show s.joined = _
        rw [inside, finds, Option.isSome_some]
      · show s.values.erase name = _
        rw [propertiesOf, (findSo_eq_some.mp finds).1, values]
        rfl
    · simp only [Standing.effects, inside, values, present, handleEvent, handleReqRemoveEvent, found,
        if_false, and_false]
      exact ⟨(Performs.ignored id).runs tracks.going, tracks⟩

/-- Making room for one more reply event puts out a full reply. -/
theorem Tracks.follows_makeRoom (tracks : Tracks so connectionId h s) :
    let effects := if s.held ≥ SoMessage.eMaxEvents then [Effect.flushed] else []
    Runs so connectionId h effects (makeRoom so connectionId h) ∧
      Tracks so connectionId (makeRoom so connectionId h) (effects.foldl Standing.after s) ∧
      (makeRoom so connectionId h).ret.events.length < SoMessage.eMaxEvents ∧
      (effects.foldl Standing.after s).joined = s.joined ∧ (effects.foldl Standing.after s).values = s.values := by
  rw [tracks.held, makeRoom]
  split
  · exact ⟨Performs.flushed.runs tracks.going, ⟨tracks.going, tracks.welcome, tracks.joined, rfl, tracks.values⟩,
      by simp [emptyReply, SoMessage.eMaxEvents], rfl, rfl⟩
  · rename_i below
    exact ⟨.start, tracks, not_le.mp below, rfl, rfl⟩

theorem Tracks.admits_iff (tracks : Tracks so connectionId h s)
    (found : h.manager.findSo so connectionId = some data) {name : Bytes} :
    data.Admits name ↔ s.values.size < eMaxProperties ∨ name ∈ s.values := by
  rw [tracks.values_of found, SoData.Admits, not_and_or, not_not, not_le]

/-- The change itself, in a reply with room for its acknowledgement. -/
theorem Tracks.follows_change (tracks : Tracks so connectionId h s) (name : Bytes) (value : SoValue)
    (room : h.ret.events.length < SoMessage.eMaxEvents) :
    let effects := if s.joined ∧ (s.values.size < eMaxProperties ∨ name ∈ s.values) ∧ replayable value then
      [Effect.changed name value] else []
    let done := handleReqChangeEvent h.manager so connectionId name value h.ret h.pending
    let last : Handling := { h with manager := done.1, ret := done.2.1, pending := done.2.2 }
    Runs so connectionId h effects last ∧ Tracks so connectionId last (effects.foldl Standing.after s) := by
  cases found : h.manager.findSo so connectionId with
  | none =>
    have outside : s.joined = false := by rw [tracks.joined, found, Option.isSome_none]
    simp only [outside, handleReqChangeEvent, found, Bool.false_eq_true, false_and, if_false]
    exact ⟨(Performs.ignored id).runs tracks.going, tracks⟩
  | some data =>
    have inside : s.joined = true := by rw [tracks.joined, found, Option.isSome_some]
    simp only [inside, ← tracks.admits_iff found]
    by_cases admits : data.Admits name
    · by_cases fits : replayable value = true
      · obtain ⟨newMessage, version, raised⟩ := increaseVersion_eq h.manager (data.setValue name value admits)
        have kept : ({ data.setValue name value admits with version := version } : SoData).clients =
          data.clients := rfl
        obtain ⟨welcomes, finds⟩ := store_standing newMessage found kept
        simp only [handleReqChangeEvent, found, admits, fits, raised, dif_pos, not_true, if_false, SoMessage.addEvent,
          not_le.mpr room, notification_eq, true_and, if_true, List.foldl_cons, List.foldl_nil, Option.map_some,
          List.filterMap_eq_map']
        refine ⟨Performs.runs (@Performs.changed so connectionId h _ data _ _ _ _ _ found (object_store _) kept rfl
          rfl rfl rfl rfl) tracks.going, tracks.going, ?_, ?_, ?_, ?_⟩
        · exact tracks.welcome.trans (and_congr_right fun _ => welcomes.symm)
        · show s.joined = _
          rw [inside, finds, Option.isSome_some]
        · simp [Standing.after, tracks.held]
        · show s.values.insert name value = _
          rw [propertiesOf, (findSo_eq_some.mp finds).1, tracks.values_of found]
          rfl
      · simp only [handleReqChangeEvent, found, admits, fits, dif_pos]
        exact ⟨(Performs.ignored id).runs tracks.going, tracks⟩
    · simp only [handleReqChangeEvent, found, admits, dif_neg, not_false_eq_true, false_and, and_false, if_false]
      exact ⟨(Performs.ignored id).runs tracks.going, tracks⟩

theorem Tracks.follows_requestChange (tracks : Tracks so connectionId h s) (name : Bytes) (value : SoValue) :
    Follows so connectionId h s (.requestChange name value) := by
  obtain ⟨flush, between, room, joined, values⟩ := tracks.follows_makeRoom
  obtain ⟨change, after⟩ := between.follows_change name value room
  unfold Follows
  simp only [Standing.effects, List.foldl_append]
  rw [joined, values] at change after
  exact ⟨flush.append change, after⟩

/-- Leaving drops the connection from the clients, and the object with its last client. -/
theorem performs_release : Performs so connectionId h [.left] (handleEvent so connectionId h .release) := by
  refine Performs.left (fun name elsewhere => ?_) fun new inside => ?_
  · unfold handleReleaseEvent
    cases h.manager.findSo so connectionId with
    | none => rfl
    | some data =>
      simp only
      split
      · exact AList.lookup_erase_ne elsewhere
      · exact AList.lookup_insert_ne elsewhere
  · unfold handleReleaseEvent at inside
    cases found : h.manager.findSo so connectionId with
    | none =>
      rw [found] at inside
      refine ⟨new, inside, rfl, fun c => ⟨fun member => ⟨?_, member⟩, And.right⟩⟩
      rintro rfl
      have client := findSo_eq_some.mpr ⟨inside, member⟩
      rw [found] at client
      cases client
    | some data =>
      rw [found] at inside
      simp only at inside
      split at inside
      · have gone : (h.manager.soMap.erase so.name).lookup so.name = some new := inside
        rw [AList.lookup_erase] at gone
        cases gone
      · have stored : (h.manager.soMap.insert so.name
            { data with clients := data.clients.erase connectionId }).lookup so.name = some new := inside
        rw [AList.lookup_insert] at stored
        cases stored
        exact ⟨data, (findSo_eq_some.mp found).1, rfl, fun c => OrdSet.mem_erase⟩

theorem Tracks.follows (tracks : Tracks so connectionId h s) {e : SoEvent} (stays : e ≠ .release) :
    Follows so connectionId h s e := by
  cases e with
  | use => exact tracks.follows_use
  | release => exact absurd rfl stays
  | requestChange name value => exact tracks.follows_requestChange name value
  | sendMessage data => exact tracks.follows_sendMessage data
  | requestRemove name => exact tracks.follows_requestRemove name
  | _ => exact ⟨.start, tracks⟩

theorem Tracks.runs_handleEvents {events : List SoEvent} (tracks : Tracks so connectionId h s) :
    Runs so connectionId h (s.trace events) (handleEvents so connectionId h events) := by
  induction events generalizing h s with
  | nil => exact .start
  | cons e rest ih =>
    by_cases leaves : e = .release
    · subst leaves
      exact performs_release.runs tracks.going
    · obtain ⟨run, after⟩ := tracks.follows leaves
      have whole := run.append (ih after)
      have trace : s.trace (e :: rest) = s.effects e ++ ((s.effects e).foldl Standing.after s).trace rest := by
        cases e with
        | release => exact absurd rfl leaves
        | _ => rfl
      rw [trace, handleEvents, after.going]
      exact whole

theorem runs_trace (m : SoManager) (so : SoMessage) (connectionId : Nat) :
    Runs so connectionId (beginHandling m so) (m.trace so connectionId)
      (handleEvents so connectionId (beginHandling m so) so.events) :=
  tracks_begin.runs_handleEvents

theorem Standing.left_of_effects {e : SoEvent} (left : .left ∈ s.effects e) : e = .release := by
  cases e with
  | release => rfl
  | use => simp [effects] at left
  | requestChange name value => simp [effects] at left
  | sendMessage data => simp [effects] at left
  | requestRemove name => simp [effects] at left
  | _ => cases left

/-- Only a release makes its client leave. -/
theorem Standing.left_of_trace {events : List SoEvent} (left : .left ∈ s.trace events) : .release ∈ events := by
  induction events generalizing s with
  | nil => cases left
  | cons e rest ih =>
    cases e with
    | release => exact List.mem_cons_self ..
    | _ =>
      refine List.mem_cons_of_mem _ ?_
      rcases List.mem_append.mp left with here | later
      · cases left_of_effects here
      · exact ih later

end SoManager

end Fms
