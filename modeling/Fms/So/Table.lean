import Fms.So.Replica

namespace Fms
open ByteWire

namespace SoManager
variable {so : SoMessage} {connectionId client : Nat} {m : SoManager} {h : Handling}

def step (m : SoManager) : Call → SoManager
  | .handleSo so connectionId => (m.handleSo so connectionId).1
  | .removeConnection connectionId => m.removeConnection connectionId

def usedBy (m : SoManager) (connectionId : Nat) : Nat := m.soMap.count fun data => connectionId ∈ data.clients

/-- Someone uses the object, and its values can be replayed. -/
structure Kept (data : SoData) : Prop where
  used : ∃ c, c ∈ data.clients
  replays : ∀ property value, data.values.lookup property = some value → replayable value = true

/-- The table is within its bounds, and the counts are those of the table. -/
structure Sound (m : SoManager) : Prop where
  objects : m.soMap.size ≤ eMaxObjects
  kept : ∀ name, ∀ data ∈ m.object name, Kept data
  counts : ∀ c, m.useCount c = m.usedBy c
  share : ∀ c, m.useCount c ≤ eMaxObjectsPerConnection

theorem isClient_elim (name : Bytes) :
    ((m.object name).elim 0 fun data => (decide (client ∈ data.clients)).toNat) = (m.isClient name client).toNat := by
  unfold isClient
  cases m.object name <;> rfl

theorem usedBy_erase (m : SoManager) (so : SoMessage) (counted : Dict Nat Nat) (client : Nat) :
    ({ m with soMap := m.soMap.erase so.name, useCounts := counted } : SoManager).usedBy client +
      (m.isClient so.name client).toNat = m.usedBy client := by
  rw [← isClient_elim]
  exact Dict.count_erase _

theorem usedBy_store (m : SoManager) (so : SoMessage) (data : SoData) (counted : Dict Nat Nat) (client : Nat) :
    { m.store so data with useCounts := counted }.usedBy client + (m.isClient so.name client).toNat =
      m.usedBy client + (decide (client ∈ data.clients)).toNat := by
  have stored : { m.store so data with useCounts := counted }.usedBy client =
      ({ m with soMap := m.soMap.erase so.name, useCounts := counted } : SoManager).usedBy client +
        (decide (client ∈ data.clients)).toNat := Dict.count_insert _
  have erased := usedBy_erase m so counted client
  omega

theorem useCount_insert (m : SoManager) (soMap : Dict Bytes SoData) (newMessage : Bool)
    (connectionId client n : Nat) :
    ({ soMap := soMap, useCounts := m.useCounts.insert connectionId n, newMessage := newMessage } :
      SoManager).useCount
      client = if client = connectionId then n else m.useCount client := by
  unfold useCount
  rw [Dict.lookup_insert_if]
  split <;> rfl

theorem joining_eq : m.joining so connectionId = !m.isClient so.name connectionId := by
  unfold joining isClient object
  cases m.soMap.lookup so.name with
  | none => rfl
  | some data => exact decide_not

theorem Sound.kept_store (sound : m.Sound) {new : SoData} (kept : Kept new) :
    ∀ name, ∀ data ∈ (m.store so new).object name, Kept data := by
  intro name data here
  rw [object_store, Function.update_apply] at here
  split at here
  · cases here
    exact kept
  · exact sound.kept name data here

theorem Sound.store (sound : m.Sound) (newMessage : Bool) {data new : SoData} (found : m.object so.name = some data)
    (clients : new.clients = data.clients)
    (replays : ∀ property value, new.values.lookup property = some value → replayable value = true) :
    ({ m with newMessage := newMessage }.store so new).Sound where
  objects := by
    have there : so.name ∈ m.soMap :=
      AList.lookup_isSome.mp (by rw [show m.soMap.lookup so.name = some data from found]; rfl)
    exact (Dict.size_insert_mem there).trans_le sound.objects
  kept := by
    obtain ⟨c, member⟩ := (sound.kept so.name data found).used
    exact sound.kept_store ⟨⟨c, clients ▸ member⟩, replays⟩
  counts := by
    intro c
    have balance := usedBy_store m so new m.useCounts c
    rw [isClient_of_object found, clients] at balance
    have before := sound.counts c
    have count : ({ m with newMessage := newMessage }.store so new).useCount c = m.useCount c := rfl
    have used : ({ m with newMessage := newMessage }.store so new).usedBy c =
      { m.store so new with useCounts := m.useCounts }.usedBy c := rfl
    omega
  share := sound.share

theorem Sound.reqChange (sound : m.Sound) (name : Bytes) (value : SoValue) (result : SoMessage)
    (pending : PendingSends) :
    (handleReqChangeEvent m so connectionId name value result pending).1.Sound := by
  unfold handleReqChangeEvent
  split
  · exact sound
  · rename_i data found
    have here := (findSo_eq_some.mp found).1
    split
    · rename_i room
      split
      · exact sound
      · rename_i fits
        obtain ⟨newMessage, version, raised⟩ := increaseVersion_eq m (data.setValue name value room)
        have replays : ∀ property other, (data.values.insert name value).lookup property = some other →
            replayable other = true := by
          intro property other stored
          rw [Dict.lookup_insert_if] at stored
          split at stored
          · cases stored
            exact not_not.mp fits
          · exact (sound.kept so.name data here).replays property other stored
        have stored : ({ m with newMessage := newMessage }.store so
            { data.setValue name value room with version := version }).Sound :=
          sound.store newMessage here rfl replays
        simp only [raised]
        split
        · exact stored
        · exact stored
    · exact sound

theorem Sound.reqRemove (sound : m.Sound) (name : Bytes) (result : Option SoMessage) (pending : PendingSends) :
    (handleReqRemoveEvent m so connectionId name result pending).1.Sound := by
  unfold handleReqRemoveEvent
  split
  · exact sound
  · rename_i data found
    have here := (findSo_eq_some.mp found).1
    split
    · obtain ⟨newMessage, version, raised⟩ := increaseVersion_eq m (data.eraseValue name)
      have replays : ∀ property other, (data.values.erase name).lookup property = some other →
          replayable other = true := by
        intro property other stored
        rw [Dict.lookup_erase_if] at stored
        split at stored
        · cases stored
        · exact (sound.kept so.name data here).replays property other stored
      have stored : ({ m with newMessage := newMessage }.store so
          { data.eraseValue name with version := version }).Sound := sound.store newMessage here rfl replays
      simp only [raised, notification_eq]
      exact stored
    · exact sound

/-- The object of a `use` that is taken. -/
def joinedObject (m : SoManager) (so : SoMessage) (connectionId : Nat) : SoData :=
  let found := (m.soMap.lookup so.name).getD {}
  { found with clients := found.clients.insert connectionId }

theorem mem_joinedObject {c : Nat} :
    c ∈ (m.joinedObject so connectionId).clients ↔ c = connectionId ∨ m.isClient so.name c = true := by
  refine OrdSet.mem_insert.trans (or_congr_right ?_)
  unfold isClient object
  cases m.soMap.lookup so.name with
  | none => simp
  | some old => simp

theorem Sound.kept_joinedObject (sound : m.Sound) : Kept (m.joinedObject so connectionId) := by
  refine ⟨⟨connectionId, mem_joinedObject.mpr (.inl rfl)⟩, fun property value => ?_⟩
  show ((m.soMap.lookup so.name).getD {}).values.lookup property = some value → _
  cases known : m.soMap.lookup so.name with
  | none => exact nofun
  | some old => exact (sound.kept so.name old known).replays property value

theorem Sound.room (sound : m.Sound) (taken : m.Welcomes so connectionId) (data : SoData) :
    (m.store so data).soMap.size ≤ eMaxObjects := by
  by_cases there : so.name ∈ m.soMap
  · exact (Dict.size_insert_mem there).trans_le sound.objects
  · refine Dict.size_insert_le.trans (not_le.mp fun full => taken.1 ⟨?_, full⟩)
    rw [object, AList.lookup_eq_none.mpr there]
    rfl

/-- The manager after a `use` that is taken. -/
def used (m : SoManager) (so : SoMessage) (connectionId : Nat) : SoManager :=
  { m.store so (m.joinedObject so connectionId) with
    useCounts := if m.joining so connectionId then m.useCounts.insert connectionId (m.useCount connectionId + 1)
      else m.useCounts }

theorem handleUseEvent_manager (result : SoMessage) (pending : PendingSends) (taken : m.Welcomes so connectionId) :
    (handleUseEvent m so connectionId result pending).1 = m.used so connectionId := by
  have known : ¬((m.soMap.lookup so.name).isNone ∧ m.soMap.size ≥ eMaxObjects) := taken.1
  simp only [handleUseEvent]
  rw [if_neg known, if_neg taken.2]
  split
  · rfl
  · rfl

/-- Only a client that joins counts one object more. -/
theorem useCount_used (c : Nat) :
    (m.used so connectionId).useCount c =
      m.useCount c + (decide (c = connectionId) && !m.isClient so.name c).toNat := by
  unfold used
  rw [joining_eq]
  cases member : m.isClient so.name connectionId with
  | true =>
    have stays : (decide (c = connectionId) && !m.isClient so.name c) = false := by
      by_cases here : c = connectionId
      · rw [here, member]
        exact Bool.and_false _
      · rw [decide_eq_false here, Bool.false_and]
    rw [stays]
    rfl
  | false =>
    refine (useCount_insert m _ m.newMessage connectionId c _).trans ?_
    by_cases here : c = connectionId
    · rw [here, member, if_pos rfl, decide_eq_true rfl]
      rfl
    · rw [if_neg here, decide_eq_false here]
      rfl

theorem Sound.use (sound : m.Sound) (result : SoMessage) (pending : PendingSends) :
    (handleUseEvent m so connectionId result pending).1.Sound := by
  by_cases taken : m.Welcomes so connectionId
  case neg =>
    rw [handleUseEvent_refused taken]
    exact sound
  rw [handleUseEvent_manager result pending taken]
  refine ⟨sound.room taken _, sound.kept_store sound.kept_joinedObject, fun c => ?_, fun c => ?_⟩
  · have balance : (m.used so connectionId).usedBy c + (m.isClient so.name c).toNat = _ :=
      usedBy_store m so (m.joinedObject so connectionId) _ c
    have joins : decide (c ∈ (m.joinedObject so connectionId).clients) =
        (decide (c = connectionId) || m.isClient so.name c) := by
      rw [Bool.eq_iff_iff, decide_eq_true_iff, mem_joinedObject, Bool.or_eq_true, decide_eq_true_iff]
    rw [joins] at balance
    rw [useCount_used, sound.counts]
    generalize decide (c = connectionId) = own at balance ⊢
    generalize m.isClient so.name c = client at balance ⊢
    cases own <;> cases client <;> simp at balance ⊢ <;> omega
  · rw [useCount_used]
    by_cases joins : (decide (c = connectionId) && !m.isClient so.name c) = true
    · rw [Bool.and_eq_true, decide_eq_true_iff] at joins
      obtain ⟨rfl, outside⟩ := joins
      have room := not_le.mp fun full => taken.2 ⟨joining_eq.trans outside, full⟩
      rw [outside, decide_eq_true rfl]
      exact room
    · rw [Bool.not_eq_true] at joins
      rw [joins]
      exact sound.share c

theorem Sound.countDown (sound : m.Sound) {left : SoManager} (counted : left.useCounts = m.countDown connectionId)
    (fewer : ∀ c, left.usedBy c + (decide (c = connectionId)).toNat = m.usedBy c)
    (objects : left.soMap.size ≤ m.soMap.size) (kept : ∀ name, ∀ data ∈ left.object name, Kept data) :
    left.Sound := by
  have positive : 0 < m.useCount connectionId := by
    have own := fewer connectionId
    rw [sound.counts, ← own, decide_eq_true rfl]
    exact Nat.succ_pos _
  obtain ⟨n, has⟩ : ∃ n, m.useCounts.lookup connectionId = some n := by
    cases has : m.useCounts.lookup connectionId with
    | none =>
      rw [useCount, has] at positive
      cases positive
    | some n => exact ⟨n, rfl⟩
  have own : m.useCount connectionId = n := by rw [useCount, has, Option.getD_some]
  have count (c : Nat) : left.useCount c = if c = connectionId then n - 1 else m.useCount c := by
    rw [SoManager.countDown, has] at counted
    simp only [if_pos (own ▸ positive : n > 0)] at counted
    rw [useCount, counted]
    exact useCount_insert m m.soMap m.newMessage connectionId c _
  have counts (c : Nat) : left.useCount c = left.usedBy c := by
    have balance := fewer c
    have before := sound.counts c
    rw [count]
    by_cases here : c = connectionId
    · subst here
      rw [if_pos rfl]
      rw [decide_eq_true rfl, Bool.toNat_true] at balance
      omega
    · rw [if_neg here]
      rw [decide_eq_false here, Bool.toNat_false] at balance
      omega
  refine ⟨objects.trans sound.objects, kept, counts, fun c => ?_⟩
  have bound := sound.share c
  have balance := fewer c
  rw [sound.counts] at bound
  rw [counts]
  omega

theorem Sound.release (sound : m.Sound) : (handleReleaseEvent m so connectionId).Sound := by
  unfold handleReleaseEvent
  split
  · exact sound
  · rename_i data found
    obtain ⟨here, client⟩ := findSo_eq_some.mp found
    have there : so.name ∈ m.soMap :=
      AList.lookup_isSome.mp (by rw [show m.soMap.lookup so.name = some data from here]; rfl)
    have erased (c : Nat) : (decide (c ∈ data.clients.erase connectionId)).toNat + (decide (c = connectionId)).toNat =
        (decide (c ∈ data.clients)).toNat := by
      by_cases same : c = connectionId
      · subst same
        simp [client]
      · simp [same]
    simp only
    split
    · rename_i last
      have gone : data.clients.erase connectionId = ∅ := OrdSet.eq_empty_iff.mpr (List.length_eq_zero_iff.mp last)
      refine sound.countDown rfl (fun c => ?_) Dict.size_erase_le fun name other at_ => ?_
      · have balance := usedBy_erase m so (m.countDown connectionId) c
        have one := erased c
        rw [isClient_of_object here] at balance
        rw [gone, decide_eq_false (OrdSet.notMem_empty c), Bool.toNat_false] at one
        omega
      · have stays : (m.soMap.erase so.name).lookup name = some other := at_
        rw [Dict.lookup_erase_if] at stays
        split at stays
        · cases stays
        · exact sound.kept name other stays
    · rename_i more
      refine sound.countDown rfl (fun c => ?_) (Dict.size_insert_mem there).le fun name other at_ => ?_
      · have balance := usedBy_store m so { data with clients := data.clients.erase connectionId }
          (m.countDown connectionId) c
        have one := erased c
        rw [isClient_of_object here] at balance
        dsimp only at balance
        omega
      · have stored : other ∈ (m.store so { data with clients := data.clients.erase connectionId }).object name := at_
        rw [object_store, Function.update_apply] at stored
        split at stored
        · cases stored
          obtain ⟨c, rest⟩ := List.exists_mem_of_ne_nil _ fun none => more (List.length_eq_zero_iff.mpr none)
          exact ⟨⟨c, rest⟩, (sound.kept so.name data here).replays⟩
        · exact sound.kept name other stored

theorem Sound.handleEvent (sound : h.manager.Sound)
    (e : SoEvent) : (handleEvent so connectionId h e).manager.Sound := by
  have roomy : (makeRoom so connectionId h).manager = h.manager := by
    unfold makeRoom
    split
    · rfl
    · rfl
  cases e with
  | use =>
    cases used : h.used with
    | true =>
      have same : SoManager.handleEvent so connectionId h .use = h := if_pos used
      rw [same]
      exact sound
    | false =>
      have first : ¬h.used = true := Bool.eq_false_iff.mp used
      simp only [SoManager.handleEvent, if_neg first]
      exact sound.use _ _
  | release => exact sound.release
  | requestChange name value => exact Sound.reqChange (roomy ▸ sound) name value _ _
  | requestRemove name => exact sound.reqRemove name _ _
  | _ => exact sound

theorem Sound.handleEvents (sound : h.manager.Sound) (events : List SoEvent) :
    (handleEvents so connectionId h events).manager.Sound := by
  induction events generalizing h with
  | nil => exact sound
  | cons e rest ih =>
    unfold SoManager.handleEvents
    simp only
    split
    · exact sound.handleEvent e
    · exact ih (sound.handleEvent e)

theorem Sound.handleSo (sound : m.Sound) : (m.handleSo so connectionId).1.Sound :=
  Sound.handleEvents (h := beginHandling m so) ⟨sound.objects, sound.kept, sound.counts, sound.share⟩ so.events

theorem usedBy_removeConnection (c : Nat) :
    (m.removeConnection connectionId).usedBy c = if c = connectionId then 0 else m.usedBy c := by
  unfold usedBy SoManager.removeConnection
  dsimp only
  split
  · rename_i here
    subst here
    have none : m.soMap.count (fun _ => false) = 0 := by simp [Dict.count]
    refine (Dict.count_filterMap (fun _ => false) fun _ data => ?_).trans none
    split
    · rfl
    · simp
  · rename_i apart
    refine Dict.count_filterMap _ fun _ data => ?_
    split
    · rename_i last
      have gone : data.clients.erase connectionId = ∅ := OrdSet.eq_empty_iff.mpr (List.length_eq_zero_iff.mp last)
      refine (decide_eq_false fun member => ?_).symm
      exact OrdSet.notMem_empty c (gone ▸ OrdSet.mem_erase.mpr ⟨apart, member⟩)
    · simp [apart]

theorem Sound.removeConnection (sound : m.Sound) : (m.removeConnection connectionId).Sound := by
  have count (c : Nat) : (m.removeConnection connectionId).useCount c = if c =
      connectionId then 0 else m.useCount c := by
    have erased : (m.removeConnection connectionId).useCounts.lookup c =
        if c = connectionId then none else m.useCounts.lookup c := Dict.lookup_erase_if
    rw [useCount, erased]
    split
    · rfl
    · rfl
  refine ⟨Dict.size_filterMap_le.trans sound.objects, fun name data here => ?_, fun c => ?_, fun c => ?_⟩
  · obtain ⟨old, was, rfl, more⟩ := object_removeConnection here
    obtain ⟨c, rest⟩ := List.exists_mem_of_ne_nil _ fun none => more (List.length_eq_zero_iff.mpr none)
    exact ⟨⟨c, rest⟩, (sound.kept name old was).replays⟩
  · rw [count, usedBy_removeConnection, sound.counts]
  · rw [count]
    split
    · exact Nat.zero_le _
    · exact sound.share c

theorem Sound.step (sound : m.Sound) (call : Call) : (m.step call).Sound := by
  cases call with
  | handleSo => exact sound.handleSo
  | removeConnection => exact sound.removeConnection

theorem sound_empty : Sound {} :=
  ⟨Nat.zero_le _, fun _ _ here => (nomatch here), fun _ => rfl, fun _ => Nat.zero_le _⟩

/-- After any requests and departures: every object has a client, at most 62 properties and only
values that can be replayed; there are at most 4096 objects; a connection is counted for the objects
it is a client of, at most 64; and one that departs is a client of nothing and has no count. -/
theorem table_bounded (reach : Transition.Reach step (fun _ _ => True) {} m) :
    (∀ name, ∀ data ∈ m.object name, (∃ c, c ∈ data.clients) ∧ data.values.size ≤ 62 ∧
      ∀ property value, data.values.lookup property = some value → replayable value = true) ∧
    m.soMap.size ≤ 4096 ∧
    (∀ c, m.useCount c = m.usedBy c ∧ m.useCount c ≤ 64) ∧
    ∀ c, (∀ name, ∀ data ∈ (m.removeConnection c).object name, c ∉ data.clients) ∧
      (m.removeConnection c).useCounts.lookup c = none := by
  have sound : m.Sound := reach.invariant sound_empty fun {_ call} _ sound => sound.step call
  refine ⟨fun name data here => ?_, sound.objects, fun c => ⟨sound.counts c, sound.share c⟩, fun c => ⟨?_, ?_⟩⟩
  · have kept := sound.kept name data here
    exact ⟨kept.used, data.bounded, kept.replays⟩
  · intro name data here member
    obtain ⟨old, _, rfl, _⟩ := object_removeConnection here
    exact (OrdSet.mem_erase.mp member).1 rfl
  · exact AList.lookup_erase c m.useCounts

def joined : SoManager :=
  [Call.handleSo { name := [120], events := [.use] } 1, .handleSo { name := [120], events := [.use] } 2].foldl step {}

theorem table_bounded_joined : joined.usedBy 2 = 1 ∧ joined.useCount 2 = joined.usedBy 2 ∧ joined.useCount 2 ≤ 64 :=
  ⟨by decide, (table_bounded (Transition.Reach.start.foldl fun _ _ _ => trivial)).2.2.1 2⟩

/-- What a call delivers, results included. -/
def sends (m : SoManager) : Call → PendingSends
  | .handleSo so connectionId => m.deliveries so connectionId
  | .removeConnection _ => []

def sendsOfAll (m : SoManager) : List Call → PendingSends
  | [] => []
  | call :: rest => m.sends call ++ (m.step call).sendsOfAll rest

/-- The second sequence of calls is the first with requests put in: each names the object,
comes from a connection that is not a client of it by then, and has no `use`. -/
inductive Intrudes (name : Bytes) (intruder : Nat → Prop) : SoManager → List Call → List Call → Prop
  | done {m : SoManager} : Intrudes name intruder m [] []
  | shared {m : SoManager} {calls more : List Call} (call : Call) :
      Intrudes name intruder (m.step call) calls more → Intrudes name intruder m (call :: calls) (call :: more)
  | inserted {m : SoManager} {calls more : List Call} {so : SoMessage} {connectionId : Nat} (named : so.name = name)
      (outside : m.isClient name connectionId = false) (noUse : .use ∉ so.events) (known : intruder connectionId) :
      Intrudes name intruder (m.step (.handleSo so connectionId)) calls more →
      Intrudes name intruder m calls (.handleSo so connectionId :: more)

theorem findSo_outside (outside : m.isClient so.name connectionId = false) : m.findSo so connectionId = none := by
  cases found : m.findSo so connectionId with
  | none => rfl
  | some data =>
    obtain ⟨here, member⟩ := findSo_eq_some.mp found
    rw [isClient_of_object here, decide_eq_true member] at outside
    cases outside

theorem handleEvent_outside {e : SoEvent} (outside : h.manager.isClient so.name connectionId = false)
    (empty : h.ret.events = []) (noUse : e ≠ .use) :
    ∃ released, handleEvent so connectionId h e = { h with released := released } := by
  have none := findSo_outside outside
  cases e with
  | use => exact absurd rfl noUse
  | release =>
    refine ⟨true, ?_⟩
    simp only [handleEvent, handleReleaseEvent, none]
  | requestChange name value =>
    have roomy : makeRoom so connectionId h = h := if_neg (by rw [empty]; decide)
    refine ⟨h.released, ?_⟩
    simp only [handleEvent, roomy, handleReqChangeEvent, none]
  | sendMessage data =>
    refine ⟨h.released, ?_⟩
    simp only [handleEvent, handleSendMessageEvent, none]
  | requestRemove name =>
    refine ⟨h.released, ?_⟩
    simp only [handleEvent, handleReqRemoveEvent, none]
  | _ => exact ⟨h.released, rfl⟩

theorem handleEvents_outside {events : List SoEvent} (outside : h.manager.isClient so.name connectionId = false)
    (empty : h.ret.events = []) (noUse : .use ∉ events) :
    ∃ released, handleEvents so connectionId h events = { h with released := released } := by
  induction events generalizing h with
  | nil => exact ⟨h.released, rfl⟩
  | cons e rest ih =>
    obtain ⟨released, same⟩ := handleEvent_outside (e := e) outside empty fun is => noUse (is ▸ List.mem_cons_self ..)
    unfold handleEvents
    simp only [same]
    split
    · exact ⟨released, rfl⟩
    · exact ih outside empty fun later => noUse (List.mem_cons_of_mem _ later)

/-- A request from outside changes no object, and only its sender is answered. -/
theorem handleSo_outside (outside : m.isClient so.name connectionId = false) (noUse : .use ∉ so.events) :
    (m.handleSo so connectionId).1 = { m with newMessage := true } ∧
      ∀ send ∈ m.deliveries so connectionId, send.1 = connectionId := by
  have start : (beginHandling m so).manager.isClient so.name connectionId = false := outside
  obtain ⟨released, same⟩ := handleEvents_outside start rfl noUse
  refine ⟨?_, fun send member => ?_⟩
  · rw [handleSo, same]
    rfl
  · rw [deliveries, handleSo, same] at member
    simp only [finish, beginHandling, Option.isSome_none, Bool.false_eq_true, false_and, if_false, List.nil_append,
      Option.mem_toList, Option.map_eq_some_iff] at member
    obtain ⟨msg, _, rfl⟩ := member
    rfl

theorem step_newMessage (newMessage : Bool) (call : Call) : ∃ after,
    { m with newMessage := newMessage }.step call = { m.step call with newMessage := after } ∧
      { m with newMessage := newMessage }.sends call = m.sends call := by
  cases call with
  | handleSo so connectionId => exact ⟨_, rfl, rfl⟩
  | removeConnection connectionId => exact ⟨newMessage, rfl, rfl⟩

/-- The flag apart, both runs go through the same states. -/
theorem Intrudes.alike {name : Bytes} {intruder : Nat → Prop} {calls more : List Call}
    (intrudes : Intrudes name intruder m calls more) (base : SoManager) (newMessage : Bool)
    (same : m = { base with newMessage := newMessage }) :
    (∃ after, more.foldl step m = { calls.foldl step base with newMessage := after }) ∧
      ∀ c, ¬intruder c → (m.sendsOfAll more).filter (·.1 = c) = (base.sendsOfAll calls).filter (·.1 = c) := by
  induction intrudes generalizing base newMessage with
  | done => exact ⟨⟨newMessage, same⟩, fun _ _ => rfl⟩
  | @shared m calls more call _ ih =>
    subst same
    obtain ⟨after, stepped, sent⟩ := step_newMessage (m := base) newMessage call
    obtain ⟨states, heard⟩ := ih _ after stepped
    refine ⟨states, fun c stranger => ?_⟩
    rw [sendsOfAll, sendsOfAll, List.filter_append, List.filter_append, sent, heard c stranger]
  | @inserted m calls more so connectionId named outside noUse known _ ih =>
    subst named
    obtain ⟨unchanged, own⟩ := handleSo_outside outside noUse
    obtain ⟨states, heard⟩ := ih base true (unchanged.trans (by rw [same]))
    refine ⟨states, fun c stranger => ?_⟩
    have unheard : (m.deliveries so connectionId).filter (·.1 = c) = [] := by
      refine List.filter_eq_nil_iff.mpr fun send member is => stranger ?_
      rw [← of_decide_eq_true is, own send member]
      exact known
    rw [sendsOfAll, List.filter_append]
    show (m.deliveries so connectionId).filter (·.1 = c) ++ _ = _
    rw [unheard, List.nil_append]
    exact heard c stranger

/-- Whatever requests without a `use` others than its clients put in, an object has the same
properties, version and clients, and everyone else is sent the same messages. -/
theorem intruders_unnoticed {name : Bytes} {intruder : Nat → Prop} {calls more : List Call}
    (intrudes : Intrudes name intruder m calls more) :
    (more.foldl step m).object name = (calls.foldl step m).object name ∧
      ∀ c, ¬intruder c → (m.sendsOfAll more).filter (·.1 = c) = (m.sendsOfAll calls).filter (·.1 = c) := by
  obtain ⟨⟨after, same⟩, heard⟩ := intrudes.alike m m.newMessage rfl
  refine ⟨?_, heard⟩
  rw [same]
  rfl

/-- One connection joins an object and sends a message over it. -/
def quiet : List Call :=
  [.handleSo { name := [120], events := [.use] } 1, .handleSo { name := [120], events := [.sendMessage [7]] } 1]

/-- In between another tries to remove a property, to send a message, and to leave. -/
def disturbed : List Call :=
  [.handleSo { name := [120], events := [.use] } 1,
    .handleSo { name := [120], events := [.requestRemove [97], .sendMessage [8], .release] } 2,
    .handleSo { name := [120], events := [.sendMessage [7]] } 1]

theorem intruders_unnoticed_disturbed :
    (disturbed.foldl step {}).object [120] = (quiet.foldl step {}).object [120] ∧
      (sendsOfAll {} disturbed).filter (·.1 = 1) = (sendsOfAll {} quiet).filter (·.1 = 1) := by
  have intrudes : Intrudes [120] (· = 2) {} quiet disturbed :=
    .shared _ (.inserted rfl (by decide) (by simp) rfl (.shared _ .done))
  obtain ⟨stored, heard⟩ := intruders_unnoticed intrudes
  exact ⟨stored, heard 1 (by decide)⟩

end SoManager

end Fms
