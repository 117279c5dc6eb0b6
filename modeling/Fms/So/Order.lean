import Fms.Base.Handoff
import Fms.So.Converge

namespace Fms
open ByteWire

/-- A change or removal of a property. -/
abbrev SoNotice := Bytes × Option SoValue

/-- The message brings a client up to date, so that its Change events are no news. -/
def SoMessage.answersUse (msg : SoMessage) : Bool :=
  msg.events.any fun e => match e with
    | .clear => true
    | _ => false

def SoEvent.notice (answersUse : Bool) : SoEvent → Option SoNotice
  | .change name value => if answersUse then none else some (name, some value)
  | .success name acknowledged => some (name, some acknowledged)
  | .remove name => some (name, none)
  | _ => none

def SoMessage.notices (msg : SoMessage) : List SoNotice := msg.events.filterMap (SoEvent.notice msg.answersUse)

namespace SoManager

def Effect.notice : Effect → Option SoNotice
  | .changed name value => some (name, some value)
  | .removed name => some (name, none)
  | _ => none

/-- The server, the requests applied whose deliveries are not all made, oldest first, the
deliveries made, and the changes and removals of each object that were applied while a
connection was a client of it. A client's queue holds the deliveries made to it. -/
structure Traffic where
  manager : SoManager := {}
  calls : List PendingSends := []
  sent : PendingSends := []
  applied : Bytes → Nat → List SoNotice := fun _ _ => []

inductive Turn
  | apply (so : SoMessage) (connectionId : Nat)
  | deliver (call : Nat)

def Traffic.step (t : Traffic) : Turn → Traffic
  | .apply so connectionId =>
    { t with
      manager := (t.manager.handleSo so connectionId).1
      calls := t.calls ++ [t.manager.deliveries so connectionId]
      applied := fun name client => t.applied name client ++
        if name = so.name ∧ (client = connectionId ∨ t.manager.isClient name client) then
          (t.manager.trace so connectionId).filterMap Effect.notice
        else [] }
  | .deliver call => match t.calls[call]? with
    | some (send :: rest) => { t with calls := t.calls.set call rest, sent := t.sent ++ [send] }
    | _ => t

/-- What a delivery tells a client of one property of an object. -/
def tells (name : Bytes) (client : Nat) (property : Bytes) (send : Nat × SoMessage) : List SoNotice :=
  if send.1 = client ∧ send.2.name = name then send.2.notices.filter (·.1 = property) else []

/-- No removal of the request is followed by a reply that takes its place, or by a change of
the property, which its requester would hear of before the removal. -/
def Effect.InOrder (trace : List Effect) : Prop :=
  trace.Pairwise fun first second => ∀ name, first = .removed name →
    (∀ other, second ≠ .removed other) ∧ second ≠ .echoed ∧ ∀ value, second ≠ .changed name value

/-- The object is asked for what clients ask for, the client does not leave it, its requests tell
it of their changes in order, and a delivery to it waits for those of earlier requests that are
about the same property. -/
def Turn.Orderly (name : Bytes) (client : Nat) (t : Traffic) : Turn → Prop
  | .apply so connectionId => so.name = name → (∀ e ∈ so.events, e.Requested) ∧
      (connectionId = client → .release ∉ so.events ∧ Effect.InOrder (t.manager.trace so connectionId))
  | .deliver call => ∀ send rest, t.calls[call]? = some (send :: rest) → ∀ property,
      tells name client property send = [] ∨
        ∀ older ∈ (t.calls.take call).flatten, tells name client property older = []

section Notices

theorem notices_requested {so : SoMessage} (requested : ∀ e ∈ so.events, e.Requested) : so.notices = [] := by
  refine List.filterMap_eq_nil_iff.mpr fun e member => ?_
  have asked := requested e member
  cases e with
  | clear | change | success | remove => exact absurd asked id
  | _ => rfl

theorem notices_useReply {msg : SoMessage} {values : Dict Bytes SoValue} (answers : msg.events = useReply values) :
    msg.notices = [] := by
  have up : msg.answersUse = true := by
    rw [SoMessage.answersUse, answers]
    rfl
  rw [SoMessage.notices, answers, up]
  refine List.filterMap_eq_nil_iff.mpr fun e member => ?_
  simp only [useReply, List.mem_cons, List.mem_map] at member
  rcases member with rfl | rfl | ⟨entry, _, rfl⟩ <;> rfl

theorem notices_success {msg more : SoMessage} {name : Bytes} {value : SoValue}
    (grows : more.events = msg.events ++ [.success name value]) :
    more.notices = msg.notices ++ [(name, some value)] := by
  have same : more.answersUse = msg.answersUse := by
    simp [SoMessage.answersUse, grows]
  rw [SoMessage.notices, grows, same, List.filterMap_append]
  rfl

end Notices

variable {so : SoMessage} {connectionId client : Nat} {m : SoManager} {h : Handling} {trace : List Effect}

theorem notices_fanOut (requested : ∀ e ∈ so.events, e.Requested) {msgs : List SoMessage}
    (told : msgs.map SoMessage.events = trace.filterMap (Effect.fanOut so)) :
    msgs.flatMap SoMessage.notices = trace.filterMap Effect.notice := by
  have ofEvents (msg : SoMessage) : msg.notices = ({ name := [], events := msg.events } : SoMessage).notices := rfl
  have flat : msgs.flatMap SoMessage.notices =
      (msgs.map SoMessage.events).flatMap fun events => ({ name := [], events := events } : SoMessage).notices := by
    rw [List.flatMap_map]
    rfl
  rw [flat, told]
  clear told flat
  induction trace with
  | nil => rfl
  | cons effect rest ih =>
    cases effect with
    | echoed =>
      simp only [List.filterMap_cons, Effect.fanOut, Effect.notice, List.flatMap_cons, ← ofEvents so,
        notices_requested requested, List.nil_append]
      exact ih
    | changed | removed =>
      simp only [List.filterMap_cons, Effect.fanOut, Effect.notice, List.flatMap_cons, ih]
      rfl
    | _ => exact ih

/-- The acknowledgements of a trace. -/
def Effect.acknowledges : Effect → Option SoNotice
  | .changed name value => some (name, some value)
  | _ => none

theorem Runs.acknowledged (run : Runs so connectionId (beginHandling m so) trace h) :
    (inbox so.name connectionId h.pending).flatMap SoMessage.notices ++ h.ret.notices =
      trace.filterMap Effect.acknowledges := by
  induction run with
  | start => rfl
  | @next past now mid last run going step ih =>
    rw [List.filterMap_append, ← ih]
    cases step with
    | ignored | left => exact (List.append_nil _).symm
    | answered _ _ _ first _ replies =>
      have before : mid.ret.notices = [] := by rw [SoMessage.notices, first, List.filterMap_nil]
      rw [notices_useReply replies, before]
      exact (List.append_nil _).symm
    | answeredApart _ _ _ named replies =>
      rw [inbox_append, ← named, inbox_self, named, List.flatMap_append, List.flatMap_singleton,
        notices_useReply replies, List.append_nil]
      exact (List.append_nil _).symm
    | flushed =>
      rw [inbox_append, ← run.named.ret, inbox_self, List.flatMap_append, List.flatMap_singleton]
      rfl
    | changed _ _ _ _ _ replies named =>
      rw [inbox_append, ← named, inbox_others_self, named, List.append_nil, notices_success replies,
        ← List.append_assoc]
      rfl
    | removed _ _ _ _ _ named =>
      rw [inbox_append, ← named, inbox_others_self, named, List.append_nil]
      exact (List.append_nil _).symm
    | echoed =>
      rw [inbox_append, inbox_others_self, List.append_nil]
      exact (List.append_nil _).symm

theorem Runs.replacement_notices (run : Runs so connectionId (beginHandling m so) trace h)
    (requested : ∀ e ∈ so.events, e.Requested) :
    h.replacement.elim [] SoMessage.notices = (Effect.lastRemoval trace).elim [] fun name => [(name, none)] :=
  run.replacement_elim (notices_requested requested) fun msg name tells => by
    rw [SoMessage.notices, tells]
    rfl

theorem Effect.supersede_alone {last : Option Bytes}
    (alone : ∀ effect ∈ trace, (∀ other, effect ≠ .removed other) ∧ effect ≠ .echoed) :
    trace.foldl supersede last = last := by
  induction trace with
  | nil => rfl
  | cons effect rest ih =>
    obtain ⟨noRemoval, noEcho⟩ := alone effect (List.mem_cons_self ..)
    have others := ih fun effect member => alone effect (List.mem_cons_of_mem _ member)
    cases effect with
    | removed other => exact absurd rfl (noRemoval other)
    | echoed => exact absurd rfl noEcho
    | _ => exact others

/-- In a request in order, moving the removal to the end moves it past no change of its
property. -/
theorem Effect.InOrder.filter_eq (order : InOrder trace) (property : Bytes) :
    (trace.filterMap acknowledges ++ (lastRemoval trace).elim [] fun name => [(name, none)]).filter (·.1 = property) =
      (trace.filterMap notice).filter (·.1 = property) := by
  induction trace with
  | nil => rfl
  | cons effect rest ih =>
    obtain ⟨later, ordered⟩ := List.pairwise_cons.mp order
    cases effect with
    | changed name value =>
      simp only [List.filterMap_cons, acknowledges, notice, List.cons_append, List.filter_cons]
      have same : lastRemoval (.changed name value :: rest) = lastRemoval rest := rfl
      rw [same, ih ordered]
    | removed name =>
      have settled : lastRemoval (.removed name :: rest) = some name :=
        supersede_alone fun effect member => ⟨(later effect member name rfl).1, (later effect member name rfl).2.1⟩
      have same : rest.filterMap notice = rest.filterMap acknowledges := by
        refine List.filterMap_congr fun effect member => ?_
        cases effect with
        | removed other => exact absurd rfl ((later _ member name rfl).1 other)
        | _ => rfl
      have apart : (rest.filterMap acknowledges).filter (·.1 = name) = [] := by
        refine List.filter_eq_nil_iff.mpr fun item member => ?_
        obtain ⟨effect, inside, is⟩ := List.mem_filterMap.mp member
        cases effect with
        | changed other value =>
          cases is
          have different := (later _ inside name rfl).2.2 value
          simp only [decide_eq_true_eq]
          rintro rfl
          exact different rfl
        | _ => cases is
      simp only [settled, List.filterMap_cons, acknowledges, notice, Option.elim_some, same, List.filter_append,
        List.filter_cons]
      by_cases here : name = property
      · subst here
        simp [apart]
      · simp [here]
    | _ => exact ih ordered

/-- The requester is told of the changes and then of the last removal. -/
theorem Runs.requester_notices (run : Runs so connectionId (beginHandling m so) trace h)
    (requested : ∀ e ∈ so.events, e.Requested) (stays : h.released = false) :
    (inbox so.name connectionId
        ((finish connectionId h).1 ++ ((finish connectionId h).2.map (connectionId, ·)).toList)).flatMap
          SoMessage.notices =
      trace.filterMap Effect.acknowledges ++ (Effect.lastRemoval trace).elim [] fun name => [(name, none)] := by
  rw [inbox_requester run.named stays, ← run.acknowledged, ← run.replacement_notices requested, List.flatMap_append]
  cases h.replacement with
  | none => simp
  | some msg =>
    simp only
    split
    · rename_i empty
      have nothing : h.ret.notices = [] := by rw [SoMessage.notices, empty, List.filterMap_nil]
      simp [nothing]
    · simp

theorem flatMap_tells {name property : Bytes} {sends : PendingSends} :
    sends.flatMap (tells name client property) =
      ((inbox name client sends).flatMap SoMessage.notices).filter (·.1 = property) := by
  induction sends with
  | nil => rfl
  | cons send rest ih =>
    rw [List.flatMap_cons, ih, inbox_cons, List.flatMap_append, List.filter_append, tells]
    split
    · rw [List.flatMap_singleton]
    · rfl

theorem tells_deliveries {t : Traffic} {name : Bytes} (orderly : Turn.Orderly name client t (.apply so connectionId))
    (property : Bytes) :
    (t.manager.deliveries so connectionId).flatMap (tells name client property) =
      (if name = so.name ∧ (client = connectionId ∨ t.manager.isClient name client) then
        (t.manager.trace so connectionId).filterMap Effect.notice else []).filter (·.1 = property) := by
  have run := runs_trace t.manager so connectionId
  rw [flatMap_tells]
  by_cases here : name = so.name
  · subst here
    obtain ⟨requested, mine⟩ := orderly rfl
    by_cases own : client = connectionId
    · subst own
      obtain ⟨stays, order⟩ := mine rfl
      rw [if_pos ⟨rfl, .inl rfl⟩, ← order.filter_eq property,
        ← run.requester_notices requested (stays_of_noRelease t.manager client stays)]
      rfl
    · have sent := (run.others own).told
      rw [← heard_other own] at sent
      by_cases member : t.manager.isClient so.name client = true
      · rw [if_pos member] at sent
        rw [if_pos ⟨rfl, .inr member⟩, ← notices_fanOut requested sent]
        rfl
      · rw [if_neg member] at sent
        have none : inbox so.name client (t.manager.deliveries so connectionId) = [] := List.map_eq_nil_iff.mp sent
        rw [if_neg (by simp [own, member]), none]
        rfl
  · have none : inbox name client (t.manager.deliveries so connectionId) = [] :=
      inbox_eq_nil fun send is => run.named.deliveries send is ▸ Ne.symm here
    rw [if_neg fun both => here both.1, none]
    rfl

/-- What is in the client's queue and still to be delivered to it is what was applied. -/
theorem due_step {t : Traffic} {name : Bytes} {turn : Turn} (orderly : turn.Orderly name client t) {property : Bytes}
    (kept : Handoff.due (tells name client property) t.sent t.calls =
      (t.applied name client).filter (·.1 = property)) :
    Handoff.due (tells name client property) (t.step turn).sent (t.step turn).calls =
      ((t.step turn).applied name client).filter (·.1 = property) := by
  cases turn with
  | apply so connectionId =>
    show Handoff.due _ t.sent (t.calls ++ [_]) = List.filter _ (t.applied name client ++ _)
    rw [Handoff.due_decide, kept, List.filter_append, tells_deliveries orderly]
  | deliver call =>
    simp only [Traffic.step]
    split
    · rename_i send rest next
      exact (Handoff.due_hand next (orderly send rest next property)).trans kept
    · exact kept

/-- As long as deliveries about one property wait for those of earlier requests, a client that
stays one finds the changes and removals of every property in its queue in the order in which
they were applied, and all of them once nothing is left to deliver. -/
theorem notices_in_order {t : Traffic} {name : Bytes}
    (reach : Transition.Reach Traffic.step (Turn.Orderly name client) {} t) (property : Bytes) :
    t.sent.flatMap (tells name client property) <+: (t.applied name client).filter (·.1 = property) ∧
      ((∀ call ∈ t.calls, call = []) →
        t.sent.flatMap (tells name client property) = (t.applied name client).filter (·.1 = property)) := by
  refine Handoff.made_prefix (reach.invariant (I := fun t =>
    Handoff.due (tells name client property) t.sent t.calls = (t.applied name client).filter (·.1 = property)) rfl ?_)
  exact fun orderly kept => due_step orderly kept

def useRequest : SoMessage := { name := [120], events := [.use] }

def changeRequest : SoMessage := { name := [120], events := [.requestChange [97] (sampleValue false)] }

def removeRequest : SoMessage := { name := [120], events := [.requestRemove [97]] }

/-- Two connections join an object; then one changes a property and the other removes it. -/
def twoRequests : Traffic :=
  List.foldl Traffic.step {}
    [.apply joinRequest 1, .deliver 0, .apply useRequest 2, .deliver 1, .apply changeRequest 1,
      .apply removeRequest 2]

/-- The deliveries of the change and then those of the removal. -/
def inTurn : Traffic := List.foldl Traffic.step twoRequests [.deliver 2, .deliver 2, .deliver 3, .deliver 3]

theorem notices_in_order_inTurn :
    inTurn.sent.flatMap (tells [120] 2 [97]) = (inTurn.applied [120] 2).filter (·.1 = [97]) ∧
      (inTurn.applied [120] 2).length = 2 := by
  have applies {t : Traffic} {so : SoMessage} {connectionId : Nat} (requested : ∀ e ∈ so.events, e.Requested)
      (mine : connectionId = 2 → .release ∉ so.events ∧ Effect.InOrder (t.manager.trace so connectionId)) :
      Turn.Orderly [120] 2 t (.apply so connectionId) :=
    fun _ => ⟨requested, mine⟩
  have delivers {t : Traffic} {call : Nat} (first : (t.calls.take call).flatten = []) :
      Turn.Orderly [120] 2 t (.deliver call) := by
    refine fun _ _ _ _ => .inr fun older member => ?_
    rw [first] at member
    exact absurd member List.not_mem_nil
  have requests : Transition.Reach Traffic.step (Turn.Orderly [120] 2) {} twoRequests := by
    refine Transition.Reach.start.along ⟨?_, delivers rfl, ?_, delivers rfl, ?_, ?_, trivial⟩
    · exact applies (by simp [joinRequest, SoEvent.Requested]) nofun
    · refine applies (by simp [useRequest, SoEvent.Requested]) fun _ => ⟨by simp [useRequest], ?_⟩
      show Effect.InOrder [.answered]
      exact List.pairwise_singleton ..
    · exact applies (by simp [changeRequest, SoEvent.Requested]) nofun
    · refine applies (by simp [removeRequest, SoEvent.Requested]) fun _ => ⟨by simp [removeRequest], ?_⟩
      show Effect.InOrder [.removed [97]]
      exact List.pairwise_singleton ..
  have reach : Transition.Reach Traffic.step (Turn.Orderly [120] 2) {} inTurn :=
    requests.along ⟨delivers rfl, delivers rfl, delivers rfl, delivers rfl, trivial⟩
  have settled : ∀ call ∈ inTurn.calls, call = [] := by
    show ∀ call ∈ [[], [], [], []], call = ([] : PendingSends)
    simp
  exact ⟨(notices_in_order reach [97]).2 settled, rfl⟩

/-- The deliveries of the removal before those of the change. -/
def overtaken : Traffic := List.foldl Traffic.step twoRequests [.deliver 3, .deliver 3, .deliver 2, .deliver 2]

/-- The client that asked for the removal is left with the value that was removed. -/
theorem notices_overtaken :
    (∀ call ∈ overtaken.calls, call.length = 0) ∧
      ¬overtaken.sent.flatMap (tells [120] 2 [97]) <+: (overtaken.applied [120] 2).filter (·.1 = [97]) := by
  refine ⟨by decide +kernel, fun ⟨rest, same⟩ => ?_⟩
  have shape := congrArg (List.map fun notice : SoNotice => notice.2.isSome) same
  rw [List.map_append] at shape
  have told : (overtaken.sent.flatMap (tells [120] 2 [97])).map (fun notice : SoNotice => notice.2.isSome) =
      [false, true] := by decide +kernel
  have order : ((overtaken.applied [120] 2).filter (·.1 = [97])).map (fun notice : SoNotice => notice.2.isSome) =
      [true, false] := by decide +kernel
  rw [told, order] at shape
  cases shape

end SoManager

end Fms
