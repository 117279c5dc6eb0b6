import Fms.So.Replica

namespace Fms
open ByteWire

theorem SoMessage.hear_requested {so : SoMessage} (requested : ∀ e ∈ so.events, e.Requested) (copy : SoCopy) :
    so.hear copy = copy := by
  have silent {e : SoEvent} (asked : e.Requested) : e.hear copy = copy := by
    cases e with
    | clear | change | success | remove => exact absurd asked id
    | _ => rfl
  unfold hear
  generalize so.events = events at requested
  induction events with
  | nil => rfl
  | cons e rest ih =>
    rw [List.foldl_cons, silent (requested e (List.mem_cons_self ..))]
    exact ih fun e later => requested e (List.mem_cons_of_mem _ later)

theorem SoMessage.hear_useReply {msg : SoMessage} {values : Dict Bytes SoValue}
    (answers : msg.events = SoManager.useReply values) (copy : SoCopy) :
    msg.hear copy = fun name => values.lookup name := by
  have entries (listed : List ((_ : Bytes) × SoValue)) (distinct : listed.NodupKeys) (start : SoCopy) (name : Bytes) :
      (listed.map fun entry => SoEvent.change entry.1 entry.2).foldl SoEvent.hear start name =
        (listed.dlookup name).or (start name) := by
    induction listed generalizing start with
    | nil => rfl
    | cons entry rest ih =>
      obtain ⟨key, value⟩ := entry
      obtain ⟨absent, later⟩ := List.nodupKeys_cons.mp distinct
      rw [List.map_cons, List.foldl_cons, ih later]
      by_cases here : name = key
      · subst here
        have missing : rest.dlookup name = none := List.dlookup_eq_none.mpr absent
        rw [missing, List.dlookup_cons_eq]
        exact Function.update_self ..
      · rw [List.dlookup_cons_ne rest ⟨key, value⟩ here]
        exact congrArg _ (Function.update_of_ne here ..)
  funext name
  unfold hear
  rw [answers]
  have distinct : values.ordered.NodupKeys := (List.perm_nodupKeys values.ordered_perm).mpr values.nodupKeys
  refine (entries values.ordered distinct _ name).trans ?_
  rw [List.perm_dlookup name distinct values.ordered_perm]
  exact Option.or_none

namespace SoManager

variable {so : SoMessage} {connectionId client : Nat} {m : SoManager} {h last : Handling} {trace : List Effect}
  {copy : SoCopy}

theorem hear_fanOut (requested : ∀ e ∈ so.events, e.Requested) (copy : SoCopy) :
    (trace.filterMap (Effect.fanOut so)).foldl (fun copy events => events.foldl SoEvent.hear copy) copy =
      trace.foldl Effect.hear copy := by
  induction trace generalizing copy with
  | nil => rfl
  | cons effect rest ih =>
    cases effect with
    | echoed =>
      have silent : so.events.foldl SoEvent.hear copy = copy := SoMessage.hear_requested requested copy
      simp only [List.filterMap_cons, Effect.fanOut, List.foldl_cons, silent]
      exact ih copy
    | _ =>
      simp only [List.filterMap_cons, Effect.fanOut, List.foldl_cons]
      exact ih _

/-- The requester's copy once it has heard what is pending and the reply so far. -/
def heldCopy (so : SoMessage) (connectionId : Nat) (copy : SoCopy) (h : Handling) : SoCopy :=
  h.ret.hear ((inbox so.name connectionId h.pending).foldl SoMessage.hear copy)

/-- How the requester's copy compares with the properties in the course of a request. -/
structure Replies (so : SoMessage) (connectionId : Nat) (copy current : SoCopy) (trace : List Effect)
    (h : Handling) : Prop where
  member : ∀ data ∈ h.manager.object so.name, connectionId ∈ data.clients →
    ∀ name, (Effect.owes name trace).2 = false → heldCopy so connectionId copy h name = current name
  fresh : h.used = false → ∀ name, (Effect.owes name trace).1 = false → ∀ start, h.ret.hear start name = start name
  waiting : h.used = false → ∀ name, (Effect.owes name trace).1 = true → (Effect.owes name trace).2 = false →
    ∀ start, h.ret.hear start name = current name

theorem hear_append {msg more : SoMessage} {events : List SoEvent} (grows : more.events = msg.events ++ events)
    (copy : SoCopy) : more.hear copy = events.foldl SoEvent.hear (msg.hear copy) := by
  rw [SoMessage.hear, grows, List.foldl_append]
  rfl

namespace Replies
variable {current : SoCopy} {past : List Effect} {manager : SoManager} {data : SoData} {name : Bytes}

theorem silent (replies : Replies so connectionId copy current past h) (effect : Effect)
    (neutral : ∀ name is, effect.owe name is = is)
    (members : ∀ new ∈ manager.object so.name, connectionId ∈ new.clients →
      ∃ old ∈ h.manager.object so.name, connectionId ∈ old.clients)
    (sends : PendingSends) (others : inbox so.name connectionId sends = [])
    (replacement : Option SoMessage) (released : Bool) :
    Replies so connectionId copy current (past ++ [effect])
      { h with manager := manager, replacement := replacement, pending := h.pending ++ sends,
               released := released } := by
  have same (name : Bytes) : Effect.owes name (past ++ [effect]) = Effect.owes name past := by
    rw [Effect.owes_concat, neutral]
  refine ⟨fun new here joined name told => ?_, fun fresh name waits => ?_, fun fresh name waits told => ?_⟩
  · obtain ⟨old, was, client⟩ := members new here joined
    show h.ret.hear _ name = current name
    rw [inbox_append, others, List.append_nil]
    exact replies.member old was client name (same name ▸ told)
  · exact replies.fresh fresh name (same name ▸ waits)
  · exact replies.waiting fresh name (same name ▸ waits) (same name ▸ told)

theorem answered {ret : SoMessage} (replied : ret.events = useReply data.values)
    (holds : (fun name => data.values.lookup name) = current) :
    Replies so connectionId copy current past { h with manager := manager, ret := ret, used := true } := by
  refine ⟨fun _ _ _ name _ => ?_, Bool.noConfusion, Bool.noConfusion⟩
  show ret.hear _ name = current name
  rw [SoMessage.hear_useReply replied, holds]

/-- An answer of its own goes out before the reply, so the acknowledgements that wait there
are heard after it. -/
theorem answeredApart (replies : Replies so connectionId copy current past h) {answer : SoMessage}
    (named : answer.name = so.name) (replied : answer.events = useReply data.values)
    (holds : (fun name => data.values.lookup name) = current) (fresh : h.used = false) :
    Replies so connectionId copy current (past ++ [.answered])
      { h with manager := manager, pending := h.pending ++ [(connectionId, answer)], used := true } := by
  refine ⟨fun _ _ _ name told => ?_, Bool.noConfusion, Bool.noConfusion⟩
  show h.ret.hear ((inbox so.name connectionId (h.pending ++ [(connectionId, answer)])).foldl SoMessage.hear copy)
    name =
    current name
  have heard : (inbox so.name connectionId (h.pending ++ [(connectionId, answer)])).foldl SoMessage.hear copy =
      current := by
    rw [inbox_append, ← named, inbox_self, named, List.foldl_append, ← holds]
    exact SoMessage.hear_useReply replied _
  rw [heard]
  rw [Effect.owes_concat] at told
  cases waits : (Effect.owes name past).1 with
  | false => exact replies.fresh fresh name waits current
  | true =>
    have kept : (Effect.owes name past).2 = false := by simpa [Effect.owe, waits] using told
    exact replies.waiting fresh name waits kept current

theorem flushed (replies : Replies so connectionId copy current past h) (named : h.ret.name = so.name) :
    Replies so connectionId copy current (past ++ [.flushed])
      { h with pending := h.pending ++ [(connectionId, h.ret)], ret := emptyReply so } := by
  refine ⟨fun data here joined name told => ?_, fun _ _ _ _ => rfl, fun _ name waits => ?_⟩
  · have heard := replies.member data here joined name (by simpa [Effect.owes_concat, Effect.owe] using told)
    show (emptyReply so).hear _ name = current name
    rw [← heard, inbox_append, ← named, inbox_self, List.foldl_append]
    unfold heldCopy
    rw [named]
    rfl
  · simp [Effect.owes_concat, Effect.owe] at waits

theorem changed (replies : Replies so connectionId copy current past h)
    (finds : h.manager.findSo so connectionId = some data) {ret notify : SoMessage} {value : SoValue}
    (replied : ret.events = h.ret.events ++ [.success name value]) (named : notify.name = so.name) :
    Replies so connectionId copy (Function.update current name (some value)) (past ++ [.changed name value])
      { h with manager := manager, ret := ret,
               pending := h.pending ++ (othersOf data connectionId).map (·, notify) } := by
  have grown (copy : SoCopy) : ret.hear copy = Function.update (h.ret.hear copy) name (some value) :=
    hear_append replied copy
  have elsewhere {other : Bytes} (apart : other ≠ name) :
      Effect.owes other (past ++ [.changed name value]) = Effect.owes other past := by
    rw [Effect.owes_concat, Effect.owe, if_neg (Ne.symm apart)]
  refine ⟨fun _ _ _ other told => ?_, fun fresh other waits start => ?_, fun fresh other waits told start => ?_⟩
  · show ret.hear _ other = Function.update current name (some value) other
    rw [grown, inbox_append, ← named, inbox_others_self, named, List.append_nil]
    by_cases here : other = name
    · rw [here, Function.update_self, Function.update_self]
    · rw [Function.update_of_ne here, Function.update_of_ne here]
      obtain ⟨there, client⟩ := findSo_eq_some.mp finds
      exact replies.member data there client other (elsewhere here ▸ told)
  · show ret.hear start other = start other
    have apart : other ≠ name := by
      rintro rfl
      simp [Effect.owes_concat, Effect.owe] at waits
    rw [grown, Function.update_of_ne apart]
    exact replies.fresh fresh other (elsewhere apart ▸ waits) start
  · show ret.hear start other = Function.update current name (some value) other
    rw [grown]
    by_cases here : other = name
    · rw [here, Function.update_self, Function.update_self]
    · rw [Function.update_of_ne here, Function.update_of_ne here]
      exact replies.waiting fresh other (elsewhere here ▸ waits) (elsewhere here ▸ told) start

theorem removed (replies : Replies so connectionId copy current past h)
    (finds : h.manager.findSo so connectionId = some data) {notify : SoMessage} (named : notify.name = so.name)
    {replacement : Option SoMessage} :
    Replies so connectionId copy (Function.update current name none) (past ++ [.removed name])
      { h with manager := manager, replacement := replacement,
               pending := h.pending ++ (othersOf data connectionId).map (·, notify) } := by
  have waiting (other : Bytes) : (Effect.owes other (past ++ [.removed name])).1 = (Effect.owes other past).1 := by
    rw [Effect.owes_concat, Effect.owe]
    split <;> rfl
  have kept {other : Bytes} (told : (Effect.owes other (past ++ [.removed name])).2 = false) :
      other ≠ name ∧ (Effect.owes other past).2 = false := by
    rw [Effect.owes_concat, Effect.owe] at told
    split at told
    · cases told
    · rename_i apart
      exact ⟨Ne.symm apart, told⟩
  refine ⟨fun _ _ _ other told => ?_, fun fresh other waits => ?_, fun fresh other waits told start => ?_⟩
  · obtain ⟨apart, before⟩ := kept told
    obtain ⟨there, client⟩ := findSo_eq_some.mp finds
    show h.ret.hear _ other = Function.update current name none other
    rw [inbox_append, ← named, inbox_others_self, named, List.append_nil, Function.update_of_ne apart]
    exact replies.member data there client other before
  · exact replies.fresh fresh other (waiting other ▸ waits)
  · obtain ⟨apart, before⟩ := kept told
    rw [Function.update_of_ne apart]
    exact replies.waiting fresh other (waiting other ▸ waits) before start

end Replies

theorem Runs.replies (run : Runs so connectionId (beginHandling m so) trace h)
    (start : ∀ data ∈ m.object so.name, connectionId ∈ data.clients → copy = before m so) :
    Replies so connectionId copy (trace.foldl Effect.hear (before m so)) trace h := by
  induction run with
  | start =>
    refine ⟨fun data here client name _ => ?_, fun _ _ _ _ => rfl, fun _ name waits =>
      absurd waits Bool.false_ne_true⟩
    exact congrFun (start data here client) name
  | @next past now mid last run going step ih =>
    have properties := run.view.1 going
    rw [List.foldl_append]
    cases step with
    | ignored after =>
      rw [List.append_nil]
      exact ⟨ih.member, fun fresh => ih.fresh (after fresh), fun fresh => ih.waiting (after fresh)⟩
    | answered _ _ keeps _ _ replied => exact .answered replied (keeps ▸ properties)
    | answeredApart _ _ keeps named replied fresh => exact ih.answeredApart named replied (keeps ▸ properties) fresh
    | flushed => exact ih.flushed run.named.ret
    | changed finds _ _ _ _ replied named => exact ih.changed finds replied named
    | removed finds _ _ _ _ named => exact ih.removed finds named
    | echoed =>
      exact ih.silent .echoed (fun _ _ => rfl) (fun new here joined => ⟨new, here, joined⟩) _ inbox_others_self _ _
    | @left manager _ remains =>
      have outside : ∀ new ∈ manager.object so.name, connectionId ∈ new.clients →
          ∃ old ∈ mid.manager.object so.name, connectionId ∈ old.clients := by
        intro new here joined
        obtain ⟨old, was, _, clients⟩ := remains new here
        exact ⟨old, was, ((clients connectionId).mp joined).2⟩
      have quiet := ih.silent .left (fun _ _ => rfl) outside [] rfl mid.replacement true
      rwa [List.append_nil] at quiet

/-- What a removal or a message replaces the reply with. -/
theorem Runs.replacement_elim {β : Type} {default : β} {read : SoMessage → β} {gone : Bytes → β}
    (run : Runs so connectionId (beginHandling m so) trace h) (echoed : read so = default)
    (removed : ∀ msg name, msg.events = [.remove name] → read msg = gone name) :
    h.replacement.elim default read = (Effect.lastRemoval trace).elim default gone := by
  induction run with
  | start => rfl
  | @next past now mid last run going step ih =>
    simp only [Effect.lastRemoval, List.foldl_append] at ih ⊢
    cases step with
    | removed _ _ _ _ _ _ tells => exact removed _ _ tells
    | echoed => exact echoed
    | _ => exact ih

theorem Runs.replacement (run : Runs so connectionId (beginHandling m so) trace h)
    (requested : ∀ e ∈ so.events, e.Requested) (copy : SoCopy) :
    (h.replacement.elim copy fun msg => msg.hear copy) =
      (Effect.lastRemoval trace).elim copy fun name => Function.update copy name none :=
  run.replacement_elim (SoMessage.hear_requested requested copy) fun msg name tells => by
    rw [SoMessage.hear, tells]
    rfl

theorem hear_gone {name : Bytes} {start : SoCopy} (absent : Effect.gone name trace = true) :
    trace.foldl Effect.hear start name = none := by
  have general (trace : List Effect) (is : Bool) (copy : SoCopy) (known : is = true → copy name = none) :
      trace.foldl (Effect.goes name) is = true → trace.foldl Effect.hear copy name = none := by
    induction trace generalizing is copy with
    | nil => exact known
    | cons effect rest ih =>
      refine ih _ _ fun still => ?_
      cases effect with
      | changed other value =>
        simp only [Effect.goes] at still
        split at still
        · cases still
        · rename_i apart
          exact (Function.update_of_ne (Ne.symm apart) ..).trans (known still)
      | removed other =>
        simp only [Effect.goes] at still
        by_cases here : other = name
        · subst here
          exact Function.update_self ..
        · rw [if_neg here] at still
          exact (Function.update_of_ne (Ne.symm here) ..).trans (known still)
      | _ => exact known still
  exact general trace false start Bool.noConfusion absent

theorem Runs.released (run : Runs so connectionId (beginHandling m so) trace h) :
    (h.released = true ↔ .left ∈ trace) ∧
      (h.released = true → ∀ data ∈ h.manager.object so.name, connectionId ∉ data.clients) := by
  induction run with
  | start => exact ⟨⟨Bool.noConfusion, fun never => absurd never List.not_mem_nil⟩, Bool.noConfusion⟩
  | @next past now mid last run going step ih =>
    have never : Effect.left ∉ past := fun member => Bool.false_ne_true (going.symm.trans (ih.1.mpr member))
    cases step with
    | left _ remains =>
      refine ⟨⟨fun _ => by simp, fun _ => rfl⟩, fun _ new here member => ?_⟩
      obtain ⟨_, _, _, clients⟩ := remains new here
      exact absurd rfl ((clients connectionId).mp member).1
    | _ =>
      exact ⟨⟨fun is => absurd (going.symm.trans is) Bool.false_ne_true,
        fun member => absurd member (by simp [never])⟩, fun is => absurd (going.symm.trans is) Bool.false_ne_true⟩

theorem stays_of_noRelease (m : SoManager) (connectionId : Nat) (noRelease : .release ∉ so.events) :
    (handleEvents so connectionId (beginHandling m so) so.events).released = false := by
  refine Bool.eq_false_iff.mpr fun released => noRelease ?_
  exact Standing.left_of_trace ((runs_trace m so connectionId).released.1.mp released)

/-- The requester is sent the pending messages, the reply and what replaces it, in that order. -/
theorem inbox_requester (named : Named so h) (stays : h.released = false) :
    inbox so.name connectionId
        ((finish connectionId h).1 ++ ((finish connectionId h).2.map (connectionId, ·)).toList) =
      inbox so.name connectionId h.pending ++ match h.replacement with
        | none => [h.ret]
        | some msg => if h.ret.events = [] then [msg] else [h.ret, msg] := by
  cases replaced : h.replacement with
  | none => simp [finish, replaced, stays, inbox_cons, named.ret]
  | some msg =>
    have about := named.replacement msg replaced
    by_cases empty : h.ret.events = []
    · simp [finish, replaced, stays, empty, inbox_cons, about]
    · simp [finish, replaced, stays, empty, inbox_cons, about, named.ret]

theorem heard_requester (named : Named so h) (stays : h.released = false) (copy : SoCopy) :
    (inbox so.name connectionId
        ((finish connectionId h).1 ++ ((finish connectionId h).2.map (connectionId, ·)).toList)).foldl
          SoMessage.hear copy =
      h.replacement.elim (heldCopy so connectionId copy h) fun msg => msg.hear (heldCopy so connectionId copy h) := by
  rw [inbox_requester named stays, List.foldl_append]
  cases h.replacement with
  | none => rfl
  | some msg =>
    simp only
    split
    · rename_i empty
      have nothing (copy : SoCopy) : h.ret.hear copy = copy := by rw [SoMessage.hear, empty, List.foldl_nil]
      simp [heldCopy, nothing]
    · rfl

theorem heard_other (other : client ≠ connectionId) :
    inbox so.name client
        ((finish connectionId h).1 ++ ((finish connectionId h).2.map (connectionId, ·)).toList) =
      inbox so.name client h.pending := by
  cases released : h.released with
  | true => simp [finish, released]
  | false =>
    unfold finish
    simp only [released]
    split <;> simp [inbox_cons, other.symm]

theorem Named.deliveries (named : Named so h) :
    ∀ send ∈ (finish connectionId h).1 ++ ((finish connectionId h).2.map (connectionId, ·)).toList,
      send.2.name = so.name := by
  have result : (h.replacement.getD h.ret).name = so.name := by
    cases replaced : h.replacement with
    | none => exact named.ret
    | some msg => exact named.replacement msg replaced
  intro send member
  rcases List.mem_append.mp member with pending | last
  · simp only [finish] at pending
    split at pending
    · rcases List.mem_append.mp pending with before | reply
      · exact named.pending send before
      · rw [List.mem_singleton.mp reply]
        exact named.ret
    · exact named.pending send pending
  · simp only [finish] at last
    split at last
    · simp at last
    · simp only [Option.map_some, Option.toList_some, List.mem_singleton] at last
      rw [last]
      exact result

/-- A request that tells its requester of its removals keeps the copies right. -/
theorem Room.Converged.handleSo {room : Room} (converged : room.Converged)
    (tells : Call.Tells room (.handleSo so connectionId)) : (room.step (.handleSo so connectionId)).Converged := by
  obtain ⟨requested, told⟩ := tells
  have run := runs_trace room.manager so connectionId
  set h := handleEvents so connectionId (beginHandling room.manager so) so.events with final
  intro name data here client member
  have here : data ∈ h.manager.object name := here
  show (inbox name client
    ((finish connectionId h).1 ++ ((finish connectionId h).2.map (connectionId, ·)).toList)).foldl
    SoMessage.hear (room.copies name client) = data.view
  by_cases same : name = so.name
  · subst same
    have view := run.view.2 data here
    by_cases other : client = connectionId
    · subst other
      have stays : h.released = false := by
        cases released : h.released with
        | false => rfl
        | true => exact absurd member (run.released.2 released data here)
      have told : Effect.Told (room.manager.trace so client) := by
        refine told.resolve_left fun left => ?_
        exact Bool.false_ne_true (stays.symm.trans (run.released.1.mpr left))
      have start : ∀ data ∈ room.manager.object so.name, client ∈ data.clients →
          room.copies so.name client = before room.manager so := fun old was joined =>
        (converged so.name old was client joined).trans (before_eq was).symm
      have replies := run.replies start
      rw [heard_requester run.named stays, run.replacement requested, view]
      funext property
      cases removed : Effect.lastRemoval (room.manager.trace so client) with
      | none =>
        have nothing : (Effect.owes property (room.manager.trace so client)).2 = false := by
          by_contra owed
          have last := (told property).1 (Bool.not_eq_false _ ▸ owed)
          rw [removed] at last
          cases last
        exact replies.member data here member property nothing
      | some last =>
        simp only [Option.elim_some]
        by_cases is : property = last
        · subst is
          rw [Function.update_self, hear_gone ((told property).2 removed)]
        · rw [Function.update_of_ne is]
          have nothing : (Effect.owes property (room.manager.trace so client)).2 = false := by
            by_contra owed
            have unique := (told property).1 (Bool.not_eq_false _ ▸ owed)
            rw [removed] at unique
            exact is (Option.some.inj unique).symm
          exact replies.member data here member property nothing
    · have others := run.others other
      have was := others.before (isClient_iff.mpr ⟨data, here, member⟩)
      obtain ⟨old, there, joined⟩ := isClient_iff.mp was
      have sent := others.told
      rw [was, if_pos rfl] at sent
      rw [heard_other other, view, before_eq there, ← converged so.name old there client joined,
        ← hear_fanOut requested, ← sent, List.foldl_map]
      rfl
  · have unheard : inbox name client
        ((finish connectionId h).1 ++ ((finish connectionId h).2.map (connectionId, ·)).toList) = [] :=
      inbox_eq_nil fun send is => run.named.deliveries send is ▸ Ne.symm same
    rw [unheard, List.foldl_nil]
    rw [run.elsewhere same] at here
    exact converged name data here client member

theorem Room.Converged.removeConnection {room : Room} (converged : room.Converged) :
    (room.step (.removeConnection connectionId)).Converged := by
  intro name data here client member
  obtain ⟨old, was, rfl, _⟩ := object_removeConnection here
  exact converged name old was client (OrdSet.mem_erase.mp member).2

/-- As long as every request tells its requester of its removals, every client's copy is
what the server stores after every call. -/
theorem copies_converge {copies : Bytes → Nat → SoCopy} {room : Room}
    (reach : Transition.Reach Room.step Call.Tells { copies := copies } room) : room.Converged := by
  refine reach.invariant (fun name data here => by cases here) fun {room call} tells converged => ?_
  cases call with
  | handleSo => exact converged.handleSo tells
  | removeConnection => exact converged.removeConnection

def sampleValue (value : Bool) : SoValue := some ⟨1, .scalar (.boolean value)⟩

def emptyRoom : Room := { copies := fun _ _ _ => none }

def joinRequest : SoMessage := { name := [120], events := [.use, .requestChange [97] (sampleValue true)] }

def moveRequest : SoMessage :=
  { name := [120], events := [.requestRemove [97], .requestChange [98] (sampleValue false)] }

theorem copies_converge_moved :
    ((emptyRoom.step (.handleSo joinRequest 1)).step (.handleSo joinRequest 2)).step (.handleSo moveRequest 1)
      |>.Converged := by
  have joins (room : Room) (connectionId : Nat) (trace : room.manager.trace joinRequest connectionId =
      [.answered, .changed [97] (sampleValue true)]) : Call.Tells room (.handleSo joinRequest connectionId) := by
    refine ⟨by simp [joinRequest, SoEvent.Requested], .inr ?_⟩
    rw [trace]
    intro name
    simp only [Effect.owes, Effect.owe, Effect.lastRemoval, Effect.supersede, List.foldl_cons, List.foldl_nil,
      Bool.and_false]
    split <;> exact ⟨Bool.noConfusion, nofun⟩
  have moves (room : Room) (connectionId : Nat) (trace : room.manager.trace moveRequest connectionId =
      [.removed [97], .changed [98] (sampleValue false)]) : Call.Tells room (.handleSo moveRequest connectionId) := by
    refine ⟨by simp [moveRequest, SoEvent.Requested], .inr ?_⟩
    rw [trace]
    intro name
    by_cases one : name = [97]
    · subst one
      simp [Effect.owes, Effect.owe, Effect.lastRemoval, Effect.supersede, Effect.gone, Effect.goes]
    · simp only [Effect.owes, Effect.owe, Effect.lastRemoval, Effect.supersede, List.foldl_cons, List.foldl_nil,
        Option.some.injEq, Ne.symm one, false_implies, and_true]
      split <;> exact Bool.noConfusion
  exact copies_converge (((Transition.Reach.start.next _ (joins _ 1 rfl)).next _ (joins _ 2 rfl)).next
    _ (moves _ 1 rfl))

/-- Join the object, set a property, remove it and set it again. -/
def relapseRequest : SoMessage :=
  { name := [120], events := [.use, .requestChange [97] (sampleValue true), .requestRemove [97],
      .requestChange [97] (sampleValue false)] }

/-- The requester hears of the removal last and is left without the property. -/
theorem copies_diverge :
    (∀ e ∈ relapseRequest.events, e.Requested) ∧ ¬(emptyRoom.step (.handleSo relapseRequest 1)).Converged := by
  refine ⟨by simp [relapseRequest, SoEvent.Requested], fun converged => ?_⟩
  have stored : ((emptyRoom.step (.handleSo relapseRequest 1)).manager.object [120]).map
      (fun data => (decide (1 ∈ data.clients), (data.view [97]).isSome)) = some (true, true) := by decide +kernel
  have copy : ((emptyRoom.step (.handleSo relapseRequest 1)).copies [120] 1 [97]).isSome = false := by decide +kernel
  obtain ⟨data, here, is⟩ := Option.map_eq_some_iff.mp stored
  obtain ⟨member, present⟩ := Prod.mk.inj is
  rw [converged [120] data here 1 (of_decide_eq_true member), present] at copy
  cases copy

end SoManager

end Fms
