import Fms.Amf.Budget
import Fms.Rtmp.Deserialize

namespace Fms.RtmpProtocol
open ByteWire Fallible Amf

variable {s : Decoder} {body : Decode Decoded} {th : Thread}

section
variable {α β : Type} {m : Decode α} {pre : Credit} {post : α → Credit}

theorem keeps_bounded (inner : Keeps pre m post) (len : Nat) : Keeps pre (bounded len m) post := by
  refine pays_get.bind fun outer => Pays.bind (pays_modify fun _ _ => ⟨rfl, rfl, rfl, rfl⟩) fun _ => ?_
  exact inner.guarded fun _ => ⟨rfl, rfl, rfl, rfl⟩

theorem gives_readHere : Gives Amf0.readHere := by
  refine pays_get.bind fun s => ?_
  by_cases top : s.depth = 0
  · rw [if_pos top]
    exact Amf0.pays_resetRefs.bind fun _ => Amf0.gives_readAt anyRef _
  · rw [if_neg top]
    exact Amf0.gives_readAt anyRef _

theorem pays_skip (len : Nat) (refusal : AmfError) : Pays (skip len refusal) :=
  pays_available.bind fun _ => (keeps_throw _).ite (pays_modify fun _ _ => ⟨rfl, rfl, rfl, rfl⟩)

theorem keeps_readParameters (room : Nat) : Keeps 0 (readParameters room) fun values => placed values.length := by
  induction room with
  | zero => exact pays_available.bind fun _ => (keeps_throw _).ite (keeps_pure rfl)
  | succ room ih =>
    refine pays_available.bind fun _ => Keeps.ite ?_ (keeps_pure rfl)
    exact gives_readHere.bind fun value => (ih.holding (placed 1)).bind fun values => keeps_pure rfl

theorem keeps_deserializeEvent : Keeps 0 deserializeEvent fun event => placed event.value.toList.length := by
  refine (pays_lift tryU8).bind fun type => (pays_lift tryU32Be).bind fun size => Keeps.ite ?_ (Keeps.ite ?_ ?_)
  · refine pays_available.bind fun _ => (keeps_throw _).ite ?_
    have inner : Keeps 0 (if type = eRequestChange then deserializeRequestChangeEvent type
        else deserializeRequestRemoveEvent type) fun event => placed event.value.toList.length := by
      refine Keeps.ite ?_ ?_
      · exact (pays_lift Amf0.readShortString).bind fun name => gives_readHere.bind fun value => keeps_pure rfl
      · exact (pays_lift Amf0.readShortString).bind fun name => keeps_pure rfl
    exact (keeps_bounded inner _).bind fun event => (pays_skip _ _).bind fun _ => keeps_pure rfl
  · exact (pays_lift (takeBytes _)).bind fun data => keeps_pure rfl
  · exact (pays_skip _ _).bind fun _ => keeps_pure rfl

theorem keeps_readEvents (room : Nat) :
    Keeps 0 (readEvents room) fun events => placed (events.filterMap DecodedEvent.value).length := by
  induction room with
  | zero => exact pays_available.bind fun _ => (keeps_throw _).ite (keeps_pure rfl)
  | succ room ih =>
    refine pays_available.bind fun _ => Keeps.ite ?_ (keeps_pure rfl)
    refine keeps_deserializeEvent.bind fun event => (ih.holding _).bind fun events => keeps_pure ?_
    cases value : event.value with
    | none => simp [value, placed]
    | some address => simp [value, placed]

/-- In a scope, between two reads of the codecs: what the result holds is paid for. -/
def Serves (m : Decode α) (held : α → List Nat) : Prop :=
  ∀ base c, base.depth = 0 →
    Ensures (Within base c) m (fun a => Within base (c + placed (held a).length)) (Within base c)

variable {held : α → List Nat}

theorem serves_codec (keeps : Keeps 0 m fun a => placed (held a).length) : Serves (do newCodec; m) held := by
  intro base c top
  have framed := keeps base c
  rw [add_zero] at framed
  refine Ensures.bind (R := fun _ => Within base c) (fun s within => ?_) fun _ => framed
  exact ⟨top.symm, within.scopes, within.inside, within.bounded, within.objects, within.places, within.strings⟩

theorem Serves.scope (serves : Serves m held) : Serves (readScope m) held := by
  intro base c top
  by_cases outside : base.scopes = 0
  · exact fun s within => absurd (within.scopes.trans outside) within.inside
  let inner : Decoder := { base with scopes := base.scopes + 1 }
  have entered : Ensures (Within base c) (do
      modify fun s => { s with budget := if s.scopes = 0 then {} else s.budget, scopes := s.scopes + 1 }
      m) (fun a => Within inner (c + placed (held a).length)) (Within inner c) := by
    refine Ensures.bind (R := fun _ => Within inner c) (fun s within => ?_) fun _ => serves inner c top
    show Within inner c { s with budget := if s.scopes = 0 then {} else s.budget, scopes := s.scopes + 1 }
    rw [if_neg within.inside]
    exact ⟨within.depth, congrArg (· + 1) within.scopes, Nat.succ_ne_zero _, within.bounded, within.objects,
      within.places,
      within.strings⟩
  have left (d : Credit) (s : Decoder) (within : Within inner d s) :
      Within base d { s with scopes := s.scopes - 1 } := by
    have back : s.scopes - 1 = base.scopes := by
      rw [within.scopes]
      rfl
    exact ⟨within.depth, back, back ▸ outside, within.bounded, within.objects, within.places, within.strings⟩
  exact Ensures.guarded (entered.weaken (fun _ within => within) (fun a => left _) (left _))

theorem Serves.bounded (serves : Serves m held) (len : Nat) : Serves (bounded len m) held := by
  intro base c top
  refine Ensures.bind (R := fun _ => Within base c) (fun s within => within) fun outer => ?_
  refine Ensures.bind (R := fun _ => Within base c) (fun s within => within.same rfl rfl rfl rfl) fun _ => ?_
  refine Ensures.guarded ((serves base c top).weaken (fun _ within => within) ?_ ?_)
  · exact fun a s within => within.same rfl rfl rfl rfl
  · exact fun s within => within.same rfl rfl rfl rfl

/-- After a message on a thread without scopes, with that many values held in the result. -/
structure Settled (s : Decoder) (values : Nat) (t : Decoder) : Prop where
  depth : t.depth = s.depth
  scopes : t.scopes = s.scopes
  bounded : t.budget.stringBytes ≤ ReadBudget.eMaxStringBytes
  objects : t.heap.length ≤ s.heap.length + ReadBudget.eMaxNodes
  places : places t.heap + values ≤ places s.heap + ReadBudget.eMaxNodes
  strings : stringBytes t.heap ≤ stringBytes s.heap + t.budget.stringBytes

theorem Settled.refl (bounded : s.budget.stringBytes ≤ ReadBudget.eMaxStringBytes) : Settled s 0 s :=
  ⟨rfl, rfl, bounded, Nat.le_add_right _ _, Nat.le_add_right _ _, Nat.le_add_right _ _⟩

theorem Serves.outermost (serves : Serves m held) (outside : s.scopes = 0) (top : s.depth = 0) :
    Ensures (· = s) (readScope m) (fun a => Settled s (held a).length) (Settled s 0) := by
  let base : Decoder := { s with budget := {}, scopes := 1 }
  have entered : Ensures (· = s) (do
      modify fun s => { s with budget := if s.scopes = 0 then {} else s.budget, scopes := s.scopes + 1 }
      m) (fun a => Within base (0 + placed (held a).length)) (Within base 0) := by
    refine Ensures.bind (R := fun _ => Within base 0) (fun t same => ?_) fun _ => serves base 0 top
    subst same
    show Within base 0 { t with budget := if t.scopes = 0 then {} else t.budget, scopes := t.scopes + 1 }
    rw [if_pos outside, outside]
    exact ⟨rfl, rfl, Nat.one_ne_zero, Nat.zero_le _, Nat.le_add_right _ _, Nat.le_add_right _ _, Nat.le_add_right _ _⟩
  have left (n : Nat) (t : Decoder) (within : Within base (0 + placed n) t) :
      Settled s n { t with scopes := t.scopes - 1 } := by
    have most : t.budget.accepted ≤ ReadBudget.eMaxNodes := Nat.min_le_right _ _
    have objects : t.heap.length ≤ s.heap.length + t.budget.accepted := within.objects
    have places : places t.heap + (0 + n) ≤ Amf.places s.heap + t.budget.accepted := within.places
    refine ⟨within.depth, ?_, within.bounded, ?_, ?_, within.strings⟩
    · show t.scopes - 1 = s.scopes
      rw [within.scopes, outside]
      rfl
    · show t.heap.length ≤ _
      omega
    · show Amf.places t.heap + n ≤ _
      omega
  exact Ensures.guarded (entered.weaken (fun _ same => same) (fun a => left _) (left 0))

/-- A message is paid for inside a scope and, on a thread without one, in its own. -/
structure Decodes (m : Decode α) (held : α → List Nat) : Prop where
  inner : Serves m held
  outer : ∀ s, s.scopes = 0 → s.depth = 0 → s.budget.stringBytes ≤ ReadBudget.eMaxStringBytes →
    Ensures (· = s) m (fun a => Settled s (held a).length) (Settled s 0)

theorem Serves.decodes (serves : Serves m held) : Decodes (readScope m) held :=
  ⟨serves.scope, fun _ outside top _ => serves.outermost outside top⟩

theorem decodes_input {answer : Bytes → α} (plain : ∀ input, held (answer input) = []) :
    Decodes (do return answer (← get).input) held := by
  refine ⟨fun base c _ s within => ?_, fun s _ _ bounded t same => ?_⟩
  · show Within base (c + placed (held (answer s.input)).length) s
    rw [plain]
    exact within
  · subst same
    show Settled t (held (answer t.input)).length t
    rw [plain]
    exact .refl bounded

def valuesOf : Option (Message Decoded) → List Nat
  | none => []
  | some message => message.values

theorem Decodes.encoded (decodes : Decodes body Decoded.values) : Decodes (encoded body) valuesOf := by
  have refused {P : Decoder → Prop} {Q : Option (Message Decoded) → Decoder → Prop} (after : ∀ s, P s → Q none s)
    (e : AmfError) :
      Ensures P (if e = .bufferEof then throw e else return none : Decode (Option (Message Decoded))) Q P :=
    Ensures.ite (fun _ before => before) fun s before => after s before
  refine ⟨fun base c top => ?_, fun s outside top bounded => ?_⟩
  · refine Ensures.tryCatch ?_ (refused fun s within => within)
    exact (decodes.inner base c top).bind fun value s within => within
  · refine Ensures.tryCatch ?_ (refused fun s settled => settled)
    exact (decodes.outer s outside top bounded).bind fun value s settled => settled

theorem decodes_notify : Decodes deserializeNotify Decoded.values := by
  refine Serves.decodes (serves_codec ?_)
  exact (pays_lift readFunction).bind fun function => (keeps_readParameters _).bind fun params => keeps_pure rfl

theorem decodes_invoke : Decodes deserializeInvoke Decoded.values := by
  refine Serves.decodes (serves_codec ?_)
  refine (pays_lift readFunction).bind fun function => (pays_lift readInvokeId).bind fun id => ?_
  exact (keeps_readParameters _).bind fun params => keeps_pure rfl

theorem decodes_sharedObject : Decodes deserializeSharedObject Decoded.values := by
  refine Serves.decodes (serves_codec ?_)
  refine (pays_lift Amf0.readShortString).bind fun name => (pays_lift tryU32Be).bind fun version => ?_
  refine (pays_lift tryU32Be).bind fun flags => (pays_skip 4 _).bind fun _ => ?_
  exact (keeps_readEvents _).bind fun events => keeps_pure rfl

theorem behindZero_eq (empty : Decoded) (body : Decode Decoded) (s : Decoder) : behindZero empty body s =
    match s.input with
    | [] => (.ok empty, s)
    | type :: rest => if type = 0 then body { s with input := rest } else (.ok empty, s) := by
  show (match s.input with
    | [] => return empty
    | type :: rest =>
      if type = 0 then do
        modify fun s => { s with input := rest }
        body
      else return empty : Decode Decoded) s = _
  cases s.input with
  | nil => rfl
  | cons type rest =>
    by_cases zero : type = 0
    · simp only [if_pos zero]
      rfl
    · simp only [if_neg zero]
      rfl

theorem Decodes.behindZero {empty : Decoded} (decodes : Decodes body Decoded.values) (plain : empty.values = []) :
    Decodes (behindZero empty body) Decoded.values := by
  refine ⟨fun base c top s within => ?_, fun s outside top bounded t same => ?_⟩
  · have unread : Within base (c + placed empty.values.length) s := by
      rw [plain]
      exact within
    rw [behindZero_eq]
    cases s.input with
    | nil => exact unread
    | cons type rest =>
      by_cases zero : type = 0
      · simp only [if_pos zero]
        exact decodes.inner base c top (within.same rfl rfl rfl rfl)
      · simp only [if_neg zero]
        exact unread
  · subst same
    have unread : Settled t empty.values.length t := by
      rw [plain]
      exact .refl bounded
    rw [behindZero_eq]
    cases t.input with
    | nil => exact unread
    | cons type rest =>
      by_cases zero : type = 0
      · have moved {n : Nat} {u : Decoder} (settled : Settled { t with input := rest } n u) : Settled t n u :=
          ⟨settled.depth, settled.scopes, settled.bounded, settled.objects, settled.places, settled.strings⟩
        simp only [if_pos zero]
        have whole := decodes.outer { t with input := rest } outside top bounded
        exact (whole.weaken (fun _ same => same) (fun _ _ => moved) fun _ => moved) rfl
      · simp only [if_neg zero]
        exact unread

theorem valuesOfAll_append (one other : List (Stamp × Message Decoded)) :
    valuesOfAll (one ++ other) = valuesOfAll one ++ valuesOfAll other := by
  induction one with
  | nil => rfl
  | cons entry one ih =>
    obtain ⟨stamp, message⟩ := entry
    show message.values ++ valuesOfAll (one ++ other) = message.values ++ valuesOfAll one ++ valuesOfAll other
    rw [ih, List.append_assoc]

theorem length_valuesOfAll_kept (messages : List (Stamp × Message Decoded)) (stamp : Stamp)
    (message : Option (Message Decoded)) :
    (valuesOfAll (messages ++ (message.map fun m => (stamp, m)).toList)).length =
      (valuesOfAll messages).length + (valuesOf message).length := by
  rw [valuesOfAll_append, List.length_append]
  cases message with
  | none => rfl
  | some m =>
    show _ + (m.values ++ []).length = _
    rw [List.append_nil]
    rfl

theorem pays_readTag (ts : UInt32) (prev : Option (UInt32 × UInt32)) : Pays (readTag ts prev) := by
  refine (pays_lift tryU8).bind fun type => (pays_lift tryU24Be).bind fun length => ?_
  refine (pays_lift tryU24Be).bind fun low => (pays_lift tryU8).bind fun high => ?_
  exact (pays_lift tryU24Be).bind fun id => pays_pure _

/-- A sub-message that is dropped gives up what was paid for it. -/
theorem Serves.dropOverread {m : Decode (Option (Message Decoded))} (serves : Serves m valuesOf) :
    Serves (dropOverread m) valuesOf := by
  intro base c top
  refine (serves base c top).tryCatch fun e => Ensures.ite ?_ ?_
  · exact fun s within => within
  · exact fun s within => within

section
variable {sub : RtmpHeader → Decode (Option (Message Decoded))} {base : Decoder} {c : Credit}

theorem forfeit {n : Nat} (within : Within base (c + placed n) s) : Within base c s :=
  within.mono (le_add_of_nonneg_right zero_le)

theorem ensures_pays {m : Decode α} (pays : Pays m) (n : Nat) :
    Ensures (Within base (c + placed n)) m (fun _ => Within base (c + placed n)) (Within base c) := by
  have framed := pays base (c + placed n)
  rw [add_zero] at framed
  exact framed.weaken (fun _ within => within) (fun _ _ within => within) fun _ within => forfeit within

/-- What the sub-messages so far hold, after a round and after the last one. -/
def Aggregated (base : Decoder) (c : Credit) (outcome : Aggregation ⊕ List (Stamp × Message Decoded))
    (s : Decoder) : Prop :=
  outcome.elim (fun next => Within base (c + placed (valuesOfAll next.2).length) s)
    fun messages => Within base (c + placed (valuesOfAll messages).length) s

theorem serves_takeSubMessage (subs : ∀ h, Serves (sub h) valuesOf) (messages : List (Stamp × Message Decoded))
    (h : RtmpHeader) (wire : UInt32) (top : base.depth = 0) :
    Ensures (Within base (c + placed (valuesOfAll messages).length)) (takeSubMessage sub messages h wire)
      (Aggregated base c)
      (Within base c) := by
  refine (ensures_pays pays_available _).bind fun _ => Ensures.ite (fun _ within => within) ?_
  have taken := ((subs h).bounded h.messageLength.toNat).dropOverread base
    (c + placed (valuesOfAll messages).length) top
  refine (taken.weaken (fun _ within => within) (fun _ _ within => within) fun _ within => forfeit within).bind
    fun message => ?_
  have kept : c + placed (valuesOfAll messages).length + placed (valuesOf message).length =
      c + placed (valuesOfAll (messages ++ (message.map fun m => (h.stamp, m)).toList)).length := by
    rw [length_valuesOfAll_kept, add_assoc]
    rfl
  rw [kept]
  refine (ensures_pays (pays_skip _ _) _).bind fun _ => (ensures_pays pays_available _).bind fun _ => ?_
  refine Ensures.ite (fun _ within => within) ?_
  exact (ensures_pays (pays_skip _ _) _).bind fun _ _ within => within

theorem serves_readSubMessage (subs : ∀ h, Serves (sub h) valuesOf) (ts : UInt32) (soFar : Aggregation)
    (top : base.depth = 0) :
    Ensures (Within base (c + placed (valuesOfAll soFar.2).length)) (readSubMessage sub ts soFar) (Aggregated base c)
      (Within base c) := by
  refine (ensures_pays pays_available _).bind fun _ => Ensures.ite (fun _ within => within) ?_
  refine Ensures.ite (fun _ within => forfeit within) ?_
  exact (ensures_pays (pays_readTag ts soFar.1) _).bind fun tag => serves_takeSubMessage subs soFar.2 tag.1 tag.2 top

end

theorem decodes_aggregate {sub : RtmpHeader → Decode (Option (Message Decoded))} (subs : ∀ h, Serves (sub h) valuesOf)
    (ts : UInt32) : Decodes (deserializeAggregate sub ts) Decoded.values := by
  refine Serves.decodes fun base c top => ?_
  refine Ensures.bind (R := fun _ => Within base c) (fun s within => within) fun n => ?_
  have rounds : Ensures (Within base c) (iterate .bufferEof (readSubMessage sub ts) (n + 1) (none, []))
      (fun messages => Within base (c + placed (valuesOfAll messages).length)) (Within base c) :=
    Ensures.iterate (fun soFar => serves_readSubMessage subs ts soFar top) (fun _ _ => forfeit) (n + 1) (none, [])
  exact rounds.bind fun messages _ within => within

theorem valuesOf_plain {message : Option (Message Decoded)} (plain : ∀ m, message = some m → m.values = []) :
    valuesOf message = [] := by
  cases message with
  | none => rfl
  | some m => exact plain m rfl

theorem valuesOf_map {γ : Type} {f : γ → Message Decoded} (plain : ∀ a, (f a).values = []) (read : Option γ) :
    valuesOf (read.map f) = [] := by
  cases read with
  | none => rfl
  | some a => exact plain a

theorem valuesOf_deserialize (buffer : Bytes) (h : RtmpHeader) :
    valuesOf (RtmpProtocol.deserialize (fun _ _ => none) buffer h) = [] := by
  unfold RtmpProtocol.deserialize
  split
  · exact valuesOf_map (fun _ => rfl) _
  · exact valuesOf_map (fun _ => rfl) _
  · exact valuesOf_map (fun _ => rfl) _
  · refine valuesOf_plain fun message got => ?_
    unfold deserializePing at got
    split at got
    · obtain ⟨type, _, got⟩ := Option.bind_eq_some_iff.mp got
      obtain ⟨values, _, got⟩ := Option.bind_eq_some_iff.mp got
      cases got
      rfl
    · cases got
  · exact valuesOf_map (fun _ => rfl) _
  · refine valuesOf_plain fun message got => ?_
    obtain ⟨size, _, got⟩ := Option.bind_eq_some_iff.mp got
    obtain ⟨limit, _, got⟩ := Option.bind_eq_some_iff.mp got
    cases got
    rfl
  · exact valuesOf_map (fun _ => rfl) _
  · exact valuesOf_map (fun _ => rfl) _
  all_goals rfl

theorem decodes_deserializeWith {aggregate : Decode (Option (Message Decoded))} (decodes : Decodes aggregate valuesOf)
    (h : RtmpHeader) : Decodes (deserializeWith aggregate h) valuesOf := by
  unfold deserializeWith
  split
  · exact decodes_notify.encoded
  · exact (decodes_notify.behindZero rfl).encoded
  · exact decodes_invoke.encoded
  · exact (decodes_invoke.behindZero rfl).encoded
  · exact decodes_sharedObject.encoded
  · exact decodes
  · exact decodes_input fun input => valuesOf_deserialize input h

theorem decodes_none : Decodes (return none) valuesOf := by
  refine ⟨fun _ _ _ _ within => within, fun s _ _ bounded t same => ?_⟩
  subst same
  exact Settled.refl bounded

mutual
theorem values_adoptDecoded (streamId channelId : UInt32) (value : Decoded) :
    (value.adoptStream streamId channelId).values = value.values := by
  cases value with
  | aggregate messages =>
    rw [Decoded.adoptStream, Decoded.values, Decoded.values]
    exact valuesOfAll_adoptAll streamId channelId messages
  | _ => rfl

theorem valuesOfAll_adoptAll (streamId channelId : UInt32) (messages : List (Stamp × Message Decoded)) :
    valuesOfAll (adoptAll streamId channelId messages) = valuesOfAll messages := by
  match messages with
  | [] => rfl
  | (stamp, message) :: rest =>
    rw [adoptAll, valuesOfAll, valuesOfAll, values_adoptMessage streamId channelId message,
      valuesOfAll_adoptAll streamId channelId rest]

theorem values_adoptMessage (streamId channelId : UInt32) (message : Message Decoded) :
    (message.adoptStream streamId channelId).values = message.values := by
  cases message with
  | encoded value =>
    rw [Message.adoptStream, Message.values, Message.values]
    exact values_adoptDecoded streamId channelId value
  | _ => rfl
end

theorem Decodes.adopted {m : Decode (Option (Message Decoded))} (decodes : Decodes m valuesOf)
    (streamId channelId : UInt32) :
    Decodes (do return (← m).map (Message.adoptStream streamId channelId)) valuesOf := by
  have same (message : Option (Message Decoded)) :
      valuesOf (message.map (Message.adoptStream streamId channelId)) = valuesOf message := by
    cases message with
    | none => rfl
    | some message => exact values_adoptMessage streamId channelId message
  refine ⟨fun base c top => ?_, fun s outside top bounded => ?_⟩
  · refine (decodes.inner base c top).bind fun message t within => ?_
    show Within base (c + placed (valuesOf (message.map _)).length) t
    rwa [same]
  · refine (decodes.outer s outside top bounded).bind fun message t settled => ?_
    show Settled s (valuesOf (message.map _)).length t
    rwa [same]

theorem decodes_deserializeAt (levels : Nat) (h : RtmpHeader) : Decodes (deserializeAt levels h) valuesOf := by
  induction levels generalizing h with
  | zero => exact decodes_deserializeWith decodes_none h
  | succ levels ih =>
    have aggregate := decodes_aggregate (fun h => (ih h).inner) h.timestamp
    exact decodes_deserializeWith (aggregate.encoded.adopted h.streamId h.channelId) h

/-- On a thread without scopes, a budget left by others is not seen. -/
def Afresh (m : Decode α) : Prop :=
  ∀ s b, s.scopes = 0 → (m { s with budget := b }).1 = (m s).1 ∧ (m { s with budget := b }).2.heap = (m s).2.heap

theorem afresh_readScope (m : Decode α) : Afresh (readScope m) := by
  intro s b outside
  have entered (t : Decoder) :
    readScope m t = (fun r : Except AmfError α × Decoder => (r.1, { r.2 with scopes := r.2.scopes - 1 }))
      (m { t with budget := if t.scopes = 0 then {} else t.budget, scopes := t.scopes + 1 }) := rfl
  rw [entered, entered]
  simp only [if_pos outside]
  exact ⟨trivial, trivial⟩

theorem encoded_eq (body : Decode Decoded) (s : Decoder) : encoded body s = (match (body s).1 with
      | .ok value => .ok (some (.encoded value))
      | .error e => if e = .bufferEof then .error e else .ok none, (body s).2) := by
  rcases run : body s with ⟨result, t⟩
  cases result with
  | ok value => exact tryCatch_ok (bind_ok run)
  | error e =>
    refine (tryCatch_error (bind_error run)).trans ?_
    by_cases excess : e = .bufferEof
    · simp only [if_pos excess]
      rfl
    · simp only [if_neg excess]
      rfl

theorem Afresh.encoded (afresh : Afresh body) : Afresh (encoded body) := by
  intro s b outside
  obtain ⟨result, heap⟩ := afresh s b outside
  rw [encoded_eq, encoded_eq, result]
  exact ⟨rfl, heap⟩

theorem Afresh.behindZero (afresh : Afresh body) (empty : Decoded) : Afresh (behindZero empty body) := by
  intro s b outside
  rw [behindZero_eq, behindZero_eq]
  show (match s.input with
      | [] => (.ok empty, { s with budget := b })
      | type :: rest =>
        if type = 0 then body { s with input := rest, budget := b } else (.ok empty, { s with budget := b }) :
        Except AmfError Decoded × Decoder).1 = _ ∧
    (match s.input with
      | [] => (.ok empty, { s with budget := b })
      | type :: rest =>
        if type = 0 then body { s with input := rest, budget := b } else (.ok empty, { s with budget := b }) :
        Except AmfError Decoded × Decoder).2.heap = _
  cases s.input with
  | nil => exact ⟨rfl, rfl⟩
  | cons type rest =>
    by_cases zero : type = 0
    · simp only [if_pos zero]
      exact afresh { s with input := rest } b outside
    · simp only [if_neg zero, and_self]

theorem Afresh.map {m : Decode α} (afresh : Afresh m) {β : Type} (f : α → β) : Afresh (do return f (← m)) := by
  intro s b outside
  obtain ⟨result, heap⟩ := afresh s b outside
  rw [map_apply, map_apply, result]
  exact ⟨rfl, heap⟩

theorem afresh_deserializeWith {aggregate : Decode (Option (Message Decoded))} (afresh : Afresh aggregate)
    (h : RtmpHeader) :
    Afresh (deserializeWith aggregate h) := by
  unfold deserializeWith
  split
  · exact (afresh_readScope _).encoded
  · exact ((afresh_readScope _).behindZero _).encoded
  · exact (afresh_readScope _).encoded
  · exact ((afresh_readScope _).behindZero _).encoded
  · exact (afresh_readScope _).encoded
  · exact afresh
  · exact fun _ _ _ => ⟨rfl, rfl⟩

theorem afresh_deserializeAt (levels : Nat) (h : RtmpHeader) : Afresh (deserializeAt levels h) := by
  cases levels with
  | zero => exact afresh_deserializeWith (fun _ _ _ => ⟨rfl, rfl⟩) h
  | succ levels => exact afresh_deserializeWith ((afresh_readScope _).encoded.map _) h

end
end Fms.RtmpProtocol

namespace Fms
open ByteWire Fallible Amf

/-- What a thread keeps between messages: `s_read_scopes` and `s_scope_budget`. -/
structure Thread where
  scopes : Nat := 0
  scopeBudget : ReadBudget := {}

namespace Thread

/-- `deserialize` of one body by a new `rtmp_protocol`: the result, and where it leaves the
decoder and the heap. -/
def decode (th : Thread) (h : RtmpHeader) (body : Bytes) : Except AmfError (Option (Message Decoded)) × Decoder :=
  RtmpProtocol.deserializeAt RtmpProtocol.eMaxAggregateDepth h
    { input := body, budget := th.scopeBudget, scopes := th.scopes }

def after (th : Thread) (message : RtmpHeader × Bytes) : Thread :=
  let s := (th.decode message.1 message.2).2
  { scopes := s.scopes, scopeBudget := s.budget }

def handedOut : Except AmfError (Option (Message Decoded)) → List Nat
  | .ok message => RtmpProtocol.valuesOf message
  | .error _ => []

/-- Between messages. -/
structure Idle (th : Thread) : Prop where
  scopes : th.scopes = 0
  bounded : th.scopeBudget.stringBytes ≤ ReadBudget.eMaxStringBytes

theorem Idle.settled (idle : Idle th) (h : RtmpHeader) (body : Bytes) :
    RtmpProtocol.Settled { input := body, budget := th.scopeBudget, scopes := th.scopes }
      (handedOut (th.decode h body).1).length (th.decode h body).2 := by
  have ensured := (RtmpProtocol.decodes_deserializeAt RtmpProtocol.eMaxAggregateDepth h).outer
    { input := body, budget := th.scopeBudget, scopes := th.scopes } idle.scopes rfl idle.bounded rfl
  rcases run : th.decode h body with ⟨result, t⟩
  rw [show RtmpProtocol.deserializeAt RtmpProtocol.eMaxAggregateDepth h _ = (result, t) from run] at ensured
  cases result with
  | ok message => exact ensured
  | error e => exact ensured

theorem Idle.after (idle : Idle th) (message : RtmpHeader × Bytes) : Idle (th.after message) := by
  have settled := idle.settled message.1 message.2
  exact ⟨settled.scopes.trans idle.scopes, settled.bounded⟩

theorem Idle.history (idle : Idle th) (history : List (RtmpHeader × Bytes)) :
    Idle (history.foldl Thread.after th) := by
  induction history generalizing th with
  | nil => exact idle
  | cons message history ih => exact ih (idle.after message)

/-- After any messages, the next one stores at most `eMaxNodes` objects in at most `eMaxNodes`
places, those it hands out included, with at most `eMaxStringBytes` of AMF3 strings and keys.
Whether it ends in a message, a refusal or an over-read, the depth and the scopes are as before,
and its result and its objects are those of a thread that has decoded nothing. -/
theorem decode_budget_reset (history : List (RtmpHeader × Bytes)) (h : RtmpHeader) (body : Bytes) :
    let th := history.foldl Thread.after {}
    let result := (th.decode h body).1
    let s := (th.decode h body).2
    (s.heap.length ≤ ReadBudget.eMaxNodes ∧ places s.heap + (handedOut result).length ≤ ReadBudget.eMaxNodes) ∧
    (stringBytes s.heap ≤ s.budget.stringBytes ∧ s.budget.stringBytes ≤ ReadBudget.eMaxStringBytes) ∧
    (s.depth = 0 ∧ s.scopes = 0 ∧ th.scopes = 0) ∧
    result = (({} : Thread).decode h body).1 ∧ s.heap = (({} : Thread).decode h body).2.heap := by
  intro th result s
  have idle : Idle th := Idle.history ⟨rfl, Nat.zero_le _⟩ history
  have settled := idle.settled h body
  have objects : s.heap.length ≤ 0 + ReadBudget.eMaxNodes := settled.objects
  have placed : places s.heap + (handedOut result).length ≤ 0 + ReadBudget.eMaxNodes := settled.places
  have strings : stringBytes s.heap ≤ 0 + s.budget.stringBytes := settled.strings
  rw [Nat.zero_add] at objects placed strings
  refine ⟨⟨objects, placed⟩, ⟨strings, settled.bounded⟩, ⟨settled.depth, ?_, idle.scopes⟩, ?_⟩
  · exact settled.scopes.trans idle.scopes
  · have scopes : th.scopes = 0 := idle.scopes
    have fresh :=
      RtmpProtocol.afresh_deserializeAt RtmpProtocol.eMaxAggregateDepth h { input := body } th.scopeBudget rfl
    show (RtmpProtocol.deserializeAt _ h { input := body, budget := th.scopeBudget, scopes := th.scopes }).1 = _ ∧
      (RtmpProtocol.deserializeAt _ h { input := body, budget := th.scopeBudget, scopes := th.scopes }).2.heap = _
    rw [scopes]
    exact fresh

end Thread
end Fms
