import Fms.Rtmpt.Sequencing
import Mathlib.Algebra.Order.BigOperators.Group.List

namespace Fms
open ByteWire

namespace RtmptSessionData

/-- The count of stashed bytes is right. -/
def Weighed (sd : RtmptSessionData) : Prop :=
  sd.oooBytes = (sd.outOfOrderData.entries.map fun entry => entry.2.length).sum

variable {sd last : RtmptSessionData} {bodies : List Bytes} {seq : UInt32}

theorem Drains.weighed (run : Drains sd bodies last) (weighed : sd.Weighed) : last.Weighed := by
  induction run with
  | done => exact weighed
  | next found _ ih =>
    refine ih ?_
    have front := ((Dict.entries_perm found).map fun entry => entry.2.length).sum_eq
    rw [Weighed, front, List.map_cons, List.sum_cons] at weighed
    rw [Weighed, weighed, Nat.add_sub_cancel_left]

/-- A request runs the loop, changes nothing, or leaves its body in the stash. -/
theorem sequenced_cases (sd : RtmptSessionData) (seq : UInt32) (request : RtmptRequest) :
    (∃ bodies, Drains { sd with sequence := sd.sequence + 1 } bodies (sd.sequenced seq request)) ∨
      sd.sequenced seq request = sd ∨ ∃ body, request = .send body ∧ sd.sequence ≠ seq ∧ sd.Stashes seq body ∧
        sd.sequenced seq request =
          { sd with outOfOrderData := sd.outOfOrderData.insert seq body, oooBytes := sd.oooBytes + body.length } := by
  by_cases expected : sd.sequence = seq
  · have advanced (drained : Bytes) : ∃ bodies,
        Drains { sd with sequence := sd.sequence + 1 } bodies (sd.advanceSequence seq drained).2.1 := by
      obtain ⟨bodies, run, _⟩ := @drains_drain _ { sd with sequence := sd.sequence + 1 } le_rfl drained
      rw [advanceSequence, if_neg (not_not.mpr expected)]
      exact ⟨bodies, run⟩
    refine .inl ?_
    cases request with
    | idle => exact advanced []
    | send body =>
      rw [sequenced, if_pos expected]
      exact advanced body
  · cases request with
    | idle =>
      rw [sequenced, advanceSequence, if_pos expected]
      exact .inr (.inl rfl)
    | send body =>
      rw [sequenced, if_neg expected, stash]
      split
      · rename_i room
        exact .inr (.inr ⟨body, rfl, expected, room, rfl⟩)
      · exact .inr (.inl rfl)

theorem Weighed.sequenced (weighed : sd.Weighed) (seq : UInt32)
    (request : RtmptRequest) : (sd.sequenced seq request).Weighed := by
  rcases sequenced_cases sd seq request with ⟨bodies, run⟩ | same | ⟨body, _, _, room, same⟩
  · exact run.weighed weighed
  · rwa [same]
  · rw [same, Weighed, AList.entries_insert_of_notMem room.2.2, List.map_cons, List.sum_cons, Nat.add_comm, weighed]

end RtmptSessionData

namespace RtmptTunnel
open RtmptSessionData

/-- A request on its way through `http_connection::handle_request`, from the client's own address. -/
def post (answer : UInt32 → RtmptAnswer) (t : RtmptTunnel) (r : UInt32 × RtmptRequest) : RtmptTunnel :=
  let (valid, t) := t.validate t.data.address r.1
  if valid then t.handleRequest r.1 r.2 (answer r.1) else t

def numbers (handled : List (UInt32 × RtmptRequest)) : List Nat := handled.map fun r => r.1.toNat

def sends (handled : List (UInt32 × RtmptRequest)) : List (UInt32 × Bytes) :=
  handled.filterMap fun
    | (seq, .send body) => some (seq, body)
    | (_, .idle) => none

/-- The bodies that have to wait while `p` is the first number that has not been handled. -/
def ahead (handled : List (UInt32 × RtmptRequest)) (p : Nat) : List (UInt32 × Bytes) :=
  (sends handled).filter fun r => p < r.1.toNat

/-- The bodies that have to wait fit the stash. -/
def Fits (handled : List (UInt32 × RtmptRequest)) : Prop :=
  ∀ p, (∀ k < p, k ∈ numbers handled) → p ∉ numbers handled →
    (ahead handled p).length ≤ eMaxOutOfOrder ∧ ((ahead handled p).map fun r => r.2.length).sum ≤ eMaxOutOfOrderBytes

/-- No idle request is handled before one with a lower number. -/
def IdleInTurn (requests : List (UInt32 × RtmptRequest)) : Prop :=
  ∀ before seq after, requests = before ++ (seq, .idle) :: after → ∀ k < seq.toNat, k ∈ numbers before

/-- The tunnel is open. -/
structure Alive (t : RtmptTunnel) : Prop where
  listed : t.listed = true
  opened : t.session.closed = false
  calm : t.session.closeRequested = false

/-- The session is open whenever a request comes: none before has made it fail or close. -/
def Attended (answer : UInt32 → RtmptAnswer) (address : Nat) (requests : List (UInt32 × RtmptRequest)) : Prop :=
  ∀ before r after, requests = before ++ r :: after → (before.foldl (post answer) { data := { address } }).Alive

/-- Everything below `p` has been handled and handed over, and nothing at `p`; what is above it is stashed. -/
structure Caught (handled : List (UInt32 × RtmptRequest)) (p : Nat) (t : RtmptTunnel) : Prop where
  holds : t.data.Holds p (firstBody (sends handled))
  weighed : t.data.Weighed
  below : ∀ k < p, k ∈ numbers handled
  next : p ∉ numbers handled
  idle : ∀ seq, (seq, .idle) ∈ handled → seq.toNat < p
  received : t.session.received = (List.range p).flatMap fun k => (firstBody (sends handled) k).getD []

variable {t : RtmptTunnel} {answer : UInt32 → RtmptAnswer} {seq : UInt32} {request : RtmptRequest} {p k : Nat}
  {handled : List (UInt32 × RtmptRequest)}

theorem mem_numbers_append : k ∈ numbers (handled ++ [(seq, request)]) ↔ k ∈ numbers handled ∨ k = seq.toNat := by
  simp [numbers]

theorem nodup_numbers (distinct : (numbers (handled ++ [(seq, request)])).Nodup) :
    (numbers handled).Nodup ∧ seq.toNat ∉ numbers handled := by
  have both : (numbers handled ++ [seq.toNat]).Nodup := by simpa [numbers] using distinct
  obtain ⟨first, _, apart⟩ := List.nodup_append.mp both
  exact ⟨first, fun there => apart _ there _ (List.mem_singleton_self _) rfl⟩

theorem sends_sublist (handled : List (UInt32 × RtmptRequest)) :
    ((sends handled).map fun r => r.1.toNat).Sublist (numbers handled) := by
  induction handled with
  | nil => exact .slnil
  | cons r rest ih =>
    obtain ⟨seq, request⟩ := r
    cases request with
    | send body => exact ih.cons_cons _
    | idle => exact ih.cons _

theorem isSome_firstBody (kept : List (UInt32 × Bytes)) : (firstBody kept k).isSome ↔ k ∈ kept.map fun r =>
  r.1.toNat := by
  unfold firstBody
  rw [Option.isSome_map, List.find?_isSome, List.mem_map]
  simp

/-- With the numbers distinct, the first body under a number is the only one. -/
theorem firstBody_eq_some {kept : List (UInt32 × Bytes)} (distinct : (kept.map fun r => r.1.toNat).Nodup)
    {body : Bytes} :
    firstBody kept seq.toNat = some body ↔ (seq, body) ∈ kept := by
  unfold firstBody
  rw [Option.map_eq_some_iff]
  constructor
  · rintro ⟨⟨number, _⟩, found, rfl⟩
    have same : number = seq := UInt32.toNat_inj.mp (by simpa using List.find?_some found)
    exact same ▸ List.mem_of_find?_eq_some found
  · intro member
    cases found : kept.find? fun r => decide (r.1.toNat = seq.toNat) with
    | none => exact absurd (decide_eq_true rfl) (List.find?_eq_none.mp found _ member)
    | some r =>
      have same : r.1.toNat = seq.toNat := by simpa using List.find?_some found
      have only := List.inj_on_of_nodup_map distinct (List.mem_of_find?_eq_some found) member same
      exact ⟨r, rfl, by rw [only]⟩

theorem Caught.stash_perm (caught : Caught handled p t) (distinct : (numbers handled).Nodup) :
    (t.data.outOfOrderData.entries.map fun entry => (entry.1, entry.2)).Perm (ahead handled p) := by
  have separate : ((sends handled).map fun r => r.1.toNat).Nodup := (sends_sublist handled).nodup distinct
  refine (List.perm_ext_iff_of_nodup ?_ ?_).mpr fun r => ?_
  · have keys : (t.data.outOfOrderData.entries.map Sigma.fst).Nodup := t.data.outOfOrderData.nodupKeys
    exact List.Nodup.of_map Prod.fst (by simpa [Function.comp_def] using keys)
  · exact (List.Nodup.of_map _ separate).filter _
  · obtain ⟨number, body⟩ := r
    have entry : (number, body) ∈ t.data.outOfOrderData.entries.map (fun entry => (entry.1, entry.2)) ↔
        t.data.outOfOrderData.lookup number = some body := by
      rw [← Option.mem_def, AList.mem_lookup_iff]
      simp
    have apart (there : (number, body) ∈ sends handled) : p ≠ number.toNat := by
      rintro rfl
      exact caught.next ((sends_sublist handled).subset (List.mem_map_of_mem there))
    rw [entry, caught.holds.contents, ahead, List.mem_filter, ← firstBody_eq_some separate, decide_eq_true_eq]
    constructor
    · intro found
      split at found
      · have there := apart ((firstBody_eq_some separate).mp found)
        exact ⟨found, show p < number.toNat by omega⟩
      · cases found
    · rintro ⟨found, above⟩
      rwa [if_pos above.le]

section
variable (caught : Caught handled p t) (new : seq.toNat ∉ numbers handled)
include caught new

theorem Caught.le_number : p ≤ seq.toNat := by
  by_contra less
  exact new (caught.below _ (Nat.not_le.mp less))

theorem Caught.sequence_toNat : t.data.sequence.toNat = p := by
  have below : p < 2 ^ 32 := (caught.le_number new).trans_lt seq.toNat_lt
  rw [caught.holds.sequence, UInt32.toNat_ofNat_of_lt' below]

theorem Caught.post_eq (alive : t.Alive) :
    t.post answer (seq, request) = t.handleRequest seq request (answer seq) := by
  have place := caught.sequence_toNat new
  have inTime : ¬t.data.sequence > seq := by
    have notBelow := caught.le_number new
    rw [gt_iff_lt, UInt32.lt_iff_toNat_lt]
    omega
  simp [post, validate, alive.listed, alive.opened, inTime]

theorem Caught.expected (alive : t.Alive) (now : seq.toNat = p) :
    ∃ q, Caught (handled ++ [(seq, request)]) q (t.post answer (seq, request)) := by
  have below := seq.toNat_lt
  have isNext : t.data.sequence = seq := UInt32.toNat_inj.mp ((caught.sequence_toNat new).trans now.symm)
  have missing : firstBody (sends handled) p = none := by
    rw [← Option.not_isSome_iff_eq_none, isSome_firstBody]
    exact fun there => caught.next ((sends_sublist handled).subset there)
  obtain ⟨q, further, after, stop, taken, released⟩ :=
    caught.holds.sequenced_expected (by omega) missing isNext request
  have kept : sends (handled ++ [(seq, request)]) = sends handled ++ t.data.takes seq request := by
    cases request with
    | idle => simp [sends, takes]
    | send body => simp [sends, takes, isNext]
  rw [← kept] at after stop taken released
  obtain ⟨data, received⟩ := handleRequest_eq seq request (answer seq) alive.listed alive.calm
  rw [caught.post_eq new alive]
  have idle : ∀ number, (number, .idle) ∈ handled ++ [(seq, request)] → number.toNat < q := by
    intro number member
    rcases List.mem_append.mp member with old | last
    · exact (caught.idle number old).trans further
    · cases List.mem_singleton.mp last
      omega
  refine ⟨q, data ▸ after, data ▸ caught.weighed.sequenced seq request,
    fun k less => ?_, fun there => ?_, idle, ?_⟩
  · rw [mem_numbers_append]
    rcases lt_trichotomy k p with low | same | high
    · exact .inl (caught.below k low)
    · exact .inr (same.trans now.symm)
    · exact mem_numbers_append.mp ((sends_sublist _).subset ((isSome_firstBody _).mp (taken k high less)))
  · obtain ⟨⟨number, request⟩, member, rfl⟩ := List.mem_map.mp there
    cases request with
    | idle => exact absurd (idle number member) (Nat.lt_irrefl _)
    | send body =>
      have body : (number, body) ∈ sends (handled ++ [(seq, _)]) := List.mem_filterMap.mpr ⟨_, member, rfl⟩
      have some := (isSome_firstBody _).mpr (List.mem_map_of_mem body)
      rw [stop number.toNat_lt] at some
      cases some
  · rw [received, caught.received, released, range_split further.le, List.flatMap_append, kept,
      flatMap_takes (by omega)]

theorem Caught.early {body : Bytes} (distinct : (numbers handled).Nodup)
    (fits : Fits (handled ++ [(seq, .send body)])) (alive : t.Alive) (later : seq.toNat ≠ p) :
    Caught (handled ++ [(seq, .send body)]) p (t.post answer (seq, .send body)) := by
  have notBelow := caught.le_number new
  have off : t.data.sequence ≠ seq := fun same => later (same ▸ caught.sequence_toNat new)
  have next : p ∉ numbers (handled ++ [(seq, .send body)]) := by
    rw [mem_numbers_append, not_or]
    exact ⟨caught.next, Ne.symm later⟩
  have waits : ahead (handled ++ [(seq, .send body)]) p = ahead handled p ++ [(seq, body)] := by
    have above : p < seq.toNat := by omega
    simp [ahead, sends, above]
  obtain ⟨few, light⟩ := fits p (fun k less => mem_numbers_append.mpr (.inl (caught.below k less))) next
  have stashed := caught.stash_perm distinct
  have room : t.data.Stashes seq body := by
    rw [waits, List.length_append] at few
    rw [waits, List.map_append, List.sum_append] at light
    have size := stashed.length_eq
    have weight := (stashed.map fun r => r.2.length).sum_eq
    rw [List.map_map] at weight
    refine ⟨?_, ?_, AList.lookup_eq_none.mp ?_⟩
    · rw [List.length_map] at size
      show t.data.outOfOrderData.entries.length < eMaxOutOfOrder
      rw [size]
      exact few
    · rw [caught.weighed]
      exact weight ▸ light
    · rw [caught.holds.contents, if_pos notBelow, ← Option.not_isSome_iff_eq_none, isSome_firstBody]
      exact fun there => new ((sends_sublist handled).subset there)
  obtain ⟨after, released⟩ := caught.holds.sequenced_ahead notBelow off (.send body)
  have kept : sends (handled ++ [(seq, .send body)]) = sends handled ++ t.data.takes seq (.send body) := by
    simp [sends, takes, room]
  obtain ⟨data, received⟩ := handleRequest_eq seq (.send body) (answer seq) alive.listed alive.calm
  rw [caught.post_eq new alive]
  refine ⟨?_, data ▸ caught.weighed.sequenced seq _,
    fun k less => mem_numbers_append.mpr (.inl (caught.below k less)), next, fun number member => ?_, ?_⟩
  · rw [data, kept]
    exact after
  · rcases List.mem_append.mp member with old | last
    · exact caught.idle number old
    · cases List.mem_singleton.mp last
  · rw [received, caught.received, released, List.append_nil, kept, flatMap_takes notBelow]

end

/-- Every number is caught up with in the end. -/
theorem exists_caught (address : Nat) (attended : Attended answer address handled)
    (distinct : (numbers handled).Nodup) (fits : ∀ earlier, earlier <+: handled → Fits earlier)
    (turn : IdleInTurn handled) :
    ∃ q, Caught handled q (handled.foldl (post answer) { data := { address } }) := by
  induction handled using List.reverseRecOn with
  | nil =>
    refine ⟨0, ⟨rfl, Nat.zero_le _, fun k => ?_⟩, rfl, nofun, nofun, nofun, rfl⟩
    split <;> rfl
  | append_singleton handled last ih =>
    obtain ⟨seq, request⟩ := last
    have parts := nodup_numbers distinct
    have alive := attended handled (seq, request) [] rfl
    obtain ⟨p, caught⟩ := ih
      (fun before r after split => attended before r (after ++ [(seq, request)]) (by rw [split]; simp)) parts.1
      (fun earlier head => fits earlier (head.trans (List.prefix_append ..)))
      fun before number after split => turn before number (after ++ [(seq, request)]) (by rw [split]; simp)
    rw [List.foldl_append, List.foldl_cons, List.foldl_nil]
    by_cases now : seq.toNat = p
    · exact caught.expected parts.2 alive now
    · cases request with
      | send body => exact ⟨p, caught.early parts.2 parts.1 (fits _ List.prefix_rfl) alive now⟩
      | idle =>
        have notBelow := caught.le_number parts.2
        exact absurd (turn handled seq [] rfl p (by omega)) caught.next

/-- Where every request is attended and no idle one is early, nothing is left out. -/
theorem Caught.complete {n q : Nat} (caught : Caught handled q t)
    (numbered : (numbers handled).Perm (List.range (n + 1))) :
    q = n + 1 ∧ t.data.outOfOrderData = ∅ := by
  have member (k : Nat) : k ∈ numbers handled ↔ k < n + 1 := by rw [numbered.mem_iff, List.mem_range]
  have beyond := (member q).not.mp caught.next
  have all : q = n + 1 := by
    by_contra differs
    have within := (member (n + 1)).mp (caught.below (n + 1) (by omega))
    omega
  refine ⟨all, ?_⟩
  have none : ahead handled q = [] := by
    refine List.filter_eq_nil_iff.mpr fun r inside => ?_
    have there := (member _).mp ((sends_sublist handled).subset (List.mem_map_of_mem inside))
    simpa using Nat.le_of_lt_succ (there.trans_le (by omega))
  have empty := caught.stash_perm (numbered.nodup_iff.mpr List.nodup_range)
  rw [none] at empty
  exact AList.ext (List.map_eq_nil_iff.mp empty.eq_nil)

section
variable (answer) (address : Nat)

/-- The request with this number found the session open, and was not an idle one that came early. -/
def Served (requests : List (UInt32 × RtmptRequest)) (k : Nat) : Prop :=
  ∃ before r after, requests = before ++ r :: after ∧ r.1.toNat = k ∧
    (before.foldl (post answer) { data := { address } }).Alive ∧ (r.2 = .idle → ∀ j < k, j ∈ numbers before)

/-- However the session behaves: the counter passes only numbers that were served. -/
structure Tracked (handled : List (UInt32 × RtmptRequest)) (kept : List (UInt32 × Bytes)) (p : Nat)
    (t : RtmptTunnel) :
    Prop where
  holds : t.data.Holds p (firstBody kept)
  missing : p < 2 ^ 32 → firstBody kept p = none
  calm : t.session.closeRequested = false
  below : ∀ k < p, Served answer address handled k
  stashed : ∀ k, (firstBody kept k).isSome → Served answer address handled k

end

section
variable {address : Nat} {kept : List (UInt32 × Bytes)}

theorem Served.append (served : Served answer address handled k) (r : UInt32 × RtmptRequest) :
    Served answer address (handled ++ [r]) k := by
  obtain ⟨before, first, after, split, number, open_, turn⟩ := served
  exact ⟨before, first, after ++ [r], by rw [split]; simp, number, open_, turn⟩

theorem Served.mem (served : Served answer address handled k) : k ∈ numbers handled := by
  obtain ⟨before, r, after, rfl, rfl, _⟩ := served
  exact List.mem_map_of_mem (by simp)

theorem calm_serve {ticket : RtmptTicket} {reply : RtmptAnswer} (calm : t.session.closeRequested = false) :
    (t.serve ticket reply).session.closeRequested = false := by
  have removed {t : RtmptTunnel} (calm : t.session.closeRequested = false) :
      t.removeSession.session.closeRequested = false := by
    unfold removeSession
    split <;> exact calm
  unfold serve
  rw [calm, if_neg Bool.false_ne_true]
  dsimp only
  split
  · split
    · exact removed calm
    · exact calm
  · split
    · exact removed calm
    · exact calm

theorem validate_eq (t : RtmptTunnel) (remote : Nat) (seq : UInt32) :
    (t.validate remote seq).2.data = t.data ∧ (t.validate remote seq).2.session = t.session ∧
      ((t.validate remote seq).1 = true → (t.validate remote seq).2 = t) := by
  unfold validate
  split
  · exact ⟨rfl, rfl, nofun⟩
  · split
    · exact ⟨rfl, rfl, nofun⟩
    · split
      · exact ⟨rfl, rfl, nofun⟩
      · exact ⟨rfl, rfl, fun _ => rfl⟩

/-- A request that is attended: in its turn it moves the counter on, past what is stashed, and an early one
with a body may be stashed. -/
theorem Tracked.attended (tracked : Tracked answer address handled kept p t) (new : seq.toNat ∉ numbers handled)
    (reached : t = handled.foldl (post answer) { data := { address } }) (alive : t.Alive) :
    ∃ kept q, Tracked answer address (handled ++ [(seq, request)]) kept q
      (t.handleRequest seq request (answer seq)) := by
  have notBelow : p ≤ seq.toNat := by
    by_contra less
    exact new (tracked.below _ (Nat.not_le.mp less)).mem
  have below : p < 2 ^ 32 := notBelow.trans_lt seq.toNat_lt
  have position : t.data.sequence.toNat = p := by rw [tracked.holds.sequence, UInt32.toNat_ofNat_of_lt' below]
  have now (turn : request = .idle → ∀ j < seq.toNat, j ∈ numbers handled) :
      Served answer address (handled ++ [(seq, request)]) seq.toNat :=
    ⟨handled, (seq, request), [], rfl, rfl, reached ▸ alive, turn⟩
  obtain ⟨ticket, sequences, _⟩ := sequenceRequest_eq seq request alive.listed
  have calm : (t.handleRequest seq request (answer seq)).session.closeRequested = false := by
    rw [handleRequest, sequences]
    exact calm_serve alive.calm
  have data := (handleRequest_eq seq request (answer seq) alive.listed alive.calm).1
  by_cases expected : t.data.sequence = seq
  · have same : seq.toNat = p := by rw [← expected, position]
    have served := now fun _ j less => (tracked.below j (same ▸ less)).mem
    obtain ⟨q, further, after, stop, taken, _⟩ :=
      tracked.holds.sequenced_expected below (tracked.missing below) expected request
    have stashed (k : Nat) (found : (firstBody (kept ++ t.data.takes seq request) k).isSome) :
        Served answer address (handled ++ [(seq, request)]) k := by
      by_cases here : k = seq.toNat
      · exact here ▸ served
      · rw [firstBody_takes here] at found
        exact (tracked.stashed k found).append _
    refine ⟨_, q, data ▸ after, stop, calm, fun k less => ?_, stashed⟩
    rcases lt_trichotomy k p with low | at_ | high
    · exact (tracked.below k low).append _
    · exact at_.trans same.symm ▸ served
    · exact stashed k (taken k high less)
  · have other : p ≠ seq.toNat := fun same => expected (UInt32.toNat_inj.mp (position.trans same))
    refine ⟨_, p, data ▸ (tracked.holds.sequenced_ahead notBelow expected request).1, fun below => ?_, calm,
      fun k less => (tracked.below k less).append _, fun k found => ?_⟩
    · rw [firstBody_takes other]
      exact tracked.missing below
    · by_cases here : k = seq.toNat
      · cases request with
        | send body => exact here ▸ now nofun
        | idle =>
          rw [takes, List.append_nil] at found
          exact (tracked.stashed k found).append _
      · rw [firstBody_takes here] at found
        exact (tracked.stashed k found).append _

theorem exists_tracked (distinct : (numbers handled).Nodup) :
    ∃ kept p, Tracked answer address handled kept p (handled.foldl (post answer) { data := { address } }) := by
  induction handled using List.reverseRecOn with
  | nil =>
    refine ⟨[], 0, ⟨rfl, Nat.zero_le _, fun k => ?_⟩, fun _ => rfl, rfl, nofun, nofun⟩
    split <;> rfl
  | append_singleton handled last ih =>
    obtain ⟨seq, request⟩ := last
    obtain ⟨earlier, new⟩ := nodup_numbers distinct
    obtain ⟨kept, p, tracked⟩ := ih earlier
    rw [List.foldl_append, List.foldl_cons, List.foldl_nil]
    generalize reached : handled.foldl (post answer) { data := { address } } = t at tracked
    obtain ⟨data, session, same⟩ := validate_eq t t.data.address seq
    unfold post
    dsimp only
    split
    · rename_i valid
      obtain ⟨listed, opened, _⟩ := validate_accepts valid
      rw [same valid]
      exact tracked.attended new reached.symm ⟨listed, opened, tracked.calm⟩
    · refine ⟨kept, p, ?_, tracked.missing, ?_, fun k less => (tracked.below k less).append _,
        fun k found => (tracked.stashed k found).append _⟩
      · rw [data]
        exact tracked.holds
      · rw [session]
        exact tracked.calm

end

/-- With the numbers distinct there is one way to come to a request. -/
theorem split_unique {requests before later before' later' : List (UInt32 × RtmptRequest)}
    {r r' : UInt32 × RtmptRequest} (distinct : (numbers requests).Nodup) (one : requests = before ++ r :: later)
    (two : requests = before' ++ r' :: later') (same : r.1.toNat = r'.1.toNat) : before = before' ∧ r = r' := by
  have place {b l : List (UInt32 × RtmptRequest)} {x : UInt32 × RtmptRequest} (parts : requests = b ++ x :: l) :
      (numbers requests)[b.length]? = some x.1.toNat := by
    simp [parts, numbers]
  have lengths : before.length = before'.length := by
    obtain ⟨inside, first⟩ := List.getElem?_eq_some_iff.mp (place one)
    obtain ⟨within, second⟩ := List.getElem?_eq_some_iff.mp (place two)
    exact (distinct.getElem_inj_iff).mp (first.trans (same.trans second.symm))
  obtain ⟨front, back⟩ := List.append_inj (one.symm.trans two) lengths
  exact ⟨front, (List.cons.inj back).1⟩

/-- A tunnel whose stash is large enough gets through all of its requests, whatever their order, if no idle
request is handled before one with a lower number and the session is open whenever a request comes; and as
far as the counter can say so, only then. -/
theorem requests_all_served {address n : Nat} {requests : List (UInt32 × RtmptRequest)}
    (numbered : (numbers requests).Perm (List.range (n + 1)))
    (fits : ∀ handled, handled <+: requests → Fits handled) :
    let t := requests.foldl (post answer) { data := { address } }
    (IdleInTurn requests ∧ Attended answer address requests →
      t.data.sequence = UInt32.ofNat (n + 1) ∧ t.data.outOfOrderData = ∅ ∧
        t.session.received = (List.range (n + 1)).flatMap fun k => (firstBody (sends requests) k).getD []) ∧
    (n + 1 < 2 ^ 32 → t.data.sequence = UInt32.ofNat (n + 1) →
      IdleInTurn requests ∧ Attended answer address requests) := by
  have distinct : (numbers requests).Nodup := numbered.nodup_iff.mpr List.nodup_range
  refine ⟨fun ⟨turn, attended⟩ => ?_, fun representable counted => ?_⟩
  · obtain ⟨q, caught⟩ := exists_caught address attended distinct fits turn
    obtain ⟨rfl, empty⟩ := caught.complete numbered
    exact ⟨caught.holds.sequence, empty, caught.received⟩
  · obtain ⟨kept, p, tracked⟩ : ∃ kept p, Tracked answer address requests kept p _ := exists_tracked distinct
    have within (k : Nat) (less : k < p) : k < n + 1 :=
      List.mem_range.mp (numbered.mem_iff.mp (tracked.below k less).mem)
    have notAbove : p ≤ n + 1 := by
      by_contra above
      exact absurd (within (n + 1) (by omega)) (Nat.lt_irrefl _)
    have all : p = n + 1 := by
      have same := congrArg UInt32.toNat (tracked.holds.sequence.symm.trans counted)
      rwa [UInt32.toNat_ofNat_of_lt' (notAbove.trans_lt representable),
        UInt32.toNat_ofNat_of_lt' representable] at same
    have served (before : List (UInt32 × RtmptRequest)) (r : UInt32 × RtmptRequest)
      (after : List (UInt32 × RtmptRequest))
        (split : requests = before ++ r :: after) :
        (before.foldl (post answer) { data := { address } }).Alive ∧
          (r.2 = .idle → ∀ j < r.1.toNat, j ∈ numbers before) := by
      have inside : r.1.toNat ∈ numbers requests := List.mem_map_of_mem (by simp [split])
      have passed : r.1.toNat < p := all ▸ List.mem_range.mp (numbered.mem_iff.mp inside)
      obtain ⟨before', r', after', other, number, alive, turn⟩ := tracked.below _ passed
      obtain ⟨rfl, rfl⟩ := split_unique distinct other split number
      exact ⟨alive, turn⟩
    exact ⟨fun before seq after split => (served before (seq, .idle) after split).2 rfl,
      fun before r after split => (served before r after split).1⟩

theorem fits_of_small {requests : List (UInt32 × RtmptRequest)} (few : (sends requests).length ≤ eMaxOutOfOrder)
    (light : ((sends requests).map fun r => r.2.length).sum ≤ eMaxOutOfOrderBytes) (earlier : handled <+: requests) :
    Fits handled := by
  intro p _ _
  have some : (ahead handled p).Sublist (sends requests) := List.filter_sublist.trans (earlier.sublist.filterMap _)
  exact ⟨some.length_le.trans few, ((some.map _).sum_le_sum fun _ _ => Nat.zero_le _).trans light⟩

/-- Two bodies and an idle request out of order. -/
def shuffled : List (UInt32 × RtmptRequest) := [(2, .send [3]), (0, .send [1]), (1, .idle)]

/-- A session that fails on what the last of them releases. -/
def failsLast (seq : UInt32) : RtmptAnswer := if seq = 1 then { result := some false } else {}

theorem requests_all_served_shuffled :
    let t := shuffled.foldl (post failsLast) { data := { address := 7 } }
    t.session.closed = true ∧ t.data.sequence = 3 ∧ t.data.outOfOrderData = ∅ ∧ t.session.received = [1, 3] := by
  have turn : IdleInTurn shuffled := by
    intro before seq after split
    obtain _ | ⟨first, _ | ⟨second, _ | ⟨third, rest⟩⟩⟩ := before
    · cases split
    · cases split
    · cases split
      decide
    · cases rest <;> cases split
  have attended : Attended failsLast 7 shuffled := by
    intro before r after split
    obtain _ | ⟨first, _ | ⟨second, _ | ⟨third, rest⟩⟩⟩ := before
    · exact ⟨rfl, rfl, rfl⟩
    · cases split
      exact ⟨rfl, rfl, rfl⟩
    · cases split
      exact ⟨rfl, rfl, rfl⟩
    · cases rest <;> cases split
  have fits (handled : List (UInt32 × RtmptRequest)) (earlier : handled <+: shuffled) : Fits handled :=
    fits_of_small (by decide) (by decide) earlier
  have numbered : (numbers shuffled).Perm (List.range (2 + 1)) := by decide
  exact ⟨by decide, (requests_all_served numbered fits).1 ⟨turn, attended⟩⟩

/-- An idle request that comes before its turn is forgotten, and what follows it is never taken. -/
theorem idle_wedges :
    let t := [(1, .idle), (0, .send [1]), (2, .send [3])].foldl (post fun _ => {}) { data := { address := 7 } }
    t.data.sequence = 1 ∧ t.data.outOfOrderData.lookup 2 = some [3] ∧ t.session.received = [1] := by
  decide

end RtmptTunnel
end Fms
