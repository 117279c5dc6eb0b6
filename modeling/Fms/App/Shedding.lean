import Fms.App.SendQueue

namespace Fms.AsyncQueue
variable {α : Type} {message : α → RtmpMessage}

section
variable (message)

def survivors (marked : List (α × Bool)) : List α := (marked.filter fun entry => !entry.2).map Prod.fst

def removedOf (pass : ShedClass) (marked : List (α × Bool)) : List α :=
  (marked.filter fun entry => entry.2 && (message entry.1).classify = pass).map Prod.fst

/-- What is removed, in the order in which it is: a pass walks from the front, and the inter frames have
the first one. -/
def removals (marked : List (α × Bool)) : List α :=
  removedOf message .interVideo marked ++ removedOf message .keyVideo marked

end

/-- What the marks of removed entries have to keep to. -/
structure Policy (message : α → RtmpMessage) (lowWater : UInt64) (marked : List (α × Bool)) : Prop where
  droppable : ∀ entry ∈ marked, entry.2 = true →
    (message entry.1).classify = .interVideo ∨ (message entry.1).classify = .keyVideo
  interFirst : (∃ entry ∈ marked, entry.2 = true ∧ (message entry.1).classify = .keyVideo) →
    ∀ entry ∈ marked, (message entry.1).classify = .interVideo → entry.2 = true
  oldest : marked.Pairwise fun earlier later =>
    (message earlier.1).classify = (message later.1).classify → later.2 = true → earlier.2 = true
  /-- Where an entry is removed, it and what goes after it still are too much with the survivors. -/
  needed : ∀ before entry after, removals message marked = before ++ entry :: after →
    lowWater.toNat < charge message (survivors marked) + charge message (entry :: after)
  enough : charge message (survivors marked) ≤ lowWater.toNat ∨ ∀ entry ∈ marked, entry.2 = false →
    (message entry.1).classify ≠ .interVideo ∧ (message entry.1).classify ≠ .keyVideo

variable {msgs : List α} {bytes lowWater : UInt64} {pass : ShedClass}

def isOf (message : α → RtmpMessage) (pass : ShedClass) (entry : α) : Bool := (message entry).classify = pass

theorem charge_filter (message : α → RtmpMessage) (p : α → Bool) (msgs : List α) :
    charge message msgs = charge message (msgs.filter fun entry => !p entry) + charge message (msgs.filter p) := by
  induction msgs with
  | nil => rfl
  | cons entry rest ih =>
    cases taken : p entry <;> simp only [List.filter_cons, taken, charge_cons, Bool.not_true, Bool.not_false, if_true,
      Bool.false_eq_true, if_false] <;> omega

/-- A pass takes what it looks for out of the front part of the queue, and leaves the rest alone. -/
structure Cut (message : α → RtmpMessage) (pass : ShedClass) (lowWater : UInt64) (front back : List α) (others : Nat)
    (after : List α × UInt64 × Nat) : Prop where
  msgs : after.1 = (front.filter fun entry => !isOf message pass entry) ++ back
  bytes : after.2.1.toNat = others + charge message after.1
  dropped : after.2.2 = (front.filter (isOf message pass)).length
  needed : ∀ before entry later, front.filter (isOf message pass) = before ++ entry :: later →
    lowWater.toNat < others + charge message after.1 + charge message (entry :: later)
  enough : after.2.1 ≤ lowWater ∨ back = []

theorem Cut.charge_front {front back : List α} {others : Nat} {after : List α × UInt64 × Nat}
    (cut : Cut message pass lowWater front back others after) :
    charge message (front ++ back) = charge message after.1 + charge message (front.filter (isOf message pass)) := by
  have parts := charge_filter message (isOf message pass) front
  rw [cut.msgs, charge_append, charge_append]
  omega

theorem shedPass_cut (pass : ShedClass) (lowWater : UInt64) (msgs : List α) (bytes : UInt64) (others : Nat)
    (holds : bytes.toNat = others + charge message msgs) :
    ∃ front back, msgs = front ++ back ∧
      Cut message pass lowWater front back others (shedPass message pass lowWater msgs bytes) := by
  induction msgs generalizing bytes others with
  | nil => exact ⟨[], [], rfl, rfl, holds, rfl, fun before _ _ none => by simp at none, .inr rfl⟩
  | cons entry rest ih =>
    simp only [shedPass]
    split
    · rename_i low
      exact ⟨[], entry :: rest, rfl, rfl, holds, rfl, fun before _ _ none => by simp at none, .inl low⟩
    · rename_i excess
      rw [charge_cons] at holds
      split
      · rename_i other
        obtain ⟨front, back, rfl, cut⟩ := ih bytes (others + (message entry).queuedSize.toNat) (by omega)
        have kept : isOf message pass entry = false := decide_eq_false other
        refine ⟨entry :: front, back, rfl, ?_, ?_, ?_, ?_, cut.enough⟩
        · simp only [List.filter_cons, kept, Bool.not_false, if_true, cut.msgs, List.cons_append]
        · refine cut.bytes.trans ?_
          rw [charge_cons]
          omega
        · simp only [List.filter_cons, kept, Bool.false_eq_true, if_false, cut.dropped]
        · intro before first later split
          simp only [List.filter_cons, kept, Bool.false_eq_true, if_false] at split
          have more := cut.needed before first later split
          dsimp only
          rw [charge_cons]
          omega
      · rename_i taken
        have gone : isOf message pass entry = true := decide_eq_true (not_not.mp taken)
        obtain ⟨front, back, rfl, cut⟩ := ih
          (if (message entry).queuedSize ≥ bytes then 0 else bytes - (message entry).queuedSize) others
            (toNat_release (by omega))
        refine ⟨entry :: front, back, rfl, ?_, cut.bytes, ?_, ?_, cut.enough⟩
        · simp only [List.filter_cons, gone, Bool.not_true, Bool.false_eq_true, if_false, cut.msgs]
        · simp only [List.filter_cons, gone, if_true, cut.dropped, List.length_cons]
        · intro before first later split
          simp only [List.filter_cons, gone, if_true] at split
          cases before with
          | nil =>
            obtain ⟨rfl, rfl⟩ := List.cons.inj split
            have sum := cut.charge_front
            have above := UInt64.lt_iff_toNat_lt.mp (UInt64.not_le.mp excess)
            dsimp only
            rw [charge_cons]
            omega
          | cons _ before =>
            obtain ⟨rfl, tail⟩ := List.cons.inj split
            exact cut.needed before first later tail

/-- Marks by class: some classes in the front part of the queue, some in the rest. -/
def marks (message : α → RtmpMessage) (F G : ShedClass → Bool) (front back : List α) : List (α × Bool) :=
  front.map (fun entry => (entry, F (message entry).classify)) ++ back.map fun entry =>
    (entry, G (message entry).classify)

section
variable {F G : ShedClass → Bool} {front back : List α}

theorem fst_marks : (marks message F G front back).map Prod.fst = front ++ back := by
  simp [marks, Function.comp_def]

theorem mem_marks {entry : α × Bool} : entry ∈ marks message F G front back ↔
    (entry.1 ∈ front ∧ entry.2 = F (message entry.1).classify) ∨
      (entry.1 ∈ back ∧ entry.2 = G (message entry.1).classify) := by
  obtain ⟨entry, mark⟩ := entry
  simp only [marks, List.mem_append, List.mem_map, Prod.mk.injEq]
  constructor
  · rintro (⟨_, member, rfl, rfl⟩ | ⟨_, member, rfl, rfl⟩)
    · exact .inl ⟨member, rfl⟩
    · exact .inr ⟨member, rfl⟩
  · rintro (⟨member, rfl⟩ | ⟨member, rfl⟩)
    · exact .inl ⟨_, member, rfl, rfl⟩
    · exact .inr ⟨_, member, rfl, rfl⟩

theorem survivors_marks : survivors (marks message F G front back) =
    (front.filter fun entry => !F (message entry).classify) ++ back.filter fun entry =>
      !G (message entry).classify := by
  simp [survivors, marks, List.filter_map, Function.comp_def]

theorem removedOf_marks : removedOf message pass (marks message F G front back) =
    (front.filter fun entry => F (message entry).classify && isOf message pass entry) ++
      back.filter fun entry => G (message entry).classify && isOf message pass entry := by
  simp [removedOf, marks, List.filter_map, Function.comp_def, isOf]

theorem length_removals {marked : List (α × Bool)} (droppable : ∀ entry ∈ marked, entry.2 = true →
    (message entry.1).classify = .interVideo ∨ (message entry.1).classify = .keyVideo) :
    (removals message marked).length = marked.countP Prod.snd := by
  induction marked with
  | nil => rfl
  | cons entry rest ih =>
    have later := ih fun other member => droppable other (List.mem_cons_of_mem _ member)
    have here := droppable entry List.mem_cons_self
    obtain ⟨entry, mark⟩ := entry
    cases mark with
    | false => simpa [removals, removedOf] using later
    | true =>
      simp only [removals, removedOf, List.length_append, List.length_map] at later
      rcases here rfl with inter | key
      · simp [removals, removedOf, inter]
        omega
      · simp [removals, removedOf, key]
        omega

/-- Marks by class keep to the policy as far as the classes do, and no class is taken further back that is
not taken in front. -/
theorem policy_marks (droppable : ∀ c, F c = true → c = .interVideo ∨ c = .keyVideo)
    (interFirst : F .keyVideo = true → F .interVideo = true ∧ G .interVideo = true)
    (fewer : ∀ c, G c = true → F c = true ∧ c ≠ .keyVideo)
    (needed : ∀ before entry after, removals message (marks message F G front back) = before ++ entry :: after →
      lowWater.toNat < charge message (survivors (marks message F G front back)) + charge message (entry :: after))
    (enough : charge message (survivors (marks message F G front back)) ≤ lowWater.toNat ∨
      ∀ entry ∈ marks message F G front back, entry.2 = false →
        (message entry.1).classify ≠ .interVideo ∧ (message entry.1).classify ≠ .keyVideo) :
    Policy message lowWater (marks message F G front back) := by
  refine ⟨?_, ?_, ?_, needed, enough⟩
  · intro entry member marked
    rcases mem_marks.mp member with ⟨_, same⟩ | ⟨_, same⟩
    · exact droppable _ (same.symm.trans marked)
    · exact droppable _ (fewer _ (same.symm.trans marked)).1
  · rintro ⟨key, member, marked, isKey⟩ entry found isInter
    have taken : F .keyVideo = true := by
      rcases mem_marks.mp member with ⟨_, same⟩ | ⟨_, same⟩
      · rwa [marked, isKey, eq_comm] at same
      · rw [marked, isKey, eq_comm] at same
        exact absurd rfl (fewer _ same).2
    rcases mem_marks.mp found with ⟨_, same⟩ | ⟨_, same⟩
    · rw [same, isInter]
      exact (interFirst taken).1
    · rw [same, isInter]
      exact (interFirst taken).2
  · refine List.pairwise_append.mpr ⟨?_, ?_, ?_⟩
    · exact List.pairwise_map.mpr (List.pairwise_of_forall fun x y same marked => (congrArg F same).trans marked)
    · exact List.pairwise_map.mpr (List.pairwise_of_forall fun x y same marked => (congrArg G same).trans marked)
    · intro earlier before later after same marked
      obtain ⟨x, _, rfl⟩ := List.mem_map.mp before
      obtain ⟨y, _, rfl⟩ := List.mem_map.mp after
      exact (fewer _ ((congrArg G same).trans marked)).1

end

/-- The marks of a run of `shed_to`, and what it leaves behind. -/
structure Marked (message : α → RtmpMessage) (lowWater : UInt64) (after : List α × UInt64 × Nat)
    (marked : List (α × Bool)) :
    Prop where
  policy : Policy message lowWater marked
  survivors : after.1 = survivors marked
  bytes : after.2.1.toNat = charge message after.1
  dropped : after.2.2 = marked.countP Prod.snd

theorem filter_class {F H : ShedClass → Bool} (same : ∀ c, (F c && decide (c = pass)) = H c) (msgs : List α) :
    (msgs.filter fun entry => F (message entry).classify && isOf message pass entry) =
      msgs.filter fun entry => H (message entry).classify :=
  List.filter_congr fun entry _ => same (message entry).classify

def onlyInter (c : ShedClass) : Bool := c = .interVideo

def anyVideo (c : ShedClass) : Bool := c = .interVideo || c = .keyVideo

theorem inter_inter (c : ShedClass) : (onlyInter c && decide (c = .interVideo)) = onlyInter c := by
  cases c <;> rfl

theorem inter_key (c : ShedClass) : (onlyInter c && decide (c = .keyVideo)) = false := by
  cases c <;> rfl

theorem video_inter (c : ShedClass) : (anyVideo c && decide (c = .interVideo)) = onlyInter c := by
  cases c <;> rfl

theorem video_key (c : ShedClass) : (anyVideo c && decide (c = .keyVideo)) = (!onlyInter c && c = .keyVideo) := by
  cases c <;> rfl

theorem video_not (c : ShedClass) : (!anyVideo c) = (!onlyInter c && !decide (c = .keyVideo)) := by
  cases c <;> rfl

theorem marked_inter {front back : List α} {after : List α × UInt64 × Nat}
    (cut : Cut message .interVideo lowWater front back 0 after) (low : after.2.1 ≤ lowWater) :
    Marked message lowWater after (marks message onlyInter (fun _ => false) front back) := by
  have left : survivors (marks message onlyInter (fun _ => false) front back) = after.1 := by
    rw [survivors_marks, cut.msgs]
    simp [isOf, onlyInter]
  have gone : removals message (marks message onlyInter (fun _ => false) front back) =
      front.filter (isOf message .interVideo) := by
    rw [removals, removedOf_marks, removedOf_marks, filter_class inter_inter, filter_class inter_key]
    simp only [Bool.false_and, List.filter_false, List.append_nil]
    rfl
  have sum : after.2.1.toNat = charge message after.1 := by rw [cut.bytes, Nat.zero_add]
  have policy : Policy message lowWater (marks message onlyInter (fun _ => false) front back) := by
    refine policy_marks (fun c is => .inl (of_decide_eq_true is)) (fun key => absurd key (by decide)) nofun ?_ ?_
    · rw [gone, left]
      intro before entry later split
      have more := cut.needed before entry later split
      omega
    · rw [left, ← sum]
      exact .inl (UInt64.le_iff_toNat_le.mp low)
  refine ⟨policy, left.symm, sum, ?_⟩
  rw [cut.dropped, ← gone, length_removals policy.droppable]

/-- Where they are not, and all of them are gone before the first key frame goes. -/
theorem marked_video {msgs front back : List α} {between after : List α × UInt64 × Nat}
    (first : Cut message .interVideo lowWater msgs [] 0 between) (whole : between.1 = front ++ back)
    (second : Cut message .keyVideo lowWater front back 0 after) :
    ∃ marked, marked.map Prod.fst = msgs ∧
      Marked message lowWater (after.1, after.2.1, between.2.2 + after.2.2) marked := by
  have kept := first.msgs
  rw [List.append_nil, whole] at kept
  obtain ⟨a, b, rfl, inFront, inBack⟩ := List.filter_eq_append_iff.mp kept.symm
  refine ⟨marks message anyVideo onlyInter a b, fst_marks, ?_⟩
  have left : survivors (marks message anyVideo onlyInter a b) = after.1 := by
    rw [survivors_marks, second.msgs, ← inFront, ← inBack, List.filter_filter]
    refine congrArg (· ++ _) (List.filter_congr fun entry _ => ?_)
    rw [video_not, Bool.and_comm]
    rfl
  have interGone : removedOf message .interVideo (marks message anyVideo onlyInter a b) =
      (a ++ b).filter (isOf message .interVideo) := by
    rw [removedOf_marks, filter_class video_inter, filter_class inter_inter, List.filter_append]
    rfl
  have keyGone : removedOf message .keyVideo (marks message anyVideo onlyInter a b) =
      front.filter (isOf message .keyVideo) := by
    rw [removedOf_marks, filter_class video_key, filter_class inter_key, ← inFront, List.filter_filter,
      List.filter_false, List.append_nil]
    refine List.filter_congr fun entry _ => ?_
    rw [Bool.and_comm]
    rfl
  have sum : after.2.1.toNat = charge message after.1 := by rw [second.bytes, Nat.zero_add]
  have policy : Policy message lowWater (marks message anyVideo onlyInter a b) := by
    refine policy_marks ?_ (fun _ => ⟨rfl, rfl⟩) ?_ ?_ ?_
    · intro c is
      simpa [anyVideo] using is
    · intro c is
      cases of_decide_eq_true is
      exact ⟨rfl, by decide⟩
    · rw [removals, interGone, keyGone, left]
      intro before entry later split
      rcases List.append_eq_append_iff.mp split with ⟨more, rfl, key⟩ | ⟨more, inter, tail⟩
      · have above := second.needed more entry later key
        omega
      · cases more with
        | nil =>
          have above := second.needed [] entry later tail.symm
          omega
        | cons last more =>
          rw [List.cons_append] at tail
          obtain ⟨rfl, rfl⟩ := List.cons.inj tail
          have above := first.needed before entry more inter
          have sum := second.charge_front
          rw [← List.cons_append, charge_append]
          rw [whole] at above
          omega
    · rw [left, ← sum]
      refine second.enough.imp UInt64.le_iff_toNat_le.mp fun none entry member unmarked => ?_
      rw [none] at inBack
      rcases mem_marks.mp member with ⟨_, same⟩ | ⟨there, same⟩
      · rw [unmarked] at same
        simpa [anyVideo] using same.symm
      · have inter := List.filter_eq_nil_iff.mp inBack entry.1 there
        rw [unmarked] at same
        exact absurd (congrArg not same.symm) inter
  refine ⟨policy, left.symm, sum, ?_⟩
  rw [← length_removals policy.droppable, removals, interGone, keyGone, List.length_append, first.dropped,
    second.dropped]

/-- The policy of `shed_to`, for a queue whose byte count is exact. -/
theorem shedTo_policy (exact : bytes.toNat = charge message msgs) :
    ∃ marked, marked.map Prod.fst = msgs ∧ Marked message lowWater (shedTo message msgs bytes lowWater) marked := by
  obtain ⟨front, back, rfl, first⟩ :=
    shedPass_cut .interVideo lowWater msgs bytes 0 (exact.trans (Nat.zero_add _).symm)
  simp only [shedTo]
  split
  · rename_i low
    exact ⟨_, fst_marks, marked_inter first low⟩
  · rename_i excess
    obtain rfl := first.enough.resolve_left excess
    rw [List.append_nil] at first ⊢
    have sum := first.bytes
    obtain ⟨keys, rest, whole, second⟩ := shedPass_cut .keyVideo lowWater _ _ 0 sum
    exact marked_video first whole second

/-- An inter frame, a sequence header, a key frame, audio and an inter frame. -/
def mixedQueue : List RtmpMessage :=
  [⟨.videoData, 1, 5, 0, some [0x27, 1]⟩, ⟨.videoData, 1, 5, 0, some [0x17, 0]⟩,
    ⟨.videoData, 1, 5, 0, some [0x17, 1]⟩,
    ⟨.audioData, 1, 4, 0, some [0xaf, 1]⟩, ⟨.videoData, 1, 5, 0, some [0x27, 1, 2]⟩]

theorem shedTo_policy_mixed : (71 : UInt64).toNat = charge id mixedQueue ∧
    ∃ marked, marked.map Prod.fst = mixedQueue ∧ Marked id 40 (shedTo id mixedQueue 71 40) marked :=
  ⟨rfl, shedTo_policy rfl⟩

example : (shedTo id mixedQueue 71 40).1.map RtmpMessage.payload = [some [0x17, 0], some [0xaf, 1]] :=
  by decide +kernel

end Fms.AsyncQueue
