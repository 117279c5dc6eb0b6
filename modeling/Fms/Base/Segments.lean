import Mathlib.Tactic.Common

/-! Messages cut into marked pieces and sent as one stream of pieces. -/

namespace Segments

/-- Where in its message a piece lies. -/
inductive Mark
  | whole
  | first
  | last
  | middle
  deriving DecidableEq, Repr

/-- A piece that a message can start with. -/
def Mark.opens : Mark → Bool
  | .whole => true
  | .first => true
  | .last => false
  | .middle => false

variable {β : Type}

/-- The pieces of a message: the message whole, or a first and a last piece with the middle
ones between them. -/
inductive Splits (m : List β) : List (Mark × List β) → Prop
  | whole : Splits m [(.whole, m)]
  | pieces {a z : List β} {mids : List (List β)} : m = a ++ mids.flatten ++ z →
      Splits m ((.first, a) :: mids.map (Prod.mk .middle) ++ [(.last, z)])

variable {parts : List (Mark × List β)} {m : List β}

theorem Splits.join (splits : Splits m parts) :
    m = (parts.map Prod.snd).flatten := by
  cases splits with
  | whole => simp
  | pieces join =>
    rw [join]
    simp [Function.comp_def]

theorem Splits.unique {m m' : List β} (splits : Splits m parts)
    (splits' : Splits m' parts) : m = m' :=
  splits.join.trans splits'.join.symm

theorem Splits.ne_nil (splits : Splits m parts) : parts ≠ [] := by
  cases splits <;> simp

theorem Splits.ends (splits : Splits m parts) :
    ∃ p ∈ parts, p.1 = .whole ∨ p.1 = .last := by
  cases splits with
  | whole => exact ⟨_, List.mem_singleton.mpr rfl, .inl rfl⟩
  | pieces => exact ⟨_, List.mem_append_right _ (List.mem_singleton.mpr rfl), .inr rfl⟩

/-- Only the first piece of a message opens one. -/
theorem Splits.opens_iff {before after : List (Mark × List β)} {c : Mark × List β}
    (splits : Splits m (before ++ c :: after)) : c.1.opens = true ↔ before = [] := by
  generalize same : before ++ c :: after = parts at splits
  cases splits with
  | whole =>
    cases before with
    | nil =>
      obtain ⟨rfl, rfl⟩ := List.cons.inj same
      exact iff_of_true rfl rfl
    | cons b before => simp at same
  | @pieces a z mids join =>
    cases before with
    | nil =>
      obtain ⟨rfl, rfl⟩ := List.cons.inj same
      exact iff_of_true rfl rfl
    | cons b before =>
      refine iff_of_false (fun opens => ?_) (List.cons_ne_nil _ _)
      have tail : before ++ c :: after = mids.map (Prod.mk .middle) ++ [(.last, z)] := (List.cons.inj same).2
      have member : c ∈ mids.map (Prod.mk .middle) ++ [(.last, z)] := by
        rw [← tail]
        simp
      rcases List.mem_append.mp member with middle | last
      · obtain ⟨_, _, rfl⟩ := List.mem_map.mp middle
        cases opens
      · rw [List.mem_singleton.mp last] at opens
        cases opens

/-- After middle pieces only a middle or the last piece can come. -/
theorem middles_append_cons {mids mids' : List (List β)} {z : List β} {q : Mark × List β} {x y : List (Mark × List β)}
    (same : mids.map (Prod.mk Mark.middle) ++ (.last, z) :: x = mids'.map (Prod.mk Mark.middle) ++ q :: y) :
    q.1.opens = false ∧ (q.1 = .last → mids = mids' ∧ q.2 = z ∧ x = y) := by
  induction mids generalizing mids' with
  | nil =>
    cases mids' with
    | nil =>
      obtain ⟨rfl, rfl⟩ := List.cons.inj same
      exact ⟨rfl, fun _ => ⟨rfl, rfl, rfl⟩⟩
    | cons b mids' => cases (List.cons.inj same).1
  | cons a mids ih =>
    cases mids' with
    | nil =>
      obtain ⟨rfl, rfl⟩ := List.cons.inj same
      exact ⟨rfl, fun last => by cases last⟩
    | cons b mids' =>
      obtain ⟨head, tail⟩ := List.cons.inj same
      obtain ⟨inner, closing⟩ := ih tail
      refine ⟨inner, fun last => ?_⟩
      obtain ⟨rfl, rest⟩ := closing last
      cases head
      exact ⟨rfl, rest⟩

/-- No message's pieces are a proper beginning of another's. -/
theorem Splits.prefix_free {m m' : List β} {parts parts' x x' : List (Mark × List β)} (splits : Splits m parts)
    (splits' : Splits m' parts') (same : parts ++ x = parts' ++ x') : parts = parts' := by
  cases splits with
  | whole =>
    cases splits' with
    | whole => rw [(List.cons.inj same).1]
    | pieces => cases (List.cons.inj same).1
  | @pieces a z mids join =>
    cases splits' with
    | whole => cases (List.cons.inj same).1
    | @pieces a' z' mids' join' =>
      simp only [List.cons_append, List.append_assoc, List.nil_append] at same
      obtain ⟨head, tail⟩ := List.cons.inj same
      obtain ⟨rfl, closing, _⟩ := (middles_append_cons tail).2 rfl
      cases head
      cases closing
      rfl

section stream
variable {cut : List β → List (Mark × List β)} {msgs : List (List β)}

/-- Pieces of a stream that split a message are the pieces of one message of the stream. -/
theorem Splits.aligned {d : List β} {before run after : List (Mark × List β)}
    (each : ∀ m ∈ msgs, Splits m (cut m)) (stream : msgs.flatMap cut = before ++ (run ++ after))
    (splits : Splits d run) :
    ∃ earlier later, msgs = earlier ++ d :: later ∧ before = earlier.flatMap cut ∧ run = cut d := by
  induction msgs generalizing before with
  | nil => simp [splits.ne_nil] at stream
  | cons m msgs ih =>
    have own := each m (List.mem_cons_self ..)
    have later {before' : List (Mark × List β)} (stream : msgs.flatMap cut = before' ++ (run ++ after)) :
        ∃ earlier later, m :: msgs = earlier ++ d :: later ∧ cut m ++ before' = earlier.flatMap cut ∧
          run = cut d := by
      obtain ⟨earlier, later, rfl, rfl, same⟩ := ih (fun m member => each m (List.mem_cons_of_mem _ member)) stream
      exact ⟨m :: earlier, later, rfl, rfl, same⟩
    rw [List.flatMap_cons] at stream
    rcases List.append_eq_append_iff.mp stream with ⟨before', rfl, tail⟩ | ⟨inner, split, tail⟩
    · exact later tail
    · cases inner with
      | nil =>
        rw [List.append_nil] at split
        have behind : msgs.flatMap cut = [] ++ (run ++ after) := tail.symm
        obtain ⟨earlier, later, here, there, same⟩ := later behind
        exact ⟨earlier, later, here, by rw [← split, ← there, List.append_nil], same⟩
      | cons c inner =>
        have opens : c.1.opens = true := by
          obtain ⟨r, run, rfl⟩ := List.exists_cons_of_ne_nil splits.ne_nil
          obtain ⟨rfl, _⟩ := List.cons.inj tail
          have opening : Splits d ([] ++ r :: run) := splits
          exact opening.opens_iff.mpr rfl
        obtain rfl := (Splits.opens_iff (split ▸ own)).mp opens
        have same := splits.prefix_free own stream.symm
        obtain rfl := splits.unique (same ▸ own)
        exact ⟨[], msgs, rfl, rfl, same⟩

theorem length_flatMap_take_lt (each : ∀ m ∈ msgs, cut m ≠ []) {i j : Nat} (less : i < j) (bound : j ≤ msgs.length) :
    ((msgs.take i).flatMap cut).length < ((msgs.take j).flatMap cut).length := by
  induction msgs generalizing i j with
  | nil =>
    simp only [List.length_nil] at bound
    omega
  | cons m msgs ih =>
    have own := List.length_pos_iff.mpr (each m (List.mem_cons_self ..))
    obtain ⟨j, rfl⟩ : ∃ k, j = k + 1 := ⟨j - 1, by omega⟩
    simp only [List.length_cons] at bound
    cases i with
    | zero =>
      simp only [List.take_zero, List.flatMap_nil, List.length_nil, List.take_succ_cons, List.flatMap_cons,
        List.length_append]
      omega
    | succ i =>
      have rest := ih (fun m member => each m (List.mem_cons_of_mem _ member)) (by omega : i < j) (by omega)
      simp only [List.take_succ_cons, List.flatMap_cons, List.length_append]
      omega

end stream
end Segments
