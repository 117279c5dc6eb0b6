import Mathlib.Tactic.Common

namespace Scan

/-- What one round of a scan does: stop with the input it leaves unread, or go
round again after emitting something. -/
inductive Outcome (σ β ω : Type)
  | stop (state : σ) (rest : List β)
  | next (state : σ) (rest : List β) (out : List ω)

/-- A loop over an input buffer. The rank decreases in every round that goes on,
so that the loop ends without a fuel argument. -/
structure Scanner (σ β ω : Type) where
  step : σ → List β → Outcome σ β ω
  rank : σ → List β → Nat
  progress : ∀ {s r s' r' out}, r ≠ [] → step s r = .next s' r' out → rank s' r' < rank s r

/-- Where a scan ended: its state, what it emitted and what it left unread. -/
structure Result (σ β ω : Type) where
  state : σ
  out : List ω
  rest : List β

namespace Scanner
variable {σ β ω : Type} (S : Scanner σ β ω)

def run (s : σ) (r : List β) : Result σ β ω :=
  match r with
  | [] => ⟨s, [], []⟩
  | b :: bs =>
    match _ : S.step s (b :: bs) with
    | .stop s' r' => ⟨s', [], r'⟩
    | .next s' r' out =>
      let tail := run s' r'
      { tail with out := out ++ tail.out }
termination_by S.rank s r
decreasing_by exact S.progress (List.cons_ne_nil _ _) (by assumption)

@[simp] theorem run_nil (s : σ) : S.run s [] = ⟨s, [], []⟩ := by rw [run]

variable {S}

theorem run_stop {s s' : σ} {r r' : List β} (ne : r ≠ []) (h : S.step s r = .stop s' r') :
    S.run s r = ⟨s', [], r'⟩ := by
  cases r with
  | nil => exact absurd rfl ne
  | cons b bs =>
    rw [run]
    split
    · rename_i found
      cases found.symm.trans h
      rfl
    · rename_i found
      cases found.symm.trans h

theorem run_next {s s' : σ} {r r' : List β} {out : List ω} (ne : r ≠ []) (h : S.step s r = .next s' r' out) :
    S.run s r = ⟨(S.run s' r').state, out ++ (S.run s' r').out, (S.run s' r').rest⟩ := by
  cases r with
  | nil => exact absurd rfl ne
  | cons b bs =>
    rw [run]
    split
    · rename_i found
      cases found.symm.trans h
    · rename_i found
      cases found.symm.trans h
      rfl

variable (S) in
/-- A scan in at most so many rounds. -/
def rounds : Nat → σ → List β → Option (Result σ β ω)
  | 0, _, _ => none
  | _ + 1, s, [] => some ⟨s, [], []⟩
  | n + 1, s, b :: bs =>
    match S.step s (b :: bs) with
    | .stop s' r' => some ⟨s', [], r'⟩
    | .next s' r' out => (rounds n s' r').map fun tail => { tail with out := out ++ tail.out }

theorem run_of_rounds {n : Nat} {s : σ} {r : List β} {result : Result σ β ω} (ends : S.rounds n s r = some result) :
    S.run s r = result := by
  induction n generalizing s r result with
  | zero => cases ends
  | succ n ih =>
    cases r with
    | nil =>
      cases ends
      exact S.run_nil s
    | cons b bs =>
      rw [rounds] at ends
      split at ends
      · rename_i stop
        cases ends
        exact run_stop (List.cons_ne_nil b bs) stop
      · rename_i next
        obtain ⟨tail, found, rfl⟩ := Option.map_eq_some_iff.mp ends
        rw [run_next (List.cons_ne_nil b bs) next, ih found]

/-- States whose rounds agree on an input cannot be told apart by scanning it. -/
theorem run_congr {s s' : σ} {r : List β} (ne : r ≠ []) (same : S.step s r = S.step s' r) :
    S.run s r = S.run s' r := by
  cases h : S.step s r with
  | stop t rest => rw [run_stop ne h, run_stop ne (same ▸ h)]
  | next t rest out => rw [run_next ne h, run_next ne (same ▸ h)]

/-- What a scan leaves unread is the end of its input, if every round leaves an end
of its own. -/
theorem run_suffix (stop : ∀ {s r s' r'}, S.step s r = .stop s' r' → r' <:+ r)
    (next : ∀ {s r s' r' out}, S.step s r = .next s' r' out → r' <:+ r) (s : σ) (r : List β) :
    (S.run s r).rest <:+ r := by
  induction rank : S.rank s r using Nat.strongRecOn generalizing s r with
  | _ n ih =>
    by_cases ne : r = []
    · subst ne
      simp
    · cases h : S.step s r with
      | stop s' r' =>
        rw [run_stop ne h]
        exact stop h
      | next s' r' out =>
        rw [run_next ne h]
        exact (ih _ (rank ▸ S.progress ne h) s' r' rfl).trans (next h)

/-- What makes a scan resumable: a round that goes on does not look past what it
consumed, and a round that stops leaves a state from which the longer input is
read as it would have been read in one go. -/
structure Resumable (S : Scanner σ β ω) : Prop where
  next_append : ∀ {s r s' r' out}, r ≠ [] → S.step s r = .next s' r' out →
    ∀ t, S.step s (r ++ t) = .next s' (r' ++ t) out
  stop_append : ∀ {s r s' r'}, r ≠ [] → S.step s r = .stop s' r' →
    ∀ t, S.run s (r ++ t) = S.run s' (r' ++ t)

/-- Scanning in two pieces is scanning in one. -/
theorem Resumable.run_append (resumable : Resumable S) (s : σ) (a b : List β) :
    S.run s (a ++ b) =
      ⟨(S.run (S.run s a).state ((S.run s a).rest ++ b)).state,
        (S.run s a).out ++ (S.run (S.run s a).state ((S.run s a).rest ++ b)).out,
        (S.run (S.run s a).state ((S.run s a).rest ++ b)).rest⟩ := by
  induction rank : S.rank s a using Nat.strongRecOn generalizing s a with
  | _ n ih =>
    by_cases ne : a = []
    · subst ne
      simp
    · cases h : S.step s a with
      | stop s' r' => simp only [run_stop ne h, resumable.stop_append ne h b, List.nil_append]
      | next s' r' out =>
        have longer : a ++ b ≠ [] := by simp [ne]
        have tail := ih _ (rank ▸ S.progress ne h) s' r' rfl
        rw [run_next longer (resumable.next_append ne h b), tail, run_next ne h]
        simp only [List.append_assoc]

end Scanner
end Scan
