import Fms.Amf.Amf0

namespace Fms.Amf
open ByteWire Fallible

namespace Part
variable {α : Type}

/-- The bytes of the stretches in turn. -/
def flatten (encode : α → Bytes) : List (Part α) → Bytes
  | [] => []
  | .bytes own :: rest => own ++ flatten encode rest
  | .value inner :: rest => encode inner ++ flatten encode rest

/-- What the contained values cost in all. -/
def total (cost : α → Nat) : List (Part α) → Nat
  | [] => 0
  | .bytes _ :: rest => total cost rest
  | .value inner :: rest => cost inner + total cost rest

variable {encode : α → Bytes} {cost : α → Nat}

@[simp] theorem flatten_append (ps qs : List (Part α)) :
    flatten encode (ps ++ qs) = flatten encode ps ++ flatten encode qs := by
  induction ps with
  | nil => rfl
  | cons p ps ih => cases p <;> simp [flatten, ih]

@[simp] theorem total_append (ps qs : List (Part α)) : total cost (ps ++ qs) = total cost ps + total cost qs := by
  induction ps with
  | nil => simp [total]
  | cons p ps ih => cases p <;> simp [total, ih, Nat.add_assoc]

variable {ξ : Type}

@[simp] theorem flatten_flatMap (parts : ξ → List (Part α)) (items : List ξ) :
    flatten encode (items.flatMap parts) = items.flatMap fun item => flatten encode (parts item) := by
  induction items with
  | nil => rfl
  | cons item items ih => simp only [List.flatMap_cons, flatten_append, ih]

@[simp] theorem total_flatMap (parts : ξ → List (Part α)) (items : List ξ) :
    total cost (items.flatMap parts) = (items.map fun item => total cost (parts item)).sum := by
  induction items with
  | nil => rfl
  | cons item items ih => simp only [List.flatMap_cons, total_append, ih, List.map_cons, List.sum_cons]

@[simp] theorem flatten_map_value (f : ξ → α) (items : List ξ) :
    flatten encode (items.map fun item => .value (f item)) = items.flatMap fun item => encode (f item) := by
  induction items with
  | nil => rfl
  | cons item items ih => simp only [List.map_cons, flatten, ih, List.flatMap_cons]

@[simp] theorem total_map_value (f : ξ → α) (items : List ξ) :
    total cost (items.map fun item => .value (f item)) = (items.map fun item => cost (f item)).sum := by
  induction items with
  | nil => rfl
  | cons item items ih => simp only [List.map_cons, total, ih, List.sum_cons]

@[simp] theorem flatten_values (items : List α) : flatten encode (items.map .value) = items.flatMap encode :=
  flatten_map_value id items

@[simp] theorem total_values (items : List α) : total cost (items.map .value) = (items.map cost).sum :=
  total_map_value id items

end Part

namespace Amf3

def encode : (d : Nat) → Value3 d → Bytes
  | 0, v => nomatch v
  | d + 1, v => Part.flatten (encode d) (writeNode v)

def nodes : (d : Nat) → Value3 d → Nat
  | 0, v => nomatch v
  | d + 1, v => 1 + Part.total (nodes d) (writeNode v)

end Amf3

namespace Amf0

def encode : (d : Nat) → Value0 d → Bytes
  | 0, v => nomatch v
  | d + 1, v => Part.flatten (Sum.elim (encode d) (Amf3.encode d)) (writeNode v)

def nodes : (d : Nat) → Value0 d → Nat
  | 0, v => nomatch v
  | d + 1, v => 1 + Part.total (Sum.elim (nodes d) (Amf3.nodes d)) (writeNode v)

end Amf0

/-- The output with so many bytes more and so many values charged. -/
def Encoder.after (e : Encoder) (bytes : Bytes) (cost : Nat) : Encoder :=
  { e with buffer := e.buffer ++ bytes, nodes := e.nodes + cost }

/-- The budget leaves room for them. -/
structure Encoder.Room (e : Encoder) (bytes : Bytes) (cost : Nat) : Prop where
  start : e.origin ≤ e.buffer.length
  size : e.buffer.length + bytes.length < e.origin + WriteBudget.eMaxBytes
  nodes : e.nodes + cost ≤ WriteBudget.eMaxNodes

theorem Encoder.emitted_eq {e : Encoder} (start : e.origin ≤ e.buffer.length)
    (size : e.buffer.length < e.origin + WriteBudget.eMaxBytes) : e.emitted = e.buffer.length - e.origin := by
  have limit : WriteBudget.eMaxBytes < 2 ^ 64 := by decide
  unfold emitted wrap64
  rw [Nat.add_sub_assoc start, Nat.add_mod_left]
  exact Nat.mod_eq_of_lt (by omega)

/-- The writer appends those bytes wherever there is room. -/
def Writes (m : Encode Unit) (bytes : Bytes) (cost : Nat) : Prop :=
  ∀ ⦃e⦄, e.Room bytes cost → Yields m e () (e.after bytes cost)

theorem Encoder.after_after (e : Encoder) (b b' : Bytes) (n n' : Nat) :
    (e.after b n).after b' n' = e.after (b ++ b') (n + n') := by
  simp only [Encoder.after, List.append_assoc, Nat.add_assoc]

theorem Encoder.Room.split {e : Encoder} {b b' : Bytes} {n n' : Nat} (room : e.Room (b ++ b') (n + n')) :
    e.Room b n ∧ (e.after b n).Room b' n' := by
  obtain ⟨start, size, nodes⟩ := room
  simp only [List.length_append] at size
  refine ⟨⟨start, by omega, by omega⟩, ?_, ?_, ?_⟩
  · exact start.trans (by simp only [Encoder.after, List.length_append]; omega)
  · simp only [Encoder.after, List.length_append]
    omega
  · simp only [Encoder.after]
    omega

theorem Writes.seq {m m' : Encode Unit} {b b' : Bytes} {n n' : Nat} (first : Writes m b n)
    (second : Writes m' b' n') :
    Writes (do m; m') (b ++ b') (n + n') := by
  intro e room
  obtain ⟨before, after⟩ := room.split
  exact yields_bind.mpr ⟨(), _, first before, e.after_after b b' n n' ▸ second after⟩

theorem writes_append (bytes : Bytes) : Writes (append bytes) bytes 0 := fun _ _ => rfl

theorem writes_emit {α : Type} {write : α → Encode Unit} {encode : α → Bytes} {cost : α → Nat}
    (parts : List (Part α)) (each : ∀ x, .value x ∈ parts → Writes (write x) (encode x) (cost x)) :
    Writes (emit write parts) (Part.flatten encode parts) (Part.total cost parts) := by
  induction parts with
  | nil =>
    intro e _
    simp only [Encoder.after, Part.flatten, Part.total, List.append_nil, Nat.add_zero]
    exact yields_pure.mpr ⟨rfl, rfl⟩
  | cons part parts ih =>
    have rest := ih fun x member => each x (List.mem_cons_of_mem _ member)
    cases part with
    | bytes own =>
      have both := (writes_append own).seq rest
      rwa [Nat.zero_add] at both
    | value inner => exact (each inner (List.mem_cons_self ..)).seq rest

theorem frame_counts (refusal : AmfError) {depth : Nat} (shallow : depth + 1 ≤ WriteBudget.eMaxDepth) {e : Encoder}
    (few : e.nodes + 1 ≤ WriteBudget.eMaxNodes) (start : e.origin ≤ e.buffer.length)
    (size : e.buffer.length < e.origin + WriteBudget.eMaxBytes) :
    Yields (do
      if depth + 1 > WriteBudget.eMaxDepth then throw refusal
      else
        modify fun s => { s with nodes := s.nodes + 1 }
        let s ← get
        if s.nodes ≤ WriteBudget.eMaxNodes ∧ s.emitted < WriteBudget.eMaxBytes then return else throw refusal :
          Encode Unit)
      e () { e with nodes := e.nodes + 1 } := by
  let counted : Encoder := { e with nodes := e.nodes + 1 }
  have emitted : counted.emitted = e.buffer.length - e.origin := counted.emitted_eq start size
  rw [if_neg (not_lt.mpr shallow)]
  refine yields_bind.mpr ⟨(), counted, yields_modify.mpr rfl, yields_bind.mpr
    ⟨counted, _, yields_get.mpr ⟨rfl, rfl⟩, ?_⟩⟩
  rw [if_pos ⟨few, by rw [emitted]; omega⟩]
  exact yields_pure.mpr ⟨rfl, rfl⟩

/-- Below the first level, or where a scope is open, nothing is reset. -/
theorem frame_keeps (refusal : AmfError) {depth : Nat} (shallow : depth + 1 ≤ WriteBudget.eMaxDepth) {e : Encoder}
    (kept : ¬(depth = 0 ∧ e.scopes = 0)) (room : e.Room [] 1) : Yields (frame refusal depth) e () (e.after [] 1) := by
  refine yields_bind.mpr ⟨e, e, yields_get.mpr ⟨rfl, rfl⟩, ?_⟩
  rw [if_neg kept, Encoder.after, List.append_nil]
  exact frame_counts refusal shallow room.nodes room.start room.size

theorem writes_frame (refusal : AmfError) {depth : Nat} (inside : 0 < depth)
    (shallow : depth + 1 ≤ WriteBudget.eMaxDepth) :
    Writes (frame refusal depth) [] 1 :=
  fun _ room => frame_keeps refusal shallow (fun top => inside.ne' top.1) room

/-- The first level starts the count again, unless a scope holds it. -/
theorem frame_resets (refusal : AmfError) {e : Encoder} (unscoped : e.scopes = 0) :
    Yields (frame refusal 0) e () { e with nodes := 1, origin := e.buffer.length } := by
  refine yields_bind.mpr ⟨e, e, yields_get.mpr ⟨rfl, rfl⟩, ?_⟩
  rw [if_pos ⟨rfl, unscoped⟩]
  refine yields_bind.mpr ⟨(), { e with nodes := 0, origin := e.buffer.length }, yields_modify.mpr rfl, ?_⟩
  have first : 0 + 1 ≤ WriteBudget.eMaxNodes := by decide
  have size : e.buffer.length < e.buffer.length + WriteBudget.eMaxBytes := Nat.lt_add_of_pos_right (by decide)
  exact frame_counts refusal (by decide) first (Nat.le_refl _) size

theorem write_top {α : Type} {write : α → Encode Unit} {encode : α → Bytes} {cost : α → Nat}
    (each : ∀ x, Writes (write x) (encode x) (cost x)) (refusal : AmfError) (parts : List (Part α)) {e : Encoder}
    (unscoped : e.scopes = 0) (few : 1 + Part.total cost parts ≤ WriteBudget.eMaxNodes)
    (short : (Part.flatten encode parts).length < WriteBudget.eMaxBytes) :
    ∃ e', Yields (do frame refusal 0; emit write parts) e () e' ∧
      e'.buffer = e.buffer ++ Part.flatten encode parts := by
  refine ⟨_, yields_bind.mpr ⟨(), _, frame_resets refusal unscoped, writes_emit parts (fun x _ => each x)
    ⟨?_, ?_, ?_⟩⟩, rfl⟩
  · exact Nat.le_refl _
  · exact Nat.add_lt_add_left short _
  · exact few

namespace Amf3

theorem writes_writeAt {depth d : Nat} (inside : 0 < depth) (shallow : depth + d ≤ WriteBudget.eMaxDepth)
    (v : Value3 d) :
    Writes (writeAt depth d v) (encode d v) (nodes d v) := by
  induction d generalizing depth with
  | zero => nomatch v
  | succ d ih =>
    have framed := (writes_frame .amf3Write inside (by omega)).seq
      (writes_emit (writeNode v) fun w _ => ih (Nat.succ_pos depth) (by omega) w)
    rwa [List.nil_append] at framed

theorem write_spec {d : Nat} (shallow : d ≤ WriteBudget.eMaxDepth) (v : Value3 d) {e : Encoder}
    (unscoped : e.scopes = 0)
    (few : nodes d v ≤ WriteBudget.eMaxNodes) (short : (encode d v).length < WriteBudget.eMaxBytes) :
    ∃ e', Yields (write v) e () e' ∧ e'.buffer = e.buffer ++ encode d v := by
  cases d with
  | zero => nomatch v
  | succ d =>
    exact write_top (fun w => writes_writeAt Nat.one_pos (by omega) w) .amf3Write
      (writeNode v) unscoped few short

end Amf3

namespace Amf0

/-- What is known of the writers of both formats is known of what an AMF0 value contains. -/
theorem each_inner {P : Encode Unit → Bytes → Nat → Prop} {depth d : Nat}
    (zero : ∀ v, P (writeAt depth d v) (encode d v) (nodes d v))
    (three : ∀ v, P (Amf3.writeAt depth d v) (Amf3.encode d v) (Amf3.nodes d v)) (w : Value0 d ⊕ Value3 d) :
    P (Sum.elim (writeAt depth d) (Amf3.writeAt depth d) w) (Sum.elim (encode d) (Amf3.encode d) w)
      (Sum.elim (nodes d) (Amf3.nodes d) w) := by
  cases w with
  | inl v => exact zero v
  | inr v => exact three v

theorem writes_writeAt {depth d : Nat} (inside : 0 < depth) (shallow : depth + d ≤ WriteBudget.eMaxDepth)
    (v : Value0 d) :
    Writes (writeAt depth d v) (encode d v) (nodes d v) := by
  induction d generalizing depth with
  | zero => nomatch v
  | succ d ih =>
    have each := each_inner (P := Writes) (d := d) (ih (Nat.succ_pos depth) (by omega))
      (Amf3.writes_writeAt (Nat.succ_pos depth) (by omega))
    have framed := (writes_frame .amf0Write inside (by omega)).seq (writes_emit (writeNode v) fun w _ => each w)
    rwa [List.nil_append] at framed

theorem write_spec {d : Nat} (shallow : d ≤ WriteBudget.eMaxDepth) (v : Value0 d) {e : Encoder}
    (unscoped : e.scopes = 0)
    (few : nodes d v ≤ WriteBudget.eMaxNodes) (short : (encode d v).length < WriteBudget.eMaxBytes) :
    ∃ e', Yields (write v) e () e' ∧ e'.buffer = e.buffer ++ encode d v := by
  cases d with
  | zero => nomatch v
  | succ d =>
    have each := each_inner (P := Writes) (d := d) (writes_writeAt Nat.one_pos (by omega))
      (Amf3.writes_writeAt Nat.one_pos (by omega))
    exact write_top each .amf0Write (writeNode v) unscoped few short

end Amf0

/-- Where the writer succeeds, it has appended those bytes and charged those values. -/
def Appends (m : Encode Unit) (bytes : Bytes) (cost : Nat) : Prop :=
  ∀ ⦃e e'⦄, Yields m e () e' → e' = e.after bytes cost

/-- Where the writer succeeds once, it appends those bytes wherever there is room. -/
def Repeats (m : Encode Unit) (bytes : Bytes) (cost : Nat) : Prop := ∀ ⦃e e'⦄, Yields m e () e' → Writes m bytes cost

/-- The writer appends those bytes in an open scope with room for them. -/
def ScopeWrites (m : Encode Unit) (bytes : Bytes) (cost : Nat) : Prop :=
  ∀ ⦃e⦄, e.scopes ≠ 0 → e.Room bytes cost → Yields m e () (e.after bytes cost)

/-- The writer appends those bytes wherever it is: it asks for no budget. -/
def AlwaysWrites (m : Encode Unit) (bytes : Bytes) (cost : Nat) : Prop := ∀ e, Yields m e () (e.after bytes cost)

/-- What is known of writers goes over to what is made of them. -/
structure WriterRules (W : Encode Unit → Bytes → Nat → Prop) : Prop where
  done : W (return ()) [] 0
  append : ∀ bytes, W (append bytes) bytes 0
  seq : ∀ {m m' b b' n n'}, W m b n → W m' b' n' → W (do m; m') (b ++ b') (n + n')
  lengthPrefixed : ∀ {m b n}, W m b n → W (lengthPrefixed m) (u32Be (UInt32.ofNat b.length) ++ b) n

section
variable {m m' : Encode Unit} {b b' : Bytes} {n n' : Nat} {e e' : Encoder} {refusal : AmfError} {depth : Nat}

theorem Appends.seq (first : Appends m b n) (second : Appends m' b' n') : Appends (do m; m') (b ++ b') (n + n') := by
  intro e e' run
  obtain ⟨_, t, one, two⟩ := yields_bind.mp run
  rw [second two, first one, Encoder.after_after]

theorem appends_append (bytes : Bytes) : Appends (append bytes) bytes 0 := by
  intro e e' run
  rw [yields_modify.mp run]
  rfl

theorem Writes.inScope (writes : Writes m b n) : ScopeWrites m b n := fun _ _ room => writes room

theorem ScopeWrites.seq (first : ScopeWrites m b n) (second : ScopeWrites m' b' n') :
    ScopeWrites (do m; m') (b ++ b') (n + n') := by
  intro e inside room
  obtain ⟨before, after⟩ := room.split
  exact yields_bind.mpr ⟨(), _, first inside before, e.after_after b b' n n' ▸ second inside after⟩

/-- The length in front of a body is the one of what the body has written. -/
theorem yields_lengthPrefixed (run : Yields m (e.after (u32Be 0) 0) () ((e.after (u32Be 0) 0).after b n)) :
    Yields (lengthPrefixed m) e () (e.after (u32Be (UInt32.ofNat b.length) ++ b) n) := by
  let written := (e.after (u32Be 0) 0).after b n
  have length : written.buffer.length - e.buffer.length - 4 = b.length := by
    simp only [written, Encoder.after, List.length_append, length_u32Be]
    omega
  refine yields_bind.mpr ⟨e, e, yields_get.mpr ⟨rfl, rfl⟩, ?_⟩
  refine yields_bind.mpr ⟨(), e.after (u32Be 0) 0, yields_modify.mpr rfl, ?_⟩
  refine yields_bind.mpr ⟨(), written, run, ?_⟩
  refine yields_bind.mpr ⟨written, written, yields_get.mpr ⟨rfl, rfl⟩, yields_modify.mpr ?_⟩
  rw [length]
  have kept : written.buffer.take e.buffer.length = e.buffer := by
    simp [written, Encoder.after]
  have rest : written.buffer.drop (e.buffer.length + 4) = b := by
    have slot : (e.buffer ++ u32Be 0).length = e.buffer.length + 4 := by rw [List.length_append, length_u32Be]
    show (e.buffer ++ u32Be 0 ++ b).drop _ = b
    rw [← slot, List.drop_left]
  rw [length_u32Be, kept, rest, List.append_assoc]
  rfl

theorem ScopeWrites.lengthPrefixed (body : ScopeWrites m b n) :
    ScopeWrites (lengthPrefixed m) (u32Be (UInt32.ofNat b.length) ++ b) n := by
  intro e inside room
  have reserved : e.Room (u32Be 0 ++ b) (0 + n) := by
    obtain ⟨start, size, nodes⟩ := room
    simp only [List.length_append, length_u32Be] at size
    refine ⟨start, ?_, (Nat.zero_add n).symm ▸ nodes⟩
    simp only [List.length_append, length_u32Be]
    exact size
  exact yields_lengthPrefixed (body inside reserved.split.2)

theorem yields_done : Yields (return () : Encode Unit) e () (e.after [] 0) := by
  simp only [Encoder.after, List.append_nil, Nat.add_zero]
  exact yields_pure.mpr ⟨rfl, rfl⟩

theorem scopeWrites_rules : WriterRules ScopeWrites where
  done _ _ _ := yields_done
  append bytes := (writes_append bytes).inScope
  seq := .seq
  lengthPrefixed := .lengthPrefixed

theorem alwaysWrites_rules : WriterRules AlwaysWrites where
  done _ := yields_done
  append _ _ := rfl
  seq first second e := yields_bind.mpr ⟨(), _, first e, e.after_after .. ▸ second _⟩
  lengthPrefixed body _ := yields_lengthPrefixed (body _)

/-- The outermost scope gives its body a budget of its own, of which only `b'` needs a share. -/
theorem yields_writeScope (body : ∀ ⦃e : Encoder⦄, e.scopes ≠ 0 → e.Room b' n → Yields m e () (e.after b n))
    (unscoped : e.scopes = 0) (short : b'.length < WriteBudget.eMaxBytes) (few : n ≤ WriteBudget.eMaxNodes) :
    Yields (writeScope m) e () { e with buffer := e.buffer ++ b, nodes := n, origin := e.buffer.length } := by
  let start : Encoder := { e with nodes := 0, origin := e.buffer.length, scopes := 1 }
  have room : start.Room b' n := ⟨Nat.le_refl _, Nat.add_lt_add_left short _, (Nat.zero_add n).symm ▸ few⟩
  have run := body (e := start) Nat.one_ne_zero room
  refine yields_guarded.mpr ⟨start.after b n, ?_, ?_⟩
  · refine yields_bind.mpr ⟨e, e, yields_get.mpr ⟨rfl, rfl⟩, ?_⟩
    rw [if_pos unscoped]
    refine yields_bind.mpr ⟨(), { e with nodes := 0, origin := e.buffer.length }, yields_modify.mpr rfl, ?_⟩
    refine yields_bind.mpr ⟨(), start, yields_modify.mpr ?_, run⟩
    simp only [start, unscoped]
  · simp only [start, Encoder.after, unscoped, Nat.zero_add, Nat.sub_self]

theorem yields_frame (framed : Yields (frame refusal depth) e () e') : depth + 1 ≤ WriteBudget.eMaxDepth ∧
    e' = if depth = 0 ∧ e.scopes = 0 then { e with nodes := 1, origin := e.buffer.length } else e.after [] 1 := by
  obtain ⟨seen, t, got, run⟩ := yields_bind.mp framed
  obtain ⟨rfl, rfl⟩ := yields_get.mp got
  -- the count and the check, from the state after the reset
  have counts {start : Encoder} (rest : Yields (do
      if depth + 1 > WriteBudget.eMaxDepth then throw refusal
      else
        modify fun s => { s with nodes := s.nodes + 1 }
        let s ← get
        if s.nodes ≤ WriteBudget.eMaxNodes ∧ s.emitted < WriteBudget.eMaxBytes then return else throw refusal :
          Encode Unit)
      start () e') : depth + 1 ≤ WriteBudget.eMaxDepth ∧ e' = { start with nodes := start.nodes + 1 } := by
    rcases yields_ite.mp rest with ⟨_, refused⟩ | ⟨shallow, rest⟩
    · exact absurd refused yields_throw
    · obtain ⟨_, counted, step, rest⟩ := yields_bind.mp rest
      obtain ⟨seen, t, got, rest⟩ := yields_bind.mp rest
      obtain ⟨rfl, rfl⟩ := yields_get.mp got
      rcases yields_ite.mp rest with ⟨_, passed⟩ | ⟨_, refused⟩
      · rw [(yields_pure.mp passed).2, yields_modify.mp step]
        exact ⟨not_lt.mp shallow, rfl⟩
      · exact absurd refused yields_throw
  by_cases top : depth = 0 ∧ t.scopes = 0
  · rw [if_pos top]
    simp only [if_pos top] at run
    obtain ⟨_, start, step, rest⟩ := yields_bind.mp run
    obtain ⟨shallow, same⟩ := counts rest
    rw [yields_modify.mp step] at same
    exact ⟨shallow, same⟩
  · rw [if_neg top]
    simp only [if_neg top] at run
    obtain ⟨shallow, same⟩ := counts run
    rw [same, Encoder.after, List.append_nil]
    exact ⟨shallow, rfl⟩

theorem appends_frame (inside : 0 < depth) : Appends (frame refusal depth) [] 1 := by
  intro e e' run
  rw [(yields_frame run).2, if_neg fun top => inside.ne' top.1]

variable {α : Type} {write : α → Encode Unit} {encode : α → Bytes} {cost : α → Nat} {parts : List (Part α)}

theorem appends_emit (each : ∀ x, Appends (write x) (encode x) (cost x)) :
    Appends (emit write parts) (Part.flatten encode parts) (Part.total cost parts) := by
  induction parts with
  | nil =>
    intro e e' run
    rw [(yields_pure.mp run).2]
    simp [Encoder.after, Part.flatten, Part.total]
  | cons part parts ih =>
    cases part with
    | bytes own =>
      have both := (appends_append own).seq ih
      rwa [Nat.zero_add] at both
    | value inner => exact (each inner).seq ih

theorem emit_each (run : Yields (emit write parts) e () e') {x : α} (member : .value x ∈ parts) :
    ∃ t t', Yields (write x) t () t' := by
  induction parts generalizing e with
  | nil => cases member
  | cons part parts ih =>
    cases part with
    | bytes own =>
      obtain ⟨_, t, _, rest⟩ := yields_bind.mp run
      exact ih rest ((List.mem_cons.mp member).resolve_left nofun)
    | value inner =>
      obtain ⟨_, t, here, rest⟩ := yields_bind.mp run
      rcases List.mem_cons.mp member with is | later
      · cases is
        exact ⟨e, t, here⟩
      · exact ih rest later

theorem repeats_emit (again : ∀ x, Repeats (write x) (encode x) (cost x)) :
    Repeats (emit write parts) (Part.flatten encode parts) (Part.total cost parts) := by
  refine fun e e' run => writes_emit parts fun x member => ?_
  obtain ⟨t, t', one⟩ := emit_each run member
  exact again x one

theorem repeats_framed (inside : 0 < depth) (again : ∀ x, Repeats (write x) (encode x) (cost x)) :
    Repeats (do frame refusal depth; emit write parts) (Part.flatten encode parts) (1 + Part.total cost parts) := by
  intro e e' run
  obtain ⟨_, t, framed, rest⟩ := yields_bind.mp run
  exact (writes_frame refusal inside (yields_frame framed).1).seq (repeats_emit again rest)

theorem top_of_yields (only : ∀ x, Appends (write x) (encode x) (cost x))
    (again : ∀ x, Repeats (write x) (encode x) (cost x)) (unscoped : e.scopes = 0)
    (run : Yields (do frame refusal 0; emit write parts) e () e') :
    e'.buffer = e.buffer ++ Part.flatten encode parts ∧ e'.nodes = 1 + Part.total cost parts ∧
      ScopeWrites (do frame refusal 0; emit write parts) (Part.flatten encode parts) (1 + Part.total cost parts) := by
  obtain ⟨_, t, framed, rest⟩ := yields_bind.mp run
  obtain ⟨shallow, same⟩ := yields_frame framed
  rw [if_pos ⟨rfl, unscoped⟩] at same
  have written := appends_emit only rest
  rw [same] at written
  refine ⟨congrArg Encoder.buffer written, congrArg Encoder.nodes written, ?_⟩
  have first : ScopeWrites (frame refusal 0) [] 1 := fun e inside room =>
    frame_keeps refusal shallow (fun top => inside top.2) room
  have both := first.seq (repeats_emit again rest).inScope
  rwa [List.nil_append] at both

end

namespace Amf3

theorem appends_writeAt {depth d : Nat} (inside : 0 < depth) (v : Value3 d) :
    Appends (writeAt depth d v) (encode d v) (nodes d v) := by
  induction d generalizing depth with
  | zero => nomatch v
  | succ d ih => exact (appends_frame inside).seq (appends_emit fun w => ih (Nat.succ_pos depth) w)

theorem repeats_writeAt {depth d : Nat} (inside : 0 < depth) (v : Value3 d) :
    Repeats (writeAt depth d v) (encode d v) (nodes d v) := by
  induction d generalizing depth with
  | zero => nomatch v
  | succ d ih => exact repeats_framed inside fun w => ih (Nat.succ_pos depth) w

end Amf3

namespace Amf0

theorem appends_writeAt {depth d : Nat} (inside : 0 < depth) (v : Value0 d) :
    Appends (writeAt depth d v) (encode d v) (nodes d v) := by
  induction d generalizing depth with
  | zero => nomatch v
  | succ d ih =>
    exact (appends_frame inside).seq
      (appends_emit (each_inner (ih (Nat.succ_pos depth)) (Amf3.appends_writeAt (Nat.succ_pos depth))))

theorem repeats_writeAt {depth d : Nat} (inside : 0 < depth) (v : Value0 d) :
    Repeats (writeAt depth d v) (encode d v) (nodes d v) := by
  induction d generalizing depth with
  | zero => nomatch v
  | succ d ih =>
    exact repeats_framed inside
      (each_inner (P := Repeats) (ih (Nat.succ_pos depth)) (Amf3.repeats_writeAt (Nat.succ_pos depth)))

/-- A value that was written on its own gave its encoding, and can be written in any open scope
with room for it. -/
theorem write_of_yields {d : Nat} {v : Value0 d} {e e' : Encoder} (unscoped : e.scopes = 0)
    (run : Yields (write v) e () e') : e'.buffer = e.buffer ++ encode d v ∧ e'.nodes = nodes d v ∧
      ScopeWrites (write v) (encode d v) (nodes d v) := by
  cases d with
  | zero => nomatch v
  | succ d =>
    exact top_of_yields (each_inner (appends_writeAt Nat.one_pos) (Amf3.appends_writeAt Nat.one_pos))
      (each_inner (P := Repeats) (repeats_writeAt Nat.one_pos) (Amf3.repeats_writeAt Nat.one_pos)) unscoped run

end Amf0

end Fms.Amf
