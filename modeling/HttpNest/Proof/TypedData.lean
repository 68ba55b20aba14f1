import HttpNest.Proof.BufferRefine
import HttpNest.Spec.BufferCalls

/-!
# Typed data through a buffer

Appending a list of values puts their bytes, in network order, behind what is readable
(`append_values`), prepending them in reverse puts the same bytes in front
(`addInFront_values`), and reading back value by value takes them off again
(`read_values`). The calls are followed in the byte-list model, so growth, compaction and
front insertion play no part here.
-/

namespace HttpNest

open ByteOrder EventRun MsgBuffer

namespace Value

theorem toNat_lt (w : Width) (v : BitVec (8 * w.bytes)) : v.toNat < 256 ^ w.bytes := by
  have h := v.isLt
  rwa [pow_mul] at h

variable {ι : Type} [DecidableEq ι] {s : Pool ι} {m : ListModel ι} (e : Endian) (i : ι)

/-! ## One value -/

theorem listStep_append (m : ListModel ι) (x : Value) :
    m.step (x.append i) = m.set i (m.buf i ++ x.bytes) := by
  cases x with
  | int w v => rfl
  | str s => rfl

theorem listStep_addInFront (m : ListModel ι) (x : Value) :
    m.step (x.addInFront i) = m.set i (x.bytes ++ m.buf i) := by
  cases x with
  | int w v => rfl
  | str s => rfl

/-- Reading a value whose bytes are in front gives the value. -/
theorem listStep_read {m : ListModel ι} {x : Value} {rest : Bytes}
    (h : m.buf i = x.bytes ++ rest) : m.step (x.read i) = (m.put x.output).set i rest := by
  cases x with
  | int w v =>
    have hlen : (beBytes w.bytes v.toNat).length = w.bytes := length_beBytes _ _
    simp only [bytes] at h
    simp only [read, ListModel.step, h, output]
    rw [List.take_left' hlen, List.drop_left' hlen, ofBE_beBytes (toNat_lt w v)]
  | str s =>
    simp only [bytes] at h
    simp only [read, ListModel.step, h, output]
    rw [List.take_left, List.drop_left]

omit [DecidableEq ι] in
/-- The assertion of the reading call holds where the value's bytes are in front. -/
theorem read_allowed (hR : Refines s m) {x : Value} {rest : Bytes}
    (h : m.buf i = x.bytes ++ rest) : (x.read i).Allowed s := by
  cases x with
  | int w v =>
    have hlen := length_readable (hR.inv i)
    rw [hR.readable i, h, bytes, List.length_append, length_beBytes] at hlen
    exact (Nat.le_add_right _ _).trans hlen.le
  | str s => exact trivial

/-! ## A list of values -/

omit [DecidableEq ι] in
theorem append_allowed (x : Value) : (x.append i).Allowed s := by
  cases x <;> exact trivial

omit [DecidableEq ι] in
theorem addInFront_allowed (x : Value) : (x.addInFront i).Allowed s := by
  cases x <;> exact trivial

theorem append_values : ∀ (vs : List Value) {s : Pool ι} {m : ListModel ι}, Refines s m →
    ∃ s' m', run (Op.step e) s (vs.map (append i)) = some s' ∧ Refines s' m' ∧
      m'.buf i = m.buf i ++ vs.flatMap bytes ∧ m'.out = m.out
  | [], s, m, hR => ⟨s, m, rfl, hR, by simp, rfl⟩
  | x :: vs, s, m, hR => by
    obtain ⟨u, hu, hRu⟩ := step_refines e s m _ hR (append_allowed i x)
    rw [listStep_append] at hRu
    obtain ⟨s', m', hs', hR', hbuf, hout⟩ := append_values vs hRu
    refine ⟨s', m', run_cons_eq_some.2 ⟨u, hu, hs'⟩, hR', ?_, hout⟩
    rw [hbuf, List.flatMap_cons, ← List.append_assoc]
    simp [ListModel.set]

theorem addInFront_values : ∀ (vs : List Value) {s : Pool ι} {m : ListModel ι}, Refines s m →
    ∃ s' m', run (Op.step e) s (vs.reverse.map (addInFront i)) = some s' ∧ Refines s' m' ∧
      m'.buf i = vs.flatMap bytes ++ m.buf i ∧ m'.out = m.out
  | [], s, m, hR => ⟨s, m, rfl, hR, by simp, rfl⟩
  | x :: vs, s, m, hR => by
    -- the first value is prepended last
    obtain ⟨u, m₁, hu, hRu, hbuf, hout⟩ := addInFront_values vs hR
    obtain ⟨s', hs', hR'⟩ := step_refines e u m₁ _ hRu (addInFront_allowed i x)
    rw [listStep_addInFront] at hR'
    refine ⟨s', _, ?_, hR', ?_, hout⟩
    · rw [List.reverse_cons, List.map_append]
      exact run_append.2 ⟨u, hu, run_cons_eq_some.2 ⟨s', hs', rfl⟩⟩
    · simp [ListModel.set, hbuf]

theorem read_values : ∀ (vs : List Value) {s : Pool ι} {m : ListModel ι}, Refines s m →
    m.buf i = vs.flatMap bytes → Meets (Op.step e) Op.Allowed s (vs.map (read i)) ∧
      ∃ s' m', run (Op.step e) s (vs.map (read i)) = some s' ∧ Refines s' m' ∧
        m'.buf i = [] ∧ m'.out = m.out ++ vs.map output
  | [], s, m, hR, h => ⟨trivial, s, m, rfl, hR, h, by simp⟩
  | x :: vs, s, m, hR, h => by
    rw [List.flatMap_cons] at h
    have hallowed := read_allowed i hR h
    obtain ⟨u, hu, hRu⟩ := step_refines e s m _ hR hallowed
    rw [listStep_read i h] at hRu
    have hrest : ((m.put x.output).set i (vs.flatMap bytes)).buf i = vs.flatMap bytes := by
      simp [ListModel.set]
    obtain ⟨hmeets, s', m', hs', hR', hbuf, hout⟩ := read_values vs hRu hrest
    refine ⟨⟨hallowed, ?_⟩, s', m', run_cons_eq_some.2 ⟨u, hu, hs'⟩, hR', hbuf, ?_⟩
    · intro t ht
      rw [hu] at ht
      cases ht
      exact hmeets
    · rw [hout, List.map_cons]
      simp [ListModel.set, ListModel.put]

end Value

variable {ι : Type} [DecidableEq ι] {s : Pool ι} {i : ι}

/-- **Typed data survives the buffer.** In every state that allowed calls reach, on a buffer
that is empty: appending a list of values makes exactly their bytes readable, integers in
network order whatever the machine's byte order; reading them back in the same order is
within the assertions, returns the values and empties the buffer; and prepending them in
reverse order makes the same bytes readable. `std::copy` on characters is taken as the `memmove`
that it is compiled to, where its ranges overlap too. -/
theorem typed_data_survives (e : Endian) {L : ι → ℕ} (hL : ∀ j, kBufferOffset ≤ L j)
    {ops : List (Op ι)} (ha : Meets (Op.step e) Op.Allowed (Pool.init L) ops)
    (hs : run (Op.step e) (Pool.init L) ops = some s) (hempty : (s.buf i).readableBytes = 0)
    (vs : List Value) :
    ∃ s₁, run (Op.step e) s (vs.map (Value.append i)) = some s₁ ∧
      (s₁.buf i).readable = vs.flatMap Value.bytes ∧
      Meets (Op.step e) Op.Allowed s₁ (vs.map (Value.read i)) ∧
      (∃ s₂, run (Op.step e) s₁ (vs.map (Value.read i)) = some s₂ ∧
        s₂.out = s.out ++ vs.map Value.output ∧ (s₂.buf i).readableBytes = 0) ∧
      ∃ s₃, run (Op.step e) s (vs.reverse.map (Value.addInFront i)) = some s₃ ∧
        (s₃.buf i).readable = vs.flatMap Value.bytes := by
  obtain ⟨s', hs', hR⟩ := run_sim Refines ListModel.step (step_refines e) (refines_init L hL) ha
  rw [hs] at hs'
  cases hs'
  set m := ops.foldl ListModel.step ListModel.init
  have hnil : m.buf i = [] := by
    rw [← hR.readable i, ← List.length_eq_zero_iff, length_readable (hR.inv i), hempty]
  obtain ⟨s₁, m₁, hs₁, hR₁, hbuf₁, hout₁⟩ := Value.append_values e i vs hR
  rw [hnil, List.nil_append] at hbuf₁
  obtain ⟨hmeets, s₂, m₂, hs₂, hR₂, hbuf₂, hout₂⟩ := Value.read_values e i vs hR₁ hbuf₁
  obtain ⟨s₃, m₃, hs₃, hR₃, hbuf₃, -⟩ := Value.addInFront_values e i vs hR
  rw [hnil, List.append_nil] at hbuf₃
  refine ⟨s₁, hs₁, (hR₁.readable i).trans hbuf₁, hmeets, ⟨s₂, hs₂, ?_, ?_⟩, s₃, hs₃,
    (hR₃.readable i).trans hbuf₃⟩
  · rw [hR₂.out, hout₂, hout₁, hR.out]
  · rw [← length_readable (hR₂.inv i), hR₂.readable i, hbuf₂, List.length_nil]

/-- A string and a sixteen-bit integer, after an earlier round. -/
theorem typed_data_survives_mixed :
    ∃ s s₁, run (Op.step .little) (Pool.init fun _ : Unit => 8)
        [.append () [7, 7], .read () 2] = some s ∧
      run (Op.step .little) s [.append () [1, 2], .appendInt .int16 () 258] = some s₁ ∧
      (s₁.buf ()).readable = [1, 2, 1, 2] := by
  have hmeets : Meets (Op.step .little) Op.Allowed (Pool.init fun _ : Unit => 8)
      [.append () [7, 7], .read () 2] := ⟨trivial, fun _ _ => ⟨trivial, fun _ _ => trivial⟩⟩
  obtain ⟨s₁, hs₁, hbytes, -⟩ := typed_data_survives (i := ()) .little (fun _ => le_rfl) hmeets rfl
    (by decide) [.str [1, 2], .int .int16 258]
  exact ⟨_, s₁, rfl, hs₁, hbytes.trans (by decide)⟩

end HttpNest
