import HttpNest.Proof.MsgBuffer
import HttpNest.Spec.BufferOps

/-!
# Operation sequences refine the byte-list model

`Refines s m`: every buffer of the family keeps its invariant and reads as its byte
list, and the same values have been read. `step_refines` is the step of the
simulation, one case for each operation, and `msgBuffer_refines` the statement
about whole sequences.
-/

namespace HttpNest

open ByteOrder MsgBuffer EventRun

variable {ι : Type}

/-- The buffers are well formed and read as the lists. -/
structure Refines (s : Pool ι) (m : ListModel ι) : Prop where
  inv : ∀ i, (s.buf i).Inv
  readable : ∀ i, (s.buf i).readable = m.buf i
  out : s.out = m.out

variable {s : Pool ι} {m : ListModel ι}

theorem refines_init (L : ι → ℕ) (hL : ∀ i, kBufferOffset ≤ L i) :
    Refines (Pool.init L) ListModel.init :=
  ⟨fun i => new_inv (hL i), fun i => readable_new (L i), rfl⟩

theorem Refines.put (h : Refines s m) {o o' : Output} (ho : o = o') :
    Refines (s.put o) (m.put o') :=
  ⟨h.inv, h.readable, by simp [Pool.put, ListModel.put, h.out, ho]⟩

theorem appendWidth_eq (A : SizeArith) (e : Endian) (w : Width) (b : MsgBuffer) (v : ℕ) :
    A.appendWidth e w b v = A.append b (beBytes w.bytes v) := by
  cases w with
  | int8 => rw [SizeArith.appendWidth, SizeArith.appendInt8, store_one]; rfl
  | int16 => exact appendInt_eq A e 2 b v
  | int32 => exact appendInt_eq A e 4 b v
  | int64 => exact appendInt_eq A e 8 b v

theorem addInFrontWidth_eq (A : SizeArith) (e : Endian) (w : Width) (b : MsgBuffer) (v : ℕ) :
    A.addInFrontWidth e w b v = A.addInFront b (beBytes w.bytes v) := by
  cases w with
  | int8 => rw [SizeArith.addInFrontWidth, SizeArith.addInFrontInt8, store_one]; rfl
  | int16 => exact addInFrontInt_eq A e 2 b v
  | int32 => exact addInFrontInt_eq A e 4 b v
  | int64 => exact addInFrontInt_eq A e 8 b v

theorem readWidth_eq (e : Endian) (w : Width) {b : MsgBuffer} (h : b.Inv)
    (hw : w.bytes ≤ b.readableBytes) :
    readWidth e w b = (ofBE (b.readable.take w.bytes), b.retrieve w.bytes) := by
  cases w with
  | int8 => exact congrArg (·, b.retrieve 1) (peekInt8_eq e h hw)
  | int16 => exact congrArg (·, b.retrieve 2) (peekInt_eq e h (show 2 ≤ _ from hw))
  | int32 => exact congrArg (·, b.retrieve 4) (peekInt_eq e h (show 4 ≤ _ from hw))
  | int64 => exact congrArg (·, b.retrieve 8) (peekInt_eq e h (show 8 ≤ _ from hw))

variable [DecidableEq ι]

/-- What holds of every buffer and of the new one holds when a buffer is replaced. -/
theorem Pool.forall_set {P : ι → MsgBuffer → Prop} (h : ∀ j, P j (s.buf j)) (i : ι)
    {b : MsgBuffer} (hb : P i b) : ∀ j, P j ((s.set i b).buf j) := by
  intro j
  by_cases hj : j = i
  · subst hj
    simpa [Pool.set] using hb
  · simpa [Pool.set, hj] using h j

/-- The buffer is replaced by what an operation returns. -/
theorem Pool.forall_map_set {P : ι → MsgBuffer → Prop} {t : Pool ι} (h : ∀ j, P j (s.buf j))
    (i : ι) {r : Option MsgBuffer} (hr : ∀ b, r = some b → P i b)
    (ht : r.map (s.set i) = some t) : ∀ j, P j (t.buf j) := by
  obtain ⟨b, hb, rfl⟩ := Option.map_eq_some_iff.1 ht
  exact Pool.forall_set h i (hr b hb)

theorem Refines.set (h : Refines s m) (i : ι) {b : MsgBuffer} {l : Bytes} (hb : b.Inv)
    (hl : b.readable = l) : Refines (s.set i b) (m.set i l) := by
  refine ⟨Pool.forall_set (P := fun _ => Inv) h.inv i hb, fun j => ?_, h.out⟩
  by_cases hj : j = i
  · subst hj; simpa [Pool.set, ListModel.set] using hl
  · simpa [Pool.set, ListModel.set, hj] using h.readable j

/-- Replacing a buffer by one with the same content is no step of the lists. -/
theorem Refines.set_same (h : Refines s m) (i : ι) {b : MsgBuffer} (hb : b.Inv)
    (hl : b.readable = (s.buf i).readable) : Refines (s.set i b) m := by
  have := h.set i hb (hl.trans (h.readable i))
  rwa [show m.set i (m.buf i) = m by simp [ListModel.set]] at this

/-- An operation that returns a new buffer for `i`. -/
theorem Refines.map_set (h : Refines s m) (i : ι) {r : Option MsgBuffer} {l : Bytes}
    (hr : ∃ b, r = some b ∧ b.Inv ∧ b.readable = l) :
    ∃ s', r.map (s.set i) = some s' ∧ Refines s' (m.set i l) := by
  obtain ⟨b, rfl, hb, hl⟩ := hr
  exact ⟨s.set i b, rfl, h.set i hb hl⟩

/-- **One allowed call**: it stays inside the vectors and does to the readable bytes
what the list model does. -/
theorem step_refines (e : Endian) (s : Pool ι) (m : ListModel ι) (op : Op ι) (h : Refines s m)
    (ha : op.Allowed s) : ∃ s', op.step e s = some s' ∧ Refines s' (m.step op) := by
  cases op with
  | append i buf =>
    exact h.map_set i (h.readable i ▸ append_spec (h.inv i) buf)
  | appendBuffer i j =>
    exact h.map_set i (h.readable i ▸ h.readable j ▸ append_spec (h.inv i) _)
  | appendInt w i v =>
    simp only [Op.step, SizeArith.step, appendWidth_eq]
    exact h.map_set i (h.readable i ▸ append_spec (h.inv i) _)
  | addInFront i buf =>
    exact h.map_set i (h.readable i ▸ addInFront_spec (h.inv i) buf)
  | addInFrontInt w i v =>
    simp only [Op.step, SizeArith.step, addInFrontWidth_eq]
    exact h.map_set i (h.readable i ▸ addInFront_spec (h.inv i) _)
  | retrieve i len =>
    obtain ⟨hi, hr⟩ := retrieve_spec (h.inv i) len
    exact ⟨_, rfl, h.set i hi (hr.trans (by rw [h.readable]))⟩
  | retrieveUntil i offset =>
    obtain ⟨hi, hr⟩ := retrieveUntil_spec (h.inv i) offset
    exact ⟨_, rfl, h.set i hi (hr.trans (by rw [h.readable]))⟩
  | retrieveAll i =>
    obtain ⟨hi, hr⟩ := retrieveAll_spec (h.inv i)
    exact ⟨_, rfl, h.set i hi hr⟩
  | read i len =>
    obtain ⟨hi, ho, hr⟩ := read_spec (h.inv i) len
    exact ⟨_, rfl, (h.put (congrArg _ (ho.trans (by rw [h.readable])))).set i hi
      (hr.trans (by rw [h.readable]))⟩
  | readInt w i =>
    obtain ⟨hi, hr⟩ := retrieve_spec (h.inv i) w.bytes
    have hread := readWidth_eq e w (h.inv i) ha
    simp only [readWidth] at hread
    simp only [Op.step, SizeArith.step, hread]
    exact ⟨_, rfl, (h.put (by rw [h.readable])).set i hi (by rw [hr, h.readable])⟩
  | ensureWritableBytes i len =>
    obtain ⟨b, hb, hi, -, hr⟩ := ensureWritableBytes_spec (h.inv i) len
    exact ⟨s.set i b, Option.map_eq_some_iff.2 ⟨b, hb, rfl⟩, h.set_same i hi hr⟩
  | hasWritten i buf =>
    obtain ⟨b, hb, hi, hr⟩ := hasWritten_spec (h.inv i) ha
    exact ⟨_, Option.map_eq_some_iff.2 ⟨b, hb, rfl⟩, h.set i hi (hr.trans (by rw [h.readable]))⟩
  | unwrite i offset =>
    obtain ⟨hi, hr⟩ := unwrite_spec (h.inv i) ha
    exact ⟨_, rfl, h.set i hi (hr.trans (by rw [h.readable]))⟩
  | swap i j =>
    exact ⟨_, rfl, (h.set i (h.inv j) (h.readable j)).set j (h.inv i) (h.readable i)⟩
  | readFd i data =>
    obtain ⟨hoff, hcount⟩ : data.length ≤ (s.buf i).offered ∧ data.length < 2 ^ 31 := ha
    obtain ⟨b, hb, hi, hr⟩ := readFd_spec (h.inv i) hoff hcount
    have hmap : (SizeArith.exact.readFd (s.buf i) data).map (s.set i) = some (s.set i b) :=
      Option.map_eq_some_iff.2 ⟨b, hb, rfl⟩
    exact ⟨s.set i b, hmap, h.set i hi (hr.trans (by rw [h.readable]))⟩
  | readFdError i => exact ⟨s, rfl, h⟩

/-- **A message buffer is a byte list.** Whatever calls are made within their
assertions on buffers of constructor length at least `8`, at every moment no call
has written outside a vector, `head_ <= tail_ <= buffer_.size()` holds, the readable
bytes and all values read are the list model's, and `EnsureWritableBytes` would make
the room it is asked for and change no readable byte. -/
theorem msgBuffer_refines (e : Endian) (L : ι → ℕ) (hL : ∀ i, kBufferOffset ≤ L i)
    (ops : List (Op ι)) (ha : Meets (Op.step e) Op.Allowed (Pool.init L) ops)
    {pre : List (Op ι)} (hpre : pre <+: ops) :
    ∃ s, run (Op.step e) (Pool.init L) pre = some s ∧
      s.out = (pre.foldl ListModel.step ListModel.init).out ∧
      ∀ i, (s.buf i).head ≤ (s.buf i).tail ∧ (s.buf i).tail ≤ (s.buf i).buffer.length ∧
        (s.buf i).readable = (pre.foldl ListModel.step ListModel.init).buf i ∧
        ∀ n, ∃ b, (s.buf i).ensureWritableBytes n = some b ∧ n ≤ b.writableBytes ∧
          b.readable = (s.buf i).readable := by
  obtain ⟨rest, rfl⟩ := hpre
  obtain ⟨s, hs, hR⟩ := run_sim Refines ListModel.step (step_refines e) (refines_init L hL)
    ha.append_left
  refine ⟨s, hs, hR.out, fun i => ⟨(hR.inv i).head_le, (hR.inv i).tail_le, hR.readable i, ?_⟩⟩
  intro n
  obtain ⟨b, hb, -, hroom, hread⟩ := ensureWritableBytes_spec (hR.inv i) n
  exact ⟨b, hb, hroom, hread⟩

/-- Prepending into the reserved front, reading an integer and dropping the last byte. -/
theorem msgBuffer_refines_mixed :
    ∃ s, run (Op.step .little) (Pool.init fun _ : Unit => 8)
        [.append () [1, 2, 3], .addInFrontInt .int16 () 258, .readInt .int8 (), .unwrite () 1] =
          some s ∧
      s.out = [.int 1] ∧ (s.buf ()).readable = [2, 1, 2] := by
  have hmeets : Meets (Op.step .little) Op.Allowed (Pool.init fun _ : Unit => 8)
      [.append () [1, 2, 3], .addInFrontInt .int16 () 258, .readInt .int8 (), .unwrite () 1] := by
    refine ⟨trivial, fun s₁ h₁ => ⟨trivial, fun s₂ h₂ => ?_⟩⟩
    cases h₁
    cases h₂
    refine ⟨by decide, fun s₃ h₃ => ⟨?_, fun _ _ => trivial⟩⟩
    cases h₃
    decide
  obtain ⟨s, hs, hout, hbuf⟩ :=
    msgBuffer_refines .little (fun _ => 8) (fun _ => le_rfl) _ hmeets (List.prefix_refl _)
  exact ⟨s, hs, hout.trans (by decide), (hbuf ()).2.2.1.trans (by decide)⟩

end HttpNest
