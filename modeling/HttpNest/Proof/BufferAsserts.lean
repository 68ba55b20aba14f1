import HttpNest.Proof.BufferMemory
import HttpNest.Spec.BufferCalls

/-!
# What the assertions of a buffer are enough for

An asserted call is safe if it reads readable bytes only and leaves
`head_ <= tail_ <= buffer_.size()`. On a buffer whose lengths have not wrapped around and that no
call has cut, the assertions are enough but for two calls (`asserts_suffice_iff`): `operator[]`
accepts the offset `ReadableBytes()`, one past the readable bytes, and emptying a buffer whose
`initCap_` is shorter than the reserved front cuts its vector below `head_`. After such a cut
(`not_safe_of_cut`), or on a buffer constructed with a length that wraps around
(`not_safe_of_wrapped`), no asserted call is safe.
-/

namespace HttpNest

open ByteOrder EventRun MsgBuffer

namespace MsgBuffer

variable {M : Machine} {b : MsgBuffer} {len : ℕ}

/-- Emptying a buffer whose `initCap_` is shorter than the reserved front leaves both ends
behind the end of the vector. -/
theorem Intact.length_retrieveAll_lt (h : b.Intact M) (hcap : b.initCap < kBufferOffset) :
    (SizeArith.sizeT.retrieveAll b).buffer.length < kBufferOffset := by
  have hsize := h.fitted
  unfold Fitted at hsize
  rw [h.retrieveAll_eq, MsgBuffer.retrieveAll_def, if_pos (by omega)]
  exact (Vec.length_resize ..).trans_lt hcap

/-- A retrieve stays within the vector exactly if it does not cut it. -/
theorem Intact.retrieve_bounded_iff (h : b.Intact M) :
    (SizeArith.sizeT.retrieve b len).Bounded ↔
      ¬ (b.readableBytes ≤ len ∧ b.initCap < kBufferOffset) := by
  constructor
  · rintro hb ⟨hall, hcap⟩
    have htail := hb.tail_le
    rw [SizeArith.retrieve, if_pos (h.readableBytes_eq.trans_le hall)] at htail
    exact absurd htail (not_le.2 (h.length_retrieveAll_lt hcap))
  · intro hc
    exact (h.retrieve fun hall => not_lt.1 fun hlt => hc ⟨hall, hlt⟩).1.bounded

end MsgBuffer

namespace Accessor

variable {M : Machine} {b : MsgBuffer}

/-- The call reads between `head_` and `tail_` only, and leaves the buffer in order. -/
def Safe (e : Endian) (b : MsgBuffer) (a : Accessor) : Prop :=
  (∀ p ∈ a.reads b, b.head ≤ p ∧ p < b.tail) ∧ (a.after e b).Bounded

/-- The call empties a buffer whose `initCap_` is shorter than the reserved front. -/
def Cuts (b : MsgBuffer) : Accessor → Prop
  | readInt w => SizeArith.sizeT.readableBytes b ≤ w.bytes ∧ b.initCap < kBufferOffset
  | retrieveUntil pos => b.tail ≤ pos ∧ b.initCap < kBufferOffset
  | peekInt _ | index _ | hasWritten _ | unwrite _ => False

/-- **One call.** Where nothing has been cut, an asserted call is safe unless it is
`operator[]` at `ReadableBytes()` or cuts the vector itself. -/
theorem safe_iff (e : Endian) (h : b.Intact M) {a : Accessor} (ha : a.Asserts b) :
    a.Safe e b ↔ a ≠ .index (SizeArith.sizeT.readableBytes b) ∧ ¬ a.Cuts b := by
  have hhead := h.bounded.head_le
  have htail := h.bounded.tail_le
  have hsize := h.size_lt
  have hreadable := h.readableBytes_eq
  rw [MsgBuffer.readableBytes_def] at hreadable
  unfold Safe
  cases a with
  | peekInt w =>
    have hasserts : SizeArith.sizeT.readableBytes b ≥ w.bytes := ha
    refine iff_of_true ⟨fun p hp => ?_, h.bounded⟩ ⟨fun hn => (by cases hn), id⟩
    have hrange := List.mem_range'_1.1 hp
    omega
  | readInt w =>
    have hasserts : SizeArith.sizeT.readableBytes b ≥ w.bytes := ha
    have hreads : ∀ p ∈ (readInt w).reads b, b.head ≤ p ∧ p < b.tail := by
      intro p hp
      have hrange := List.mem_range'_1.1 hp
      omega
    rw [after, snd_readWidth, h.retrieve_bounded_iff, ← h.readableBytes_eq]
    exact ⟨fun hs => ⟨fun hn => (by cases hn), hs.2⟩, fun hs => ⟨hreads, hs.2⟩⟩
  | index offset =>
    have hasserts : SizeArith.sizeT.readableBytes b ≥ offset := ha
    constructor
    · rintro ⟨hreads, -⟩
      have hlt := (hreads _ (List.mem_singleton_self _)).2
      refine ⟨fun hn => ?_, id⟩
      -- the assertion lets the position of `tail_` through
      have hoffset : offset = SizeArith.sizeT.readableBytes b := Accessor.index.inj hn
      omega
    · rintro ⟨hne, -⟩
      refine ⟨fun p hp => ?_, h.bounded⟩
      have hoffset : offset ≠ SizeArith.sizeT.readableBytes b := fun hn => hne (congrArg _ hn)
      rw [List.mem_singleton.1 hp]
      omega
  | retrieveUntil pos =>
    obtain ⟨hle, hpos⟩ : b.head ≤ pos ∧ pos ≤ b.tail := ha
    have hcuts : b.readableBytes ≤ pos - b.head ↔ b.tail ≤ pos := by
      rw [MsgBuffer.readableBytes_def]
      omega
    rw [after, SizeArith.retrieveUntil, h.retrieve_bounded_iff, hcuts]
    refine ⟨fun hs => ⟨fun hn => (by cases hn), hs.2⟩, fun hs => ⟨fun p hp => ?_, hs.2⟩⟩
    cases hp
  | hasWritten len =>
    have hasserts : len ≤ SizeArith.sizeT.writableBytes b := ha
    rw [h.writableBytes_eq, writableBytes_def] at hasserts
    refine iff_of_true ⟨fun p hp => (by cases hp), ?_⟩ ⟨fun hn => (by cases hn), id⟩
    rw [after, SizeArith.hasWritten, sizeT_add (by omega)]
    exact ⟨hhead.trans (Nat.le_add_right _ _), by simp only; omega⟩
  | unwrite offset =>
    have hasserts : SizeArith.sizeT.readableBytes b ≥ offset := ha
    refine iff_of_true ⟨fun p hp => (by cases hp), ?_⟩ ⟨fun hn => (by cases hn), id⟩
    rw [after, SizeArith.unwrite, sizeT_sub (by omega) (by omega)]
    exact ⟨by simp only; omega, by simp only; omega⟩

/-- A buffer whose ends are behind its vector stays so. -/
theorem not_safe_of_behind (e : Endian) (hhead : b.head = kBufferOffset)
    (htail : b.tail = kBufferOffset) (hlen : b.buffer.length < kBufferOffset)
    (hcap : b.initCap < kBufferOffset ∨ b.buffer.length ≤ SizeArith.sizeT.mul b.initCap 2)
    (a : Accessor) : ¬ a.Safe e b := by
  have hretrieve : ∀ n, ¬ (SizeArith.sizeT.retrieve b n).Bounded := by
    intro n hb
    have hnil : SizeArith.sizeT.readableBytes b = 0 := by
      rw [SizeArith.readableBytes, hhead, htail]
      rfl
    have hle := hb.head_le.trans hb.tail_le
    rw [SizeArith.retrieve, if_pos (hnil.trans_le (Nat.zero_le n)), SizeArith.retrieveAll] at hle
    simp only at hle
    split_ifs at hle with hcut
    · rw [Vec.length_resize] at hle
      omega
    · omega
  rintro ⟨-, hb⟩
  have hle := hb.head_le.trans hb.tail_le
  cases a with
  | peekInt w => exact absurd hle (by rw [after, hhead]; omega)
  | index offset => exact absurd hle (by rw [after, hhead]; omega)
  | readInt w =>
    rw [after, snd_readWidth] at hb
    exact hretrieve _ hb
  | retrieveUntil pos => exact hretrieve _ hb
  | hasWritten len => exact absurd hle (by simp only [after, SizeArith.hasWritten]; omega)
  | unwrite offset => exact absurd hle (by simp only [after, SizeArith.unwrite]; omega)

end Accessor

/-! ## Reachable buffers -/

variable {ι : Type} [DecidableEq ι] {e : Endian} {M : Machine} {L : ι → ℕ} {ops : List (Op ι)}
  {s t : Pool ι} {op : Op ι}

/-- **Calls that neither cut a buffer nor wrap around stay inside the vectors**, and leave every
buffer intact. -/
theorem intact_run (hL : M.Constructs L) (hwrap : ∀ i, L i + kBufferOffset < 2 ^ 64)
    (ha : Meets (M.step e) M.Allowed (SizeArith.sizeT.init L) ops)
    (hc : Meets (M.step e) (fun s op => ¬ op.Cuts s ∧ ¬ op.Wraps s) (SizeArith.sizeT.init L) ops) :
    ∃ s, run (M.step e) (SizeArith.sizeT.init L) ops = some s ∧ ∀ j, (s.buf j).Intact M := by
  have hstep : ∀ (s : Pool ι) (u : Unit) (op : Op ι), (∀ j, (s.buf j).Intact M) →
      M.Allowed s op ∧ ¬ op.Cuts s ∧ ¬ op.Wraps s →
        ∃ t, M.step e s op = some t ∧ ∀ j, (t.buf j).Intact M := by
    rintro s - op h ⟨hallowed, hcut, hwraps⟩
    obtain ⟨t, ht⟩ := exists_step (e := e) h hallowed hwraps
    exact ⟨t, ht, intact_step h hallowed hcut ht⟩
  exact run_sim (fun s (_ : Unit) => ∀ j, (s.buf j).Intact M) (fun _ _ => ()) hstep
    (t := ()) (intact_init hL hwrap) (ha.and hc)

/-- **After a call that cuts a buffer no asserted call on it is safe.** -/
theorem not_safe_of_cut (hs : ∀ j, (s.buf j).Intact M) (hop : op.Cuts s)
    (ht : M.step e s op = some t) : ∃ i, ∀ a : Accessor, ¬ a.Safe e (t.buf i) := by
  have hempty : ∀ {u : Pool ι} {i : ι} {len : ℕ}, u.buf i = s.buf i →
      SizeArith.sizeT.readableBytes (s.buf i) ≤ len → (s.buf i).initCap < kBufferOffset →
      ∀ a : Accessor,
        ¬ a.Safe e ((u.set i (SizeArith.sizeT.retrieve (s.buf i) len)).buf i) := by
    intro u i len _ hall hcap
    have hlen := (hs i).length_retrieveAll_lt hcap
    refine Accessor.not_safe_of_behind e ?_ ?_ ?_ (.inl ?_) <;>
      simp only [Pool.set, Function.update_self, SizeArith.retrieve, if_pos hall]
    · rfl
    · rfl
    · exact hlen
    · exact hcap
  unfold Machine.step at ht
  cases op with
  | retrieve i len =>
    cases ht
    exact ⟨i, hempty rfl hop.1 hop.2⟩
  | retrieveUntil i offset =>
    cases ht
    refine ⟨i, hempty rfl ?_ hop.2⟩
    rw [Nat.add_sub_cancel_left]
    exact hop.1
  | retrieveAll i =>
    cases ht
    refine ⟨i, ?_⟩
    have h := hempty (u := s) rfl le_rfl hop
    rwa [SizeArith.retrieve, if_pos le_rfl] at h
  | read i len =>
    cases ht
    refine ⟨i, hempty (u := s.put _) rfl ?_ hop.2⟩
    have hle : SizeArith.sizeT.readableBytes (s.buf i) ≤ len := hop.1
    split_ifs <;> omega
  | readInt w i =>
    cases ht
    refine ⟨i, ?_⟩
    rw [snd_readWidth]
    exact hempty (u := s.put _) rfl hop.1 hop.2
  | _ => exact absurd hop id

/-- **On a buffer whose constructor's length wraps around no asserted call is safe.** -/
theorem not_safe_of_wrapped (e : Endian) {len : ℕ} (hlen : len < 2 ^ 64)
    (hwrap : 2 ^ 64 ≤ len + kBufferOffset) (a : Accessor) :
    ¬ a.Safe e (SizeArith.sizeT.new len) := by
  have hoffset : kBufferOffset = 8 := rfl
  have hsize : (SizeArith.sizeT.new len).buffer.length = (len + kBufferOffset) % 2 ^ 64 :=
    List.length_replicate
  refine Accessor.not_safe_of_behind e rfl rfl (by omega) (.inr ?_) a
  show (SizeArith.sizeT.new len).buffer.length ≤ len * 2 % 2 ^ 64
  omega

/-- **When the assertions are enough.** Where no constructor's length wraps around, allowed calls
that neither empty a buffer whose `initCap_` is shorter than the reserved front nor wrap around
themselves stay inside the vectors. On every buffer that they reach, every call that passes its
assertion reads readable bytes only and leaves `head_ <= tail_ <= buffer_.size()` exactly if it
is not `operator[]` with the offset `ReadableBytes()` and does not itself empty such a
buffer. -/
theorem asserts_suffice_iff (hL : M.Constructs L) (hwrap : ∀ i, L i + kBufferOffset < 2 ^ 64)
    (ha : Meets (M.step e) M.Allowed (SizeArith.sizeT.init L) ops)
    (hc : Meets (M.step e) (fun s op => ¬ op.Cuts s ∧ ¬ op.Wraps s) (SizeArith.sizeT.init L) ops) :
    ∃ s, run (M.step e) (SizeArith.sizeT.init L) ops = some s ∧
      ∀ (i : ι) (a : Accessor), a.Asserts (s.buf i) → (a.Safe e (s.buf i) ↔
        a ≠ .index (SizeArith.sizeT.readableBytes (s.buf i)) ∧ ¬ a.Cuts (s.buf i)) := by
  obtain ⟨s, hs, hintact⟩ := intact_run hL hwrap ha hc
  exact ⟨s, hs, fun i _ hasserts => Accessor.safe_iff e (hintact i) hasserts⟩

/-- The last of three readable bytes. -/
theorem asserts_suffice_iff_last : ∃ s, run (Machine.userSpace.step .little)
      (SizeArith.sizeT.init fun _ : Unit => 8) [.append () [1, 2, 3]] = some s ∧
      (Accessor.index 2).Safe .little (s.buf ()) := by
  have hallowed : Meets (Machine.userSpace.step .little) Machine.userSpace.Allowed
      (SizeArith.sizeT.init fun _ : Unit => 8) [.append () [1, 2, 3]] :=
    ⟨⟨trivial, by decide⟩, fun _ _ => trivial⟩
  have huncut : Meets (Machine.userSpace.step .little) (fun s op => ¬ op.Cuts s ∧ ¬ op.Wraps s)
      (SizeArith.sizeT.init fun _ : Unit => 8) [.append () [1, 2, 3]] :=
    ⟨⟨id, id⟩, fun _ _ => trivial⟩
  obtain ⟨s, hs, hiff⟩ := asserts_suffice_iff (L := fun _ : Unit => 8) (by decide)
    (fun _ => by decide) hallowed huncut
  have hrun : run (Machine.userSpace.step .little) (SizeArith.sizeT.init fun _ : Unit => 8)
      [.append () [1, 2, 3]] = some _ := rfl
  rw [hs] at hrun
  cases hrun
  exact ⟨_, hs, (hiff () (.index 2) (by decide)).2 ⟨by decide, id⟩⟩

/-- A full vector: `operator[]` accepts the offset 8 and reads the byte after the vector. -/
theorem index_reads_past : ¬ ∀ (M : Machine) (L : Unit → ℕ) (ops : List (Op Unit)) (s : Pool Unit),
    M.Constructs L → Meets (M.step .little) M.Allowed (SizeArith.sizeT.init L) ops →
      run (M.step .little) (SizeArith.sizeT.init L) ops = some s →
      ∀ a : Accessor, a.Asserts (s.buf ()) → a.Safe .little (s.buf ()) := by
  intro h
  have hsafe := h .userSpace (fun _ => 8) [.append () [1, 2, 3, 4, 5, 6, 7, 8]] _ (by decide)
    ⟨⟨trivial, by decide⟩, fun _ _ => trivial⟩ rfl (.index 8) (by decide)
  have hlt := (hsafe.1 16 (by decide)).2
  revert hlt
  decide

end HttpNest
