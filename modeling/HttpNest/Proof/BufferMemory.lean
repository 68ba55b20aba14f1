import HttpNest.Proof.BufferVector

/-!
# Families of buffers in a bounded memory

A call keeps every buffer within its vector unless it empties one whose `initCap_` is shorter than
the reserved front (`intact_step`), and stays inside the vectors unless its sums wrap around
(`exists_step`). Where neither happens and nothing throws, a run is one of the exact model
(`run_eq_exact`).
-/

namespace HttpNest

open ByteOrder EventRun MsgBuffer

variable {ι : Type} [DecidableEq ι] {e : Endian} {M : Machine} {s t : Pool ι} {op : Op ι}

/-- The call empties a buffer whose `initCap_` is shorter than the reserved front. -/
def Op.Cuts (s : Pool ι) : Op ι → Prop
  | .retrieve i len =>
    SizeArith.sizeT.readableBytes (s.buf i) ≤ len ∧ (s.buf i).initCap < kBufferOffset
  | .retrieveUntil i offset =>
    SizeArith.sizeT.readableBytes (s.buf i) ≤ offset ∧ (s.buf i).initCap < kBufferOffset
  | .retrieveAll i => (s.buf i).initCap < kBufferOffset
  | .read i len =>
    SizeArith.sizeT.readableBytes (s.buf i) ≤ len ∧ (s.buf i).initCap < kBufferOffset
  | .readInt w i =>
    SizeArith.sizeT.readableBytes (s.buf i) ≤ w.bytes ∧ (s.buf i).initCap < kBufferOffset
  | .append _ _ | .appendBuffer _ _ | .appendInt _ _ _ | .addInFront _ _ | .addInFrontInt _ _ _
  | .ensureWritableBytes _ _ | .hasWritten _ _ | .unwrite _ _ | .swap _ _ | .readFd _ _
  | .readFdError _ => False

omit [DecidableEq ι] in
theorem Op.Cuts.exists_lt (h : op.Cuts s) : ∃ i, (s.buf i).initCap < kBufferOffset := by
  cases op with
  | retrieve i len => exact ⟨i, And.right h⟩
  | retrieveUntil i offset => exact ⟨i, And.right h⟩
  | retrieveAll i => exact ⟨i, h⟩
  | read i len => exact ⟨i, And.right h⟩
  | readInt w i => exact ⟨i, And.right h⟩
  | _ => exact absurd h id

theorem intact_set (h : ∀ j, (s.buf j).Intact M) (i : ι) {b : MsgBuffer} (hb : b.Intact M) :
    ∀ j, ((s.set i b).buf j).Intact M :=
  Pool.forall_set (P := fun _ => Intact M) h i hb

theorem intact_map_set (h : ∀ j, (s.buf j).Intact M) (i : ι) {r : Option MsgBuffer}
    (hr : ∀ b, r = some b → b.Intact M) (ht : r.map (s.set i) = some t) :
    ∀ j, (t.buf j).Intact M :=
  Pool.forall_map_set (P := fun _ => Intact M) h i hr ht

/-- A call that takes bytes from the front. -/
theorem intact_retrieve (h : ∀ j, (s.buf j).Intact M) (i : ι) {len : ℕ}
    (hc : ¬ ((s.buf i).readableBytes ≤ len ∧ (s.buf i).initCap < kBufferOffset)) :
    ∀ j, ((s.set i (SizeArith.sizeT.retrieve (s.buf i) len)).buf j).Intact M :=
  intact_set h i ((h i).retrieve fun hle => not_lt.1 fun hlt => hc ⟨hle, hlt⟩).1

/-- The length that `Read` takes is all of a shorter content. -/
theorem readableBytes_le_min {r len : ℕ} (h : r ≤ if len > r then r else len) : r ≤ len := by
  split_ifs at h <;> omega

theorem snd_readWidth (A : SizeArith) (e : Endian) (w : Width) (b : MsgBuffer) :
    (A.readWidth e w b).2 = A.retrieve b w.bytes := by
  cases w <;> rfl

/-- The sums of a call wrap around. -/
def Op.Wraps (s : Pool ι) : Op ι → Prop
  | .ensureWritableBytes i len => (s.buf i).WrapsFor len
  | _ => False

theorem exists_map_set (i : ι) {r : Option MsgBuffer} (h : ∃ b, r = some b) :
    ∃ t, r.map (s.set i) = some t := by
  obtain ⟨b, rfl⟩ := h
  exact ⟨_, rfl⟩

theorem exists_thrown (h : ∀ j, (s.buf j).Intact M) (ha : M.Allowed s op) :
    ∃ t, Machine.thrown s op = some t := by
  cases op with
  | readFd i data =>
    simp only [Machine.thrown]
    -- what does not throw has written the same bytes
    obtain ⟨hoff, hcount⟩ := (show _ ∧ _ from ha.1)
    obtain ⟨b, hb⟩ := (h i).exists_readFd hoff hcount
    rw [SizeArith.readFd] at hb
    obtain ⟨v, hv, -⟩ := Option.bind_eq_some_iff.1 hb
    rw [hv]
    exact ⟨_, rfl⟩
  | _ => exact ⟨s, rfl⟩

/-- **An allowed call stays inside the vectors** if its sums do not wrap around. -/
theorem exists_step (h : ∀ j, (s.buf j).Intact M) (ha : M.Allowed s op) (hw : ¬ op.Wraps s) :
    ∃ t, M.step e s op = some t := by
  unfold Machine.step
  split_ifs with hthrows
  · exact exists_thrown h ha
  cases op with
  | append i buf => exact exists_map_set i ((h i).exists_append (length_lt_of_le ha.2))
  | appendBuffer i j => exact exists_map_set i ((h i).exists_append (h j).readable_length_lt)
  | appendInt w i v =>
    simp only [SizeArith.step, appendWidth_eq]
    exact exists_map_set i ((h i).exists_append (length_beBytes_lt w v))
  | addInFront i buf => exact exists_map_set i ((h i).exists_addInFront (length_lt_of_le ha.2))
  | addInFrontInt w i v =>
    simp only [SizeArith.step, addInFrontWidth_eq]
    exact exists_map_set i ((h i).exists_addInFront (length_beBytes_lt w v))
  | ensureWritableBytes i len =>
    refine exists_map_set i (Option.ne_none_iff_exists'.1 fun hn => hw ?_)
    exact ((h i).ensure_eq_none_iff len).1 hn
  | hasWritten i buf =>
    have hroom : buf.length ≤ SizeArith.sizeT.writableBytes (s.buf i) := ha.1
    rw [(h i).writableBytes_eq] at hroom
    obtain ⟨b, hb, -⟩ := hasWritten_spec (h i).bounded.inv hroom
    exact ⟨_, Option.map_eq_some_iff.2 ⟨b, hb, rfl⟩⟩
  | readFd i data =>
    obtain ⟨hoff, hcount⟩ := (show _ ∧ _ from ha.1)
    simp only [SizeArith.step]
    exact exists_map_set i ((h i).exists_readFd hoff hcount)
  | _ => exact ⟨_, rfl⟩

theorem intact_thrown (h : ∀ j, (s.buf j).Intact M) (ht : Machine.thrown s op = some t) :
    ∀ j, (t.buf j).Intact M := by
  cases op with
  | readFd i data =>
    simp only [Machine.thrown] at ht
    obtain ⟨v, hv, rfl⟩ := Option.map_eq_some_iff.1 ht
    have hlen := Vec.length_write hv
    refine intact_set h i ⟨⟨?_, le_rfl⟩, hlen.trans (h i).fitted, hlen.le.trans (h i).size_le⟩
    rw [hlen]
    exact (h i).bounded.head_le.trans (h i).bounded.tail_le
  | _ =>
    cases ht
    exact h

/-- **A call keeps every buffer intact**, unless it empties one whose `initCap_` is shorter
than the reserved front. -/
theorem intact_step (h : ∀ j, (s.buf j).Intact M) (ha : M.Allowed s op) (hc : ¬ op.Cuts s)
    (ht : M.step e s op = some t) : ∀ j, (t.buf j).Intact M := by
  unfold Machine.step at ht
  split_ifs at ht with hthrows
  · exact intact_thrown h ht
  cases op with
  | append i buf =>
    have hlen := length_lt_of_le (show buf.length ≤ M.limit from ha.2)
    exact intact_map_set h i (fun b hb => ((h i).append_cases hlen hthrows hb).1) ht
  | appendBuffer i j =>
    have hlen := (h j).readable_length_lt
    exact intact_map_set h i (fun b hb => ((h i).append_cases hlen hthrows hb).1) ht
  | appendInt w i v =>
    simp only [SizeArith.step, appendWidth_eq] at ht
    rw [Machine.Throws, ← length_beBytes w.bytes v] at hthrows
    exact intact_map_set h i
      (fun b hb => ((h i).append_cases (length_beBytes_lt w v) hthrows hb).1) ht
  | addInFront i buf =>
    have hlen := length_lt_of_le (show buf.length ≤ M.limit from ha.2)
    exact intact_map_set h i (fun b hb => ((h i).addInFront_cases hlen hthrows hb).1) ht
  | addInFrontInt w i v =>
    simp only [SizeArith.step, addInFrontWidth_eq] at ht
    rw [Machine.Throws, ← length_beBytes w.bytes v] at hthrows
    exact intact_map_set h i
      (fun b hb => ((h i).addInFront_cases (length_beBytes_lt w v) hthrows hb).1) ht
  | ensureWritableBytes i len =>
    exact intact_map_set h i (fun b hb => ((h i).ensure_cases hthrows hb).1) ht
  -- what empties a buffer does not cut it
  | retrieve i len =>
    cases ht
    rw [Op.Cuts, (h i).readableBytes_eq] at hc
    exact intact_retrieve h i hc
  | retrieveUntil i offset =>
    cases ht
    rw [Op.Cuts, (h i).readableBytes_eq] at hc
    refine intact_retrieve h i ?_
    rw [Nat.add_sub_cancel_left]
    exact hc
  | retrieveAll i =>
    cases ht
    exact intact_set h i ((h i).retrieveAll (not_lt.1 hc)).1
  | read i len =>
    cases ht
    rw [Op.Cuts, (h i).readableBytes_eq] at hc
    refine intact_retrieve (s := s.put _) h i fun hn => hc ⟨readableBytes_le_min ?_, hn.2⟩
    rw [← (h i).readableBytes_eq]
    exact (h i).readableBytes_eq.le.trans hn.1
  | readInt w i =>
    cases ht
    rw [Op.Cuts, (h i).readableBytes_eq] at hc
    rw [snd_readWidth]
    exact intact_retrieve (s := s.put _) h i hc
  -- the ends move within the vector
  | hasWritten i buf =>
    obtain ⟨b, hb, rfl⟩ := Option.map_eq_some_iff.1 ht
    obtain ⟨v, hv, hb⟩ := Option.bind_eq_some_iff.1 hb
    cases hb
    have hle := (Vec.write_eq_some.1 hv).1
    have hsize := (h i).size_lt
    have hend := sizeT_add (show (s.buf i).tail + buf.length < 2 ^ 64 by omega)
    simp only [SizeArith.hasWritten, hend]
    exact intact_set h i ⟨(h i).bounded.write_tail hv, (Vec.length_write hv).trans (h i).fitted,
      (Vec.length_write hv).le.trans (h i).size_le⟩
  | unwrite i offset =>
    cases ht
    have hoffset : offset ≤ SizeArith.sizeT.readableBytes (s.buf i) := ha.1
    rw [(h i).readableBytes_eq, readableBytes_def] at hoffset
    have hhead := (h i).bounded.head_le
    have htail := (h i).bounded.tail_le
    have hsize := (h i).size_lt
    rw [SizeArith.unwrite, sizeT_sub (by omega) (by omega)]
    refine intact_set h i ⟨⟨?_, ?_⟩, (h i).fitted, (h i).size_le⟩
    · simp only
      omega
    · simp only
      omega
  | swap i j =>
    cases ht
    exact intact_set (intact_set h i (h j)) j (h i)
  | readFd i data =>
    simp only [SizeArith.step] at ht
    obtain ⟨-, hcount⟩ : data.length ≤ SizeArith.sizeT.offered (s.buf i) ∧ data.length < 2 ^ 31 :=
      ha.1
    exact intact_map_set h i (fun b hb => ((h i).readFd_cases hcount hthrows hb).1) ht
  | readFdError i =>
    cases ht
    exact h

omit [DecidableEq ι] in
theorem intact_init {L : ι → ℕ} (hL : M.Constructs L)
    (hwrap : ∀ i, L i + kBufferOffset < 2 ^ 64) :
    ∀ j, ((SizeArith.sizeT.init L).buf j).Intact M := by
  intro j
  have hfits := (hL j).2
  rw [sizeT_add (hwrap j)] at hfits
  have hnew : (SizeArith.sizeT.init L).buf j = new (L j) := sizeT_new (hwrap j)
  rw [hnew]
  exact ⟨bounded_new _, fitted_new _, (fitted_new _).le.trans hfits⟩

/-! ## The exact model -/

/-- No `EnsureWritableBytes` of half a `size_t` or more. -/
def Op.Small : Op ι → Prop
  | .ensureWritableBytes _ len => len < 2 ^ 63
  | _ => True

theorem map_set_congr (i : ι) {r r' : Option MsgBuffer} (h : r = r') :
    r.map (s.set i) = r'.map (s.set i) := by rw [h]

/-- **On intact buffers the sums of `size_t` are exact.** A call that does not throw does what
the model without a bound does. -/
theorem step_eq_exact (h : ∀ j, (s.buf j).Intact M) (ha : M.Allowed s op)
    (hthrows : ¬ M.Throws s op) (hsmall : op.Small) : M.step e s op = op.step e s := by
  rw [Machine.step, if_neg hthrows]
  -- `AddInFront` reserves one front less than `Append`
  have hfront : ∀ {i : ι} {n : ℕ}, n < 2 ^ 63 →
      n + (s.buf i).readableBytes + kBufferOffset < 2 ^ 64 := fun {i n} hn => by
    have := (h i).sum_lt hn
    omega
  cases op with
  | append i buf =>
    exact map_set_congr i ((h i).append_eq ((h i).sum_lt (length_lt_of_le ha.2)))
  | appendBuffer i j =>
    exact map_set_congr i ((h i).append_eq ((h i).sum_lt (h j).readable_length_lt))
  | appendInt w i v =>
    simp only [Op.step, SizeArith.step, appendWidth_eq]
    exact map_set_congr i ((h i).append_eq ((h i).sum_lt (length_beBytes_lt w v)))
  | addInFront i buf =>
    exact map_set_congr i ((h i).addInFront_eq (hfront (length_lt_of_le ha.2)))
  | addInFrontInt w i v =>
    simp only [Op.step, SizeArith.step, addInFrontWidth_eq]
    exact map_set_congr i ((h i).addInFront_eq (hfront (length_beBytes_lt w v)))
  | ensureWritableBytes i len =>
    exact map_set_congr i ((h i).ensureWritableBytes_eq ((h i).sum_lt hsmall))
  | retrieve i len => exact congrArg (fun b => some (s.set i b)) ((h i).retrieve_eq len)
  | retrieveUntil i offset => exact congrArg (fun b => some (s.set i b)) ((h i).retrieve_eq _)
  | retrieveAll i => exact congrArg (fun b => some (s.set i b)) (h i).retrieveAll_eq
  | read i len =>
    simp only [Op.step, SizeArith.step, (h i).read_eq]
    rfl
  | readInt w i =>
    simp only [Op.step, SizeArith.step, (h i).readWidth_eq]
    rfl
  | hasWritten i buf =>
    have hroom : buf.length ≤ SizeArith.sizeT.writableBytes (s.buf i) := ha.1
    rw [(h i).writableBytes_eq, writableBytes_def] at hroom
    have hsize := (h i).size_lt
    have htail := (h i).bounded.tail_le
    simp only [Op.step, SizeArith.step]
    rcases hb : (s.buf i).fill buf with _ | b
    · rfl
    · obtain ⟨v, -, hb⟩ := Option.bind_eq_some_iff.1 hb
      cases hb
      have hend := sizeT_add (show (s.buf i).tail + buf.length < 2 ^ 64 by omega)
      simp only [Option.map_some, SizeArith.hasWritten, hend]
      rfl
  | unwrite i offset =>
    have hoffset : offset ≤ SizeArith.sizeT.readableBytes (s.buf i) := ha.1
    rw [(h i).readableBytes_eq, readableBytes_def] at hoffset
    have hsize := (h i).size_lt
    have htail := (h i).bounded.tail_le
    simp only [Op.step, SizeArith.step, SizeArith.unwrite]
    rw [sizeT_sub (by omega) (by omega)]
    rfl
  | swap i j => rfl
  | readFd i data =>
    obtain ⟨-, hcount⟩ := (show _ ∧ _ from ha.1)
    simp only [Op.step, SizeArith.step]
    exact map_set_congr i ((h i).readFd_eq hcount)
  | readFdError i => rfl

/-- **A run in which nothing throws, cuts or wraps around is a run of the exact model.** -/
theorem run_eq_exact {L : ι → ℕ} {ops : List (Op ι)} (hL : M.Constructs L)
    (hwrap : ∀ i, L i + kBufferOffset < 2 ^ 64)
    (ha : Meets (M.step e) (fun s op => M.Allowed s op ∧ ¬ M.Throws s op ∧ ¬ op.Cuts s ∧ op.Small)
      (SizeArith.sizeT.init L) ops) :
    run (M.step e) (SizeArith.sizeT.init L) ops = run (Op.step e) (Pool.init L) ops := by
  have hinit : SizeArith.sizeT.init L = Pool.init L := by
    unfold SizeArith.init Pool.init SizeArith.init
    congr 1
    funext i
    exact sizeT_new (hwrap i)
  have hrun : ∀ {ops : List (Op ι)} {s : Pool ι}, (∀ j, (s.buf j).Intact M) →
      Meets (M.step e) (fun s op => M.Allowed s op ∧ ¬ M.Throws s op ∧ ¬ op.Cuts s ∧ op.Small)
        s ops → run (M.step e) s ops = run (Op.step e) s ops := by
    intro ops
    induction ops with
    | nil => exact fun _ _ => rfl
    | cons op ops ih =>
      rintro s hs ⟨⟨hallowed, hthrows, hcut, hsmall⟩, hrest⟩
      have heq := step_eq_exact (e := e) hs hallowed hthrows hsmall
      rw [run_cons, run_cons, ← heq]
      rcases ht : M.step e s op with _ | t
      · rfl
      · exact ih (intact_step hs hallowed hcut ht) (hrest t ht)
  rw [hrun (intact_init hL hwrap) ha, hinit]

end HttpNest
