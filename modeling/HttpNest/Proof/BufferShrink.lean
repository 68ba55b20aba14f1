import HttpNest.Proof.BufferMemory

/-!
# The memory that `RetrieveAll` gives back

`RetrieveAll` compares the vector with twice `initCap_`, but growing replaces both, so no
vector is ever cut and one large message keeps its memory. `Op.Fits` says which calls take no
memory that would have to come back and do not leave the vector, and `gives_back_iff` that exactly
these leave `RetrieveAll` within `max(2L, L + 8)`, where `L` is at least `8` and `L + 8` does not
wrap around.
-/

namespace HttpNest

open ByteOrder EventRun MsgBuffer

namespace MsgBuffer

variable {M : Machine} {b b' : MsgBuffer} {buf : Bytes} {len K : ℕ}

/-- Growing for `len` bytes throws, or keeps the vector within `K` bytes. -/
def RoomFor (M : Machine) (K : ℕ) (b : MsgBuffer) (len : ℕ) : Prop :=
  SizeArith.sizeT.Grows b len →
    M.TooLong b len ∨ SizeArith.sizeT.grownLen b len + kBufferOffset ≤ K

theorem GrownFor.roomFor_iff (h : GrownFor .sizeT b len b') (hshort : ¬ M.TooLong b len)
    (hb : b.buffer.length ≤ K) : RoomFor M K b len ↔ b'.buffer.length ≤ K := by
  rcases h with ⟨hg, hsame⟩ | ⟨hg, hnew⟩
  · rw [hsame.1]
    exact ⟨fun _ => hb, fun _ hg' => absurd hg' hg⟩
  · rw [hnew.1]
    exact ⟨fun hr => (hr hg).resolve_left hshort, fun hle _ => .inr hle⟩

/-- Prepending `len` bytes throws, or keeps the vector within `K` bytes. -/
def FrontRoomFor (M : Machine) (K : ℕ) (b : MsgBuffer) (len : ℕ) : Prop :=
  SizeArith.sizeT.FrontGrows b len →
    M.FrontTooLong b len ∨ SizeArith.sizeT.frontLen b len + kBufferOffset ≤ K

theorem Intact.frontRoomFor_iff (h : b.Intact M) (hlen : buf.length < 2 ^ 63)
    (hshort : ¬ M.FrontTooLong b buf.length) (hb : b.buffer.length ≤ K)
    (hb' : SizeArith.sizeT.addInFront b buf = some b') :
    FrontRoomFor M K b buf.length ↔ b'.buffer.length ≤ K := by
  obtain ⟨-, ⟨hg, hsame⟩ | ⟨hg, hnew⟩⟩ := h.addInFront_cases hlen hshort hb'
  · rw [hsame.1]
    exact ⟨fun _ => hb, fun _ hg' => absurd hg' hg⟩
  · rw [hnew.1]
    exact ⟨fun hr => (hr hg).resolve_left hshort, fun hle _ => .inr hle⟩

/-- A vector that is too long is not one whose length wraps around. -/
theorem Intact.not_wrapsFor_of_tooLong (h : b.Intact M) (hlong : M.TooLong b len) :
    ¬ b.WrapsFor len := by
  rintro (⟨hm, -⟩ | ⟨-, hwrap⟩)
  · exact absurd hm.2 (not_le.2 hlong.1.2)
  · have hlt := hlong.2
    have hfitted := h.fitted
    have hsize := h.size_le
    have hn := sizeT_grownLen_lt b len
    have hoffset : kBufferOffset = 8 := rfl
    have hadd : SizeArith.sizeT.add (SizeArith.sizeT.grownLen b len) kBufferOffset =
        (SizeArith.sizeT.grownLen b len + kBufferOffset) % 2 ^ 64 := rfl
    unfold Fitted at hfitted
    omega

/-- A vector is not replaced by a shorter one. -/
theorem Intact.cap_le_of_grownFor (h : b.Intact M)
    (hb' : b'.Intact M ∧ GrownFor .sizeT b len b') : b.initCap ≤ b'.initCap := by
  have hfitted := h.fitted
  have hfitted' := hb'.1.fitted
  unfold Fitted at hfitted hfitted'
  rcases hb'.2 with ⟨-, hsame⟩ | ⟨-, hnew⟩
  · exact hsame.2.ge
  · have hdouble := h.double_le_grownLen len
    rw [hnew.2]
    omega

end MsgBuffer

/-! ## Families of buffers -/

variable {ι : Type}

/-- Every vector is at most twice as long as its buffer was constructed for. -/
def Within (L : ι → ℕ) (s : Pool ι) : Prop := ∀ i, (s.buf i).buffer.length ≤ 2 * L i

/-- The call does not leave the vector, and takes none for a buffer that is more than twice as
long as the buffer was constructed for. -/
def Op.Fits (M : Machine) (L : ι → ℕ) (s : Pool ι) : Op ι → Prop
  | .append i buf => RoomFor M (2 * L i) (s.buf i) buf.length
  | .appendBuffer i j => RoomFor M (2 * L i) (s.buf i) (s.buf j).readable.length
  | .appendInt w i _ => RoomFor M (2 * L i) (s.buf i) w.bytes
  | .addInFront i buf => FrontRoomFor M (2 * L i) (s.buf i) buf.length
  | .addInFrontInt w i _ => FrontRoomFor M (2 * L i) (s.buf i) w.bytes
  | .ensureWritableBytes i len =>
    ¬ (s.buf i).WrapsFor len ∧ RoomFor M (2 * L i) (s.buf i) len
  | .swap i j =>
    (s.buf j).buffer.length ≤ 2 * L i ∧ (s.buf i).buffer.length ≤ 2 * L j
  | .readFd i data => SizeArith.sizeT.writableBytes (s.buf i) < data.length →
    RoomFor M (2 * L i) (s.buf i).filled
      (SizeArith.sizeT.sub data.length (SizeArith.sizeT.writableBytes (s.buf i)))
  | .retrieve _ _ | .retrieveUntil _ _ | .retrieveAll _ | .read _ _ | .readInt _ _
  | .hasWritten _ _ | .unwrite _ _ | .readFdError _ => True

/-- After a call that empties a buffer the ends are at the reserved front, which the vector
has, and the vector is at most `max(2L, L + 8)` bytes long. -/
def GivesBack (L : ι → ℕ) (s : Pool ι) : Prop :=
  ∀ i b, (b = SizeArith.sizeT.retrieveAll (s.buf i) ∨ ∃ len,
      SizeArith.sizeT.readableBytes (s.buf i) ≤ len ∧ b = SizeArith.sizeT.retrieve (s.buf i) len) →
    b.head = kBufferOffset ∧ b.tail = kBufferOffset ∧ kBufferOffset ≤ b.buffer.length ∧
      b.buffer.length ≤ max (2 * L i) (L i + kBufferOffset)

/-- What holds along a run of fitting calls. -/
structure Thrifty (M : Machine) (L : ι → ℕ) (s : Pool ι) : Prop where
  intact : ∀ j, (s.buf j).Intact M
  cap : ∀ j, kBufferOffset ≤ (s.buf j).initCap
  within : Within L s

variable {M : Machine} {L : ι → ℕ} {s t : Pool ι}

/-- Where no vector is cut, giving back is being within. -/
theorem givesBack_iff_within (hL : ∀ i, kBufferOffset ≤ L i) (hs : ∀ i, (s.buf i).Intact M)
    (hcap : ∀ i, kBufferOffset ≤ (s.buf i).initCap) : GivesBack L s ↔ Within L s := by
  constructor
  · intro h i
    have hle := (h i _ (.inl rfl)).2.2.2
    rw [((hs i).retrieveAll (hcap i)).2.1, max_eq_left (by have := hL i; omega)] at hle
    exact hle
  · intro h i b hb
    have hall : b = SizeArith.sizeT.retrieveAll (s.buf i) := by
      rcases hb with rfl | ⟨len, hlen, rfl⟩
      · rfl
      · rw [SizeArith.retrieve, if_pos hlen]
    have hsize := (hs i).fitted
    unfold Fitted at hsize
    rw [hall, ((hs i).retrieveAll (hcap i)).2.1]
    exact ⟨rfl, rfl, by omega, (h i).trans (le_max_left _ _)⟩

/-- A call that makes room for `len` bytes. -/
theorem Thrifty.grownFor (h : Thrifty M L s) (i : ι) {b : MsgBuffer} {len : ℕ}
    (hb : b.Intact M ∧ GrownFor .sizeT (s.buf i) len b) (hshort : ¬ M.TooLong (s.buf i) len) :
    kBufferOffset ≤ b.initCap ∧
      (RoomFor M (2 * L i) (s.buf i) len ↔ b.buffer.length ≤ 2 * L i) :=
  ⟨(h.cap i).trans ((h.intact i).cap_le_of_grownFor hb), hb.2.roomFor_iff hshort (h.within i)⟩

theorem Thrifty.addInFront (h : Thrifty M L s) (i : ι) {b : MsgBuffer} {buf : Bytes}
    (hlen : buf.length < 2 ^ 63) (hshort : ¬ M.FrontTooLong (s.buf i) buf.length)
    (hb : SizeArith.sizeT.addInFront (s.buf i) buf = some b) :
    kBufferOffset ≤ b.initCap ∧
      (FrontRoomFor M (2 * L i) (s.buf i) buf.length ↔ b.buffer.length ≤ 2 * L i) := by
  refine ⟨(h.cap i).trans ?_, (h.intact i).frontRoomFor_iff hlen hshort (h.within i) hb⟩
  obtain ⟨-, ⟨-, hsame⟩ | ⟨-, hnew⟩⟩ := (h.intact i).addInFront_cases hlen hshort hb
  · exact hsame.2.ge
  · rw [hnew.2]
    unfold SizeArith.frontLen
    split_ifs with hlt
    · exact le_rfl
    · exact not_lt.1 hlt

variable {op : Op ι}

theorem Op.Fits.not_wraps (h : op.Fits M L s) : ¬ op.Wraps s := by
  cases op with
  | ensureWritableBytes i len => exact And.left h
  | _ => exact id

theorem Thrifty.not_cuts (h : Thrifty M L s) : ¬ op.Cuts s := by
  intro hc
  obtain ⟨i, hi⟩ := hc.exists_lt
  exact absurd (h.cap i) (not_le.2 hi)

variable [DecidableEq ι] {e : Endian}

/-- One buffer is replaced: what holds of the caps and the lengths. -/
theorem Thrifty.set (h : Thrifty M L s) (i : ι) {b : MsgBuffer} {F : Prop}
    (hcap : kBufferOffset ≤ b.initCap) (hF : F ↔ b.buffer.length ≤ 2 * L i) :
    (∀ j, kBufferOffset ≤ ((s.set i b).buf j).initCap) ∧ (F ↔ Within L (s.set i b)) := by
  refine ⟨Pool.forall_set (P := fun _ b => kBufferOffset ≤ b.initCap) h.cap i hcap, ?_⟩
  rw [hF]
  constructor
  · intro hb
    exact Pool.forall_set (P := fun j b => b.buffer.length ≤ 2 * L j) h.within i hb
  · intro hw
    simpa [Pool.set] using hw i

/-- The buffer is replaced by what a call returns. -/
theorem Thrifty.map_set (h : Thrifty M L s) (i : ι) {r : Option MsgBuffer} {F : Prop}
    (hr : ∀ b, r = some b → kBufferOffset ≤ b.initCap ∧ (F ↔ b.buffer.length ≤ 2 * L i))
    (ht : r.map (s.set i) = some t) :
    (∀ j, kBufferOffset ≤ (t.buf j).initCap) ∧ (F ↔ Within L t) := by
  obtain ⟨b, hb, rfl⟩ := Option.map_eq_some_iff.1 ht
  exact h.set i (hr b hb).1 (hr b hb).2

/-- The buffer keeps its vector. -/
theorem Thrifty.set_same (h : Thrifty M L s) (i : ι) {b : MsgBuffer}
    (hb : SameVector (s.buf i) b) :
    (∀ j, kBufferOffset ≤ ((s.set i b).buf j).initCap) ∧ (True ↔ Within L (s.set i b)) :=
  h.set i (hb.2 ▸ h.cap i) (iff_of_true trivial (hb.1.le.trans (h.within i)))

/-- A call that throws fits, and keeps the vectors. -/
theorem Thrifty.thrown (h : Thrifty M L s) (hthrows : M.Throws s op)
    (ht : Machine.thrown s op = some t) :
    (∀ j, kBufferOffset ≤ (t.buf j).initCap) ∧ (op.Fits M L s ↔ Within L t) := by
  cases op with
  | readFd i data =>
    simp only [Machine.thrown] at ht
    obtain ⟨v, hv, rfl⟩ := Option.map_eq_some_iff.1 ht
    obtain ⟨hcap, hwithin⟩ := h.set_same i (b := { s.buf i with buffer := v, tail := v.length })
      ⟨Vec.length_write hv, rfl⟩
    exact ⟨hcap, iff_of_true (fun _ _ => .inl hthrows.2) (hwithin.1 trivial)⟩
  | append _ _ | appendBuffer _ _ | appendInt _ _ _ | addInFront _ _ | addInFrontInt _ _ _ =>
    cases ht
    exact ⟨h.cap, iff_of_true (fun _ => .inl hthrows) h.within⟩
  | ensureWritableBytes i len =>
    cases ht
    have hwraps := (h.intact i).not_wrapsFor_of_tooLong hthrows
    exact ⟨h.cap, iff_of_true ⟨hwraps, fun _ => .inl hthrows⟩ h.within⟩
  | _ => exact absurd hthrows id

/-- **A call leaves the vectors within their bounds exactly if it fits.** -/
theorem Thrifty.step (h : Thrifty M L s) (ha : M.Allowed s op) (ht : M.step e s op = some t) :
    (∀ j, kBufferOffset ≤ (t.buf j).initCap) ∧ (op.Fits M L s ↔ Within L t) := by
  unfold Machine.step at ht
  split_ifs at ht with hthrows
  · exact h.thrown hthrows ht
  cases op with
  | append i buf =>
    have hlen := length_lt_of_le (show buf.length ≤ M.limit from ha.2)
    exact h.map_set i (fun b hb => h.grownFor i
      ((h.intact i).append_cases hlen hthrows hb) hthrows) ht
  | appendBuffer i j =>
    have hlen := (h.intact j).readable_length_lt
    exact h.map_set i (fun b hb => h.grownFor i
      ((h.intact i).append_cases hlen hthrows hb) hthrows) ht
  | appendInt w i v =>
    simp only [SizeArith.step, appendWidth_eq] at ht
    rw [Machine.Throws, ← length_beBytes w.bytes v] at hthrows
    rw [Op.Fits, ← length_beBytes w.bytes v]
    exact h.map_set i (fun b hb => h.grownFor i
      ((h.intact i).append_cases (length_beBytes_lt w v) hthrows hb) hthrows) ht
  | addInFront i buf =>
    have hlen := length_lt_of_le (show buf.length ≤ M.limit from ha.2)
    exact h.map_set i (fun b hb => h.addInFront i hlen hthrows hb) ht
  | addInFrontInt w i v =>
    simp only [SizeArith.step, addInFrontWidth_eq] at ht
    rw [Machine.Throws, ← length_beBytes w.bytes v] at hthrows
    rw [Op.Fits, ← length_beBytes w.bytes v]
    exact h.map_set i (fun b hb => h.addInFront i (length_beBytes_lt w v) hthrows hb) ht
  | ensureWritableBytes i len =>
    refine h.map_set i (fun b hb => ?_) ht
    have hwraps : ¬ (s.buf i).WrapsFor len := by
      intro hw
      rw [((h.intact i).ensure_eq_none_iff len).2 hw] at hb
      cases hb
    simp only [Op.Fits, hwraps, not_false_eq_true, true_and]
    exact h.grownFor i ((h.intact i).ensure_cases hthrows hb) hthrows
  -- nothing is cut
  | retrieve i len =>
    cases ht
    exact h.set_same i ((h.intact i).retrieve fun _ => h.cap i).2
  | retrieveUntil i offset =>
    cases ht
    exact h.set_same i ((h.intact i).retrieve fun _ => h.cap i).2
  | retrieveAll i =>
    cases ht
    exact h.set_same i ((h.intact i).retrieveAll (h.cap i)).2
  | read i len =>
    cases ht
    exact h.set_same i ((h.intact i).retrieve fun _ => h.cap i).2
  | readInt w i =>
    cases ht
    rw [snd_readWidth]
    exact h.set_same i ((h.intact i).retrieve fun _ => h.cap i).2
  | hasWritten i buf =>
    obtain ⟨b, hb, rfl⟩ := Option.map_eq_some_iff.1 ht
    obtain ⟨v, hv, hb⟩ := Option.bind_eq_some_iff.1 hb
    cases hb
    exact h.set_same i ⟨Vec.length_write hv, rfl⟩
  | unwrite i offset =>
    cases ht
    exact h.set_same i ⟨rfl, rfl⟩
  -- each buffer gets the other's vector
  | swap i j =>
    cases ht
    refine ⟨Pool.forall_set (P := fun _ b => kBufferOffset ≤ b.initCap)
      (Pool.forall_set (P := fun _ b => kBufferOffset ≤ b.initCap) h.cap i (h.cap j)) j
        (h.cap i), ?_⟩
    constructor
    · rintro ⟨hij, hji⟩
      exact Pool.forall_set (P := fun k b => b.buffer.length ≤ 2 * L k)
        (Pool.forall_set (P := fun k b => b.buffer.length ≤ 2 * L k) h.within i hij) j hji
    · intro hw
      refine ⟨?_, by simpa [Pool.set, swap] using hw j⟩
      by_cases hij : i = j
      · subst hij
        exact h.within i
      · simpa [Pool.set, swap, hij] using hw i
  | readFd i data =>
    obtain ⟨-, hcount⟩ := (show _ ∧ _ from ha.1)
    simp only [SizeArith.step] at ht
    refine h.map_set i (fun b hb => ?_) ht
    obtain ⟨hintact, hcases⟩ := (h.intact i).readFd_cases hcount hthrows hb
    have hw := (h.intact i).writableBytes_eq
    rcases hcases with ⟨hroom, hsame⟩ | ⟨hlt, hgrown⟩
    · refine ⟨hsame.2 ▸ h.cap i, iff_of_true (fun hlt => ?_) (hsame.1.le.trans (h.within i))⟩
      rw [hw] at hlt
      exact absurd hlt (not_lt.2 hroom)
    · rw [Machine.Throws, hw, sizeT_sub hlt.le (by omega)] at hthrows
      have hshort : ¬ M.TooLong (s.buf i).filled (data.length - (s.buf i).writableBytes) :=
        fun hlong => hthrows ⟨hlt, hlong⟩
      refine ⟨(h.cap i).trans ((h.intact i).filled.cap_le_of_grownFor ⟨hintact, hgrown⟩), ?_⟩
      rw [Op.Fits, hw, sizeT_sub hlt.le (by omega),
        ← hgrown.roomFor_iff hshort (show (s.buf i).filled.buffer.length ≤ 2 * L i from h.within i)]
      exact ⟨fun hf => hf hlt, fun hf _ => hf⟩
  | readFdError i =>
    cases ht
    exact ⟨h.cap, iff_of_true trivial h.within⟩

/-! ## Runs -/

omit [DecidableEq ι] in
theorem thrifty_init (hL : M.Constructs L) (h8 : ∀ i, kBufferOffset ≤ L i)
    (hwrap : ∀ i, L i + kBufferOffset < 2 ^ 64) : Thrifty M L (SizeArith.sizeT.init L) := by
  have hnew : ∀ i, (SizeArith.sizeT.init L).buf i = new (L i) := fun i => sizeT_new (hwrap i)
  refine ⟨intact_init hL hwrap, h8, fun i => ?_⟩
  have hsize : (new (L i)).buffer.length = L i + kBufferOffset := fitted_new (L i)
  have hle := h8 i
  rw [hnew, hsize]
  omega

omit [DecidableEq ι] in
/-- Below the reserved front's length the first `RetrieveAll` already cuts the vector, and a length
that wraps around gives one that is shorter than the reserved front. -/
theorem length_of_givesBack (hL : M.Constructs L) (h : GivesBack L (SizeArith.sizeT.init L))
    (i : ι) : kBufferOffset ≤ L i ∧ L i + kBufferOffset < 2 ^ 64 := by
  have hoffset : kBufferOffset = 8 := rfl
  have hlt := (hL i).1
  have hle : kBufferOffset ≤
      (SizeArith.sizeT.retrieveAll (SizeArith.sizeT.new (L i))).buffer.length :=
    (h i _ (.inl rfl)).2.2.1
  have hsize : (SizeArith.sizeT.new (L i)).buffer.length = (L i + kBufferOffset) % 2 ^ 64 :=
    List.length_replicate
  have hmul : SizeArith.sizeT.mul (L i) 2 = L i * 2 % 2 ^ 64 := rfl
  have hcap : (SizeArith.sizeT.new (L i)).initCap = L i := rfl
  rw [SizeArith.retrieveAll, hsize, hcap, hmul] at hle
  split_ifs at hle
  · rw [Vec.length_resize] at hle
    omega
  · rw [hsize] at hle
    omega

/-- **`RetrieveAll` gives the memory back exactly if none was taken.** Over every sequence of
allowed calls on buffers of constructor lengths `L`: no call leaves its vector, and emptying a
buffer leaves `head_ = tail_ = 8 <= buffer_.size() <= max(2L, L + 8)` at every moment of the
sequence, exactly if every length is at least `8`, no `L + 8` wraps around and every call fits. -/
theorem gives_back_iff (e : Endian) (hL : M.Constructs L) {ops : List (Op ι)}
    (ha : Meets (M.step e) M.Allowed (SizeArith.sizeT.init L) ops) :
    Lasts (M.step e) (GivesBack L) (SizeArith.sizeT.init L) ops ↔
      (∀ i, kBufferOffset ≤ L i ∧ L i + kBufferOffset < 2 ^ 64) ∧
        Meets (M.step e) (Op.Fits M L) (SizeArith.sizeT.init L) ops := by
  have hiff : (∀ i, kBufferOffset ≤ L i ∧ L i + kBufferOffset < 2 ^ 64) →
      (Lasts (M.step e) (GivesBack L) (SizeArith.sizeT.init L) ops ↔
        Meets (M.step e) (Op.Fits M L) (SizeArith.sizeT.init L) ops) := by
    intro h8
    have hgives : ∀ s : Pool ι, (∀ i, (s.buf i).Intact M) →
        (∀ i, kBufferOffset ≤ (s.buf i).initCap) → (GivesBack L s ↔ Within L s) :=
      fun s hs hcap => givesBack_iff_within (fun i => (h8 i).1) hs hcap
    refine lasts_iff_meets_of_meets (Thrifty M L) ?_ ?_ ?_
      (thrifty_init hL (fun i => (h8 i).1) fun i => (h8 i).2) ha
    · intro s h
      exact (hgives s h.intact h.cap).2 h.within
    · intro s op h hop hfits
      obtain ⟨t, ht⟩ := exists_step (e := e) h.intact hop hfits.not_wraps
      have hintact := intact_step h.intact hop h.not_cuts ht
      obtain ⟨hcap, hwithin⟩ := h.step hop ht
      exact ⟨t, ht, hintact, hcap, hwithin.1 hfits⟩
    · intro s op t h hop hfits ht hg
      have hintact := intact_step h.intact hop h.not_cuts ht
      obtain ⟨hcap, hwithin⟩ := h.step hop ht
      exact hfits (hwithin.2 ((hgives t hintact hcap).1 hg))
  constructor
  · intro h
    obtain ⟨s, hs, hg⟩ := h 0
    cases hs
    have h8 := length_of_givesBack hL hg
    exact ⟨h8, (hiff h8).1 h⟩
  · rintro ⟨h8, h⟩
    exact (hiff h8).2 h

/-- A message that fits the constructor's length. -/
theorem gives_back_iff_short : Lasts (Machine.userSpace.step .little) (GivesBack fun _ => 8)
    (SizeArith.sizeT.init fun _ : Unit => 8) [.append () [1, 2, 3], .retrieve () 3] := by
  have hL : Machine.userSpace.Constructs fun _ : Unit => 8 := by decide
  refine (gives_back_iff .little hL ?_).2 ⟨fun _ => by decide, ?_⟩
  · exact ⟨⟨trivial, by decide⟩, fun _ _ => ⟨⟨trivial, by decide⟩, fun _ _ => trivial⟩⟩
  · exact ⟨fun hg => absurd hg.1 (by decide), fun _ _ => ⟨trivial, fun _ _ => trivial⟩⟩

/-- One message of twenty bytes, on a buffer of length `8`: `RetrieveAll` leaves its vector at
40 bytes. -/
theorem retrieveAll_keeps_memory : ¬ ∀ (M : Machine) (L : Unit → ℕ) (ops : List (Op Unit)),
    M.Constructs L → Meets (M.step .little) M.Allowed (SizeArith.sizeT.init L) ops →
      Lasts (M.step .little) (GivesBack L) (SizeArith.sizeT.init L) ops := by
  intro h
  obtain ⟨s, hs, hg⟩ := h .userSpace (fun _ => 8) [.append () (List.replicate 20 0)]
    (by decide) ⟨⟨trivial, by decide⟩, fun _ _ => trivial⟩ 1
  cases hs
  have hle := (hg () _ (.inl rfl)).2.2.2
  revert hle
  decide

end HttpNest
