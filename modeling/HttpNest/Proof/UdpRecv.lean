import HttpNest.Proof.BufferRefine
import HttpNest.Spec.UdpSocket

/-!
# The buffer that datagrams are received in

`recvfrom` is told that `messageBufferSize_` bytes fit, whatever the buffer's state. They do:
every vector is its constructor's length and the reserved front (`Sized`), growing replaces
both by larger ones, and so `RetrieveAll`, which cuts a vector of twice the length, never cuts
this one.
-/

namespace HttpNest

open ByteOrder EventRun MsgBuffer

/-! ## Sizes -/

namespace MsgBuffer

variable {K len depth : ℕ} {b b' : MsgBuffer} {buf : Bytes}

/-- A vector of its constructor's length, which is at least `K`. -/
structure Sized (K : ℕ) (b : MsgBuffer) : Prop where
  length_eq : b.buffer.length = b.initCap + kBufferOffset
  le_cap : K ≤ b.initCap

theorem sized_new (h : K ≤ len) : Sized K (new len) := ⟨by simp [new_def], h⟩

/-- Writing into the vector keeps its length. -/
theorem Sized.write (h : Sized K b) {pos head tail : ℕ} {v : Bytes}
    (hv : Vec.write b.buffer pos buf = some v) :
    Sized K { b with buffer := v, head := head, tail := tail } :=
  ⟨(Vec.length_write hv).trans h.length_eq, h.le_cap⟩

/-- A buffer that grows is at least as long as before. -/
theorem le_grownLen (b : MsgBuffer) (len : ℕ) : b.buffer.length ≤ b.grownLen len := by
  rw [grownLen_def]
  split_ifs <;> omega

theorem sized_roomKept (K : ℕ) : RoomKept (Sized K) where
  write h hv := h.write hv
  move h hv := h.write hv
  grown {b} len h := by
    -- the new buffer brings its own constructor's length
    have hle := le_grownLen b len
    have hsize := h.length_eq
    have hcap := h.le_cap
    exact sized_new (by omega)

theorem Sized.append (h : Sized K b) (hb' : b.append buf = some b') : Sized K b' :=
  (sized_roomKept K).append h hb'

theorem Sized.addInFront (h : Sized K b) (hb' : b.addInFront buf = some b') : Sized K b' := by
  rw [addInFront_def] at hb'
  split_ifs at hb'
  · obtain ⟨v, hv, hb'⟩ := Option.bind_eq_some_iff.1 hb'
    cases hb'
    exact h.write hv
  · obtain ⟨v, hv, hb'⟩ := Option.bind_eq_some_iff.1 hb'
    obtain ⟨w, hw, hb'⟩ := Option.bind_eq_some_iff.1 hb'
    cases hb'
    exact ⟨(Vec.length_write hw).trans ((Vec.length_write hv).trans h.length_eq), h.le_cap⟩
  · obtain ⟨c, hc, hb'⟩ := Option.bind_eq_some_iff.1 hb'
    obtain ⟨d, hd, hb'⟩ := Option.bind_eq_some_iff.1 hb'
    cases hb'
    have hcap : K ≤ b.frontLen buf.length := by
      have hle := h.le_cap
      rw [frontLen_def]
      split_ifs <;> omega
    exact ((sized_new hcap).append hc).append hd

/-- A vector of its constructor's length is not cut. -/
theorem Sized.retrieveAll (h : Sized K b) (hK : kBufferOffset ≤ K) : Sized K b.retrieveAll := by
  have hsize := h.length_eq
  have hcap := h.le_cap
  rw [retrieveAll_def, if_neg (by omega)]
  exact ⟨hsize, hcap⟩

theorem Sized.retrieve (h : Sized K b) (hK : kBufferOffset ≤ K) (len : ℕ) :
    Sized K (b.retrieve len) := by
  rw [retrieve_def]
  split_ifs
  · exact h.retrieveAll hK
  · exact ⟨h.length_eq, h.le_cap⟩

theorem Sized.readFd (h : Sized K b) {data : Bytes} (hb' : b.readFd data = some b') :
    Sized K b' := by
  rw [readFd_def] at hb'
  obtain ⟨v, hv, hb'⟩ := Option.bind_eq_some_iff.1 hb'
  split_ifs at hb'
  · cases hb'
    exact h.write hv
  · exact (h.write hv).append hb'

end MsgBuffer

/-! ## The buffer between two datagrams -/

namespace UdpReader

variable {ι : Type} {i : ι} {r : UdpReader ι}

/-- The invariant of `OnRead`: the message buffer has its size, and nothing is in it while
`recvfrom` is waited for. -/
structure Receiving (i : ι) (r : UdpReader ι) : Prop where
  refines : ∃ m, Refines r.pool m
  sized : Sized messageBufferSize (r.pool.buf i)
  empty : r.inCallback = false →
    (r.pool.buf i).head = kBufferOffset ∧ (r.pool.buf i).tail = kBufferOffset

theorem receiving_start {L : ι → ℕ} (hL : ∀ j, kBufferOffset ≤ L j)
    (hi : L i = messageBufferSize) : Receiving i (start L) :=
  ⟨⟨_, refines_init L hL⟩, sized_new hi.ge, fun _ => ⟨rfl, rfl⟩⟩

theorem Receiving.writableBytes (h : Receiving i r) (hw : r.inCallback = false) :
    messageBufferSize ≤ (r.pool.buf i).writableBytes := by
  have hsize := h.sized.length_eq
  have hcap := h.sized.le_cap
  rw [writableBytes_def, (h.empty hw).2]
  omega

theorem Receiving.readable (h : Receiving i r) (hw : r.inCallback = false) :
    (r.pool.buf i).readable = [] := by
  obtain ⟨hhead, htail⟩ := h.empty hw
  rw [MsgBuffer.readable, hhead, htail]
  simp

end UdpReader

/-! ## Operations of a callback -/

variable {ι : Type} [DecidableEq ι] {K : ℕ} {s t : Pool ι} {i : ι}

theorem sized_set (h : Sized K (s.buf i)) (j : ι) {b : MsgBuffer}
    (hb : Sized K (s.buf j) → Sized K b) : Sized K ((s.set j b).buf i) := by
  by_cases hj : i = j
  · subst hj
    simpa [Pool.set] using hb h
  · simpa [Pool.set, hj] using h

/-- An operation that returns a new buffer. -/
theorem sized_map_set (h : Sized K (s.buf i)) (j : ι) {r : Option MsgBuffer}
    (hr : ∀ b, r = some b → Sized K (s.buf j) → Sized K b) (ht : r.map (s.set j) = some t) :
    Sized K (t.buf i) := by
  obtain ⟨b, hb, rfl⟩ := Option.map_eq_some_iff.1 ht
  exact sized_set h j (hr b hb)

/-- **An operation keeps the size of a buffer that it does not swap.** -/
theorem sized_step (e : Endian) (hK : kBufferOffset ≤ K) (h : Sized K (s.buf i)) {op : Op ι}
    (hswap : ¬ op.Swaps i) (ht : op.step e s = some t) : Sized K (t.buf i) := by
  cases op with
  -- writing may make room first, and does not make the vector shorter
  | append j buf => exact sized_map_set h j (fun b hb hj => hj.append hb) ht
  | appendBuffer j k => exact sized_map_set h j (fun b hb hj => hj.append hb) ht
  | appendInt w j v =>
    refine sized_map_set h j (fun b hb hj => ?_) ht
    rw [appendWidth_eq] at hb
    exact hj.append hb
  | addInFront j buf => exact sized_map_set h j (fun b hb hj => hj.addInFront hb) ht
  | addInFrontInt w j v =>
    refine sized_map_set h j (fun b hb hj => ?_) ht
    rw [addInFrontWidth_eq] at hb
    exact hj.addInFront hb
  -- reading moves the two ends only
  | retrieve j len =>
    cases ht
    exact sized_set h j fun hj => hj.retrieve hK len
  | retrieveUntil j offset =>
    cases ht
    exact sized_set h j fun hj => hj.retrieve hK _
  | retrieveAll j =>
    cases ht
    exact sized_set h j fun hj => hj.retrieveAll hK
  | read j len =>
    cases ht
    exact sized_set (s := s.put _) h j fun hj => hj.retrieve hK _
  | readInt w j =>
    cases ht
    refine sized_set (s := s.put _) h j fun hj => ?_
    cases w <;> exact hj.retrieve hK _
  | ensureWritableBytes j len =>
    exact sized_map_set h j (fun b hb hj => (sized_roomKept K).ensureWritableBytes hj hb) ht
  | hasWritten j buf =>
    obtain ⟨b, hb, rfl⟩ := Option.map_eq_some_iff.1 ht
    refine sized_set h j fun hj => ?_
    obtain ⟨v, hv, hb⟩ := Option.bind_eq_some_iff.1 hb
    cases hb
    exact hj.write hv
  | unwrite j offset =>
    cases ht
    exact sized_set h j fun hj => ⟨hj.length_eq, hj.le_cap⟩
  -- a swap of two other buffers
  | swap j k =>
    cases ht
    obtain ⟨hj, hk⟩ := not_or.1 hswap
    simpa [Pool.set, Ne.symm hj, Ne.symm hk] using h
  | readFd j data =>
    simp only [Op.step, SizeArith.step] at ht
    exact sized_map_set h j (fun b hb hj => hj.readFd hb) ht
  | readFdError j =>
    cases ht
    exact h

/-! ## Runs -/

namespace UdpReader

variable {e : Endian} {r r' : UdpReader ι}

/-- **A datagram fits, and is all that the callback sees.** -/
theorem Receiving.recvfrom (h : Receiving i r) (hw : r.inCallback = false) {data : Bytes}
    (hpos : 0 < data.length) (hle : data.length ≤ messageBufferSize) :
    ∃ b, (r.pool.buf i).fill data = some b ∧ data.length ≤ b.writableBytes ∧
      r.step e i (.recvfrom data) =
        some { pool := r.pool.set i (b.hasWritten data.length), inCallback := true } ∧
      (b.hasWritten data.length).readable = data := by
  obtain ⟨m, hrefines⟩ := h.refines
  have hroom := hle.trans (h.writableBytes hw)
  obtain ⟨v, hv, hlen, hinv, hread⟩ := write_tail (hrefines.inv i) hroom
  have hfill : (r.pool.buf i).fill data = some { r.pool.buf i with buffer := v } := by
    simp [fill, hv]
  refine ⟨_, hfill, ?_, ?_, ?_⟩
  · rw [writableBytes_def, hlen]
    exact hroom
  · rw [UdpReader.step, if_pos ⟨hw, hpos, hle⟩, hfill]
    rfl
  · rw [h.readable hw, List.nil_append] at hread
    exact hread

theorem Receiving.step (h : Receiving i r) {ev : UdpReadEvent ι}
    (hr' : r.step e i ev = some r') : Receiving i r' := by
  obtain ⟨m, hrefines⟩ := h.refines
  cases ev with
  | recvfrom data =>
    obtain ⟨⟨hw, hpos, hle⟩, hr'⟩ := Option.ite_none_right_eq_some.1 hr'
    have hroom := hle.trans (h.writableBytes hw)
    obtain ⟨b, hb, hinv, hread⟩ := hasWritten_spec (hrefines.inv i) hroom
    rw [hb] at hr'
    cases hr'
    refine ⟨⟨_, hrefines.set i hinv rfl⟩, ?_, fun hc => (by cases hc)⟩
    obtain ⟨v, hv, hb⟩ := Option.bind_eq_some_iff.1 hb
    cases hb
    exact sized_set h.sized i fun hi => hi.write hv
  | callback op =>
    obtain ⟨⟨hc, hallowed, hswap⟩, hr'⟩ := Option.ite_none_right_eq_some.1 hr'
    obtain ⟨pool, hpool, rfl⟩ := Option.map_eq_some_iff.1 hr'
    obtain ⟨pool', hpool', hrefines'⟩ := step_refines e _ m op hrefines hallowed
    rw [hpool] at hpool'
    cases hpool'
    refine ⟨⟨_, hrefines'⟩, sized_step e (by decide) h.sized hswap hpool, fun hw => ?_⟩
    rw [hc] at hw
    cases hw
  | returns =>
    obtain ⟨hc, hr'⟩ := Option.ite_none_right_eq_some.1 hr'
    cases hr'
    obtain ⟨hinv, hread⟩ := retrieveAll_spec (hrefines.inv i)
    refine ⟨⟨_, hrefines.set i hinv hread⟩, ?_, fun _ => ?_⟩
    · exact sized_set h.sized i fun hi => hi.retrieveAll (by decide)
    · simp [Pool.set, retrieveAll_def]

/-- The callback's calls write inside their vectors. -/
theorem Receiving.exists_callback (h : Receiving i r) {op : Op ι} (hc : r.inCallback = true)
    (hallowed : op.Allowed r.pool) (hswap : ¬ op.Swaps i) :
    ∃ r', r.step e i (.callback op) = some r' ∧ r'.inCallback = true := by
  obtain ⟨m, hrefines⟩ := h.refines
  obtain ⟨pool, hpool, -⟩ := step_refines e _ m op hrefines hallowed
  refine ⟨{ r with pool := pool }, ?_, hc⟩
  rw [UdpReader.step, if_pos ⟨hc, hallowed, hswap⟩, hpool]
  rfl

/-- **At every `recvfrom` the buffer has room for a whole datagram**, `HasWritten` is called
within its assertion, and the callback sees the bytes of the datagram and nothing else. -/
theorem datagram_fits (e : Endian) {L : ι → ℕ} (hL : ∀ j, kBufferOffset ≤ L j)
    (hi : L i = messageBufferSize) {es : List (UdpReadEvent ι)}
    (h : run (UdpReader.step e i) (start L) es = some r) (hw : r.inCallback = false) :
    messageBufferSize ≤ (r.pool.buf i).writableBytes ∧
      ∀ data : Bytes, 0 < data.length → data.length ≤ messageBufferSize →
        ∃ b, (r.pool.buf i).fill data = some b ∧ data.length ≤ b.writableBytes ∧
          r.step e i (.recvfrom data) =
            some { pool := r.pool.set i (b.hasWritten data.length), inCallback := true } ∧
          (b.hasWritten data.length).readable = data := by
  have hr := run_inv (Receiving i) (fun _ _ _ hs hstep => hs.step hstep) (receiving_start hL hi) h
  exact ⟨hr.writableBytes hw, fun data hpos hle => hr.recvfrom hw hpos hle⟩

/-- After one datagram, to which the callback has appended and prepended. -/
theorem datagram_fits_second : ∃ r, run (UdpReader.step .little ())
      (start fun _ => messageBufferSize) [.recvfrom [1, 2, 3], .callback (.append () [9]),
        .callback (.addInFront () [8, 8]), .returns] = some r ∧
    ∃ b, (r.pool.buf ()).fill [4, 5] = some b ∧ (b.hasWritten 2).readable = [4, 5] := by
  have hL : ∀ j : Unit, kBufferOffset ≤ messageBufferSize := fun _ => by decide
  obtain ⟨b, -, -, hrecv, -⟩ := (datagram_fits (i := ()) .little hL rfl
    (run_nil (start fun _ => messageBufferSize)) rfl).2 [1, 2, 3] (by decide) (by decide)
  have hreceived := (receiving_start hL rfl).step hrecv
  obtain ⟨r₁, happend, hc₁⟩ : ∃ r₁, UdpReader.step .little () _ (.callback (.append () [9])) =
      some r₁ ∧ r₁.inCallback = true := hreceived.exists_callback rfl trivial id
  obtain ⟨r₂, hfront, hc₂⟩ : ∃ r₂, UdpReader.step .little () _
      (.callback (.addInFront () [8, 8])) = some r₂ ∧ r₂.inCallback = true :=
    (hreceived.step happend).exists_callback hc₁ trivial id
  have hret : r₂.step .little () .returns =
      some { pool := r₂.pool.set () (r₂.pool.buf ()).retrieveAll, inCallback := false } :=
    if_pos hc₂
  have hrun : run (UdpReader.step .little ()) (start fun _ => messageBufferSize)
      ([.recvfrom [1, 2, 3], .callback (.append () [9])] ++
        [.callback (.addInFront () [8, 8]), .returns]) = some _ :=
    run_append.2 ⟨r₁, run_cons_eq_some.2 ⟨_, hrecv, run_cons_eq_some.2 ⟨_, happend, rfl⟩⟩,
      run_cons_eq_some.2 ⟨_, hfront, run_cons_eq_some.2 ⟨_, hret, rfl⟩⟩⟩
  obtain ⟨b', hfill, -, -, hread⟩ :=
    (datagram_fits .little hL rfl hrun rfl).2 [4, 5] (by decide) (by decide)
  exact ⟨_, hrun, b', hfill, hread⟩

end UdpReader

end HttpNest
