import HttpNest.Proof.TcpConnection
import HttpNest.Spec.SendQueue

/-!
# No byte is lost or invented on the way to the kernel

`Exact` is the accounting of an open connection: what the kernel has accepted, and
then what `iovecList_` describes, is what has been passed to `Send`. Every step keeps it
but one, the direct `write` of a `Send` that is answered `-1` (`exact_step`): stored in
a `size_t` the answer is the length `2^64 - 1`, and the queue gets an `iovec` that
begins before the buffer and is one byte longer (`sendInLoop_direct_error`).

`send_exact_iff`: a run keeps the accounting at every moment, and closes the connection
on every other error, exactly if none of its direct writes is answered `-1`.
-/

namespace HttpNest

open EventRun

variable {mem : Memory} {c : TcpConnection} {s : SendQueue} {buf size : BitVec 64}

/-! ## Memory -/

@[simp] theorem length_load (base : BitVec 64) (n : ℕ) : (mem.load base n).length = n := by
  simp [Memory.load]

@[simp] theorem length_iovec_bytes (v : Iovec) : (v.bytes mem).length = v.iovLen.toNat :=
  length_load _ _

/-- A load in two parts. -/
theorem load_add (base : BitVec 64) (m n : ℕ) :
    mem.load base (m + n) = mem.load base m ++ mem.load (base + BitVec.ofNat 64 m) n := by
  simp only [Memory.load, List.range_add, List.map_append, List.map_map]
  congr 1
  refine List.map_congr_left fun i _ => ?_
  simp only [Function.comp_apply, BitVec.ofNat_add, BitVec.add_assoc]

theorem toNat_sub_ofNat {len : BitVec 64} {n : ℕ} (h : n ≤ len.toNat) :
    (len - BitVec.ofNat 64 n).toNat = len.toNat - n := by
  have := len.isLt
  rw [BitVec.toNat_sub_of_le] <;> simp [BitVec.le_def] <;> omega

/-- What is left of a load behind its first `n` bytes. -/
theorem drop_load {base len : BitVec 64} {n : ℕ} (h : n ≤ len.toNat) :
    mem.load (base + BitVec.ofNat 64 n) (len - BitVec.ofNat 64 n).toNat =
      (mem.load base len.toNat).drop n := by
  obtain ⟨m, hm⟩ := Nat.exists_eq_add_of_le h
  rw [toNat_sub_ofNat h, hm, load_add, List.drop_left' (length_load _ _), Nat.add_sub_cancel_left]

theorem iovecBytes_append (vs ws : List Iovec) :
    iovecBytes mem (vs ++ ws) = iovecBytes mem vs ++ iovecBytes mem ws := by
  simp [iovecBytes]

theorem iovecBytes_cons (v : Iovec) (vs : List Iovec) :
    iovecBytes mem (v :: vs) = v.bytes mem ++ iovecBytes mem vs := rfl

@[simp] theorem length_iovecBytes (vs : List Iovec) :
    (iovecBytes mem vs).length = TcpConnection.iovecSize vs := by
  simp only [iovecBytes, TcpConnection.iovecSize, List.length_flatten, List.map_map]
  congr 1
  exact List.map_congr_left fun v _ => length_iovec_bytes v

/-! ## `OnWrite` -/

/-- **The inner loop drops what has been written**, and does not run out of vectors. -/
theorem consume_spec (mem : Memory) : ∀ {vs : List Iovec} {n : ℕ}, n ≤ TcpConnection.iovecSize vs →
    ∃ ws, TcpConnection.consume vs n = some ws ∧ iovecBytes mem ws = (iovecBytes mem vs).drop n
  | vs, 0, _ => ⟨vs, by cases vs <;> rfl, rfl⟩
  | [], n + 1, h => by cases h
  | v :: vs, n + 1, h => by
    rw [iovecBytes_cons]
    rw [TcpConnection.consume]
    split_ifs with hgt
    · refine ⟨_, rfl, ?_⟩
      rw [iovecBytes_cons, Iovec.bytes, drop_load hgt.le, List.drop_append_of_le_length]
      · rfl
      · rw [length_iovec_bytes]
        exact hgt.le
    · have hle : n + 1 - v.iovLen.toNat ≤ TcpConnection.iovecSize vs := by
        simp only [TcpConnection.iovecSize, List.map_cons, List.sum_cons] at h ⊢
        omega
      obtain ⟨ws, hws, hbytes⟩ := consume_spec mem hle
      refine ⟨ws, hws, ?_⟩
      have hdrop : (v.bytes mem).drop (n + 1) = [] :=
        List.drop_eq_nil_of_le (by rw [length_iovec_bytes]; omega)
      rw [hbytes, List.drop_append, hdrop, length_iovec_bytes, List.nil_append]

/-! ## `SendInLoop` -/

/-- What `Send` leaves of the buffer is queued. -/
theorem sendInLoop_count (mem : Memory) (buf : BitVec 64) (hc : c.isClosed = false)
    (hq : c.iovecList = []) {n : ℕ} (hn : n ≤ size.toNat) :
    iovecBytes mem (c.sendInLoop buf size (.count n)).1.iovecList =
      (mem.load buf size.toNat).drop n := by
  rw [sendInLoop_direct hc hq, toSizeT_count]
  split_ifs with h0
  · have hsize := toNat_sub_ofNat hn
    rw [h0] at hsize
    rw [hq, List.drop_eq_nil_of_le]
    · rfl
    · rw [length_load]
      simp only [BitVec.ofNat_eq_ofNat, BitVec.toNat_ofNat] at hsize
      omega
  · rw [TcpConnection.push, hq, List.nil_append, iovecBytes_cons, Iovec.bytes, drop_load hn]
    exact List.append_nil _

/-- Behind other buffers a buffer is queued whole. -/
theorem sendInLoop_queued (mem : Memory) (buf size : BitVec 64) (hc : c.isClosed = false)
    (hq : c.iovecList ≠ []) (answer : Answer) :
    iovecBytes mem (c.sendInLoop buf size answer).1.iovecList =
      iovecBytes mem c.iovecList ++ mem.load buf size.toNat := by
  rw [TcpConnection.sendInLoop, if_neg (by simp [hc]), if_neg hq]
  split_ifs with h0
  · rw [TcpConnection.push, iovecBytes_append, iovecBytes_cons]
    exact congrArg _ (List.append_nil _)
  · have hsize : size.toNat = 0 := by
      simpa [BitVec.lt_def] using h0
    rw [hsize]
    exact (List.append_nil _).symm

/-! ## The accounting -/

/-- On an open connection the accepted bytes and the queue are what has been sent. -/
def SendQueue.Exact (mem : Memory) (s : SendQueue) : Prop :=
  s.conn.isClosed = false → s.accepted ++ iovecBytes mem s.conn.iovecList = s.sent

/-- A system call of the step is answered with an error that is to close the connection. -/
def SendQueue.HardError (s : SendQueue) : SendEvent → Prop
  | .send _ _ answer => s.Direct ∧ answer.isHard = true
  | .writev answer => answer.isHard = true
  | _ => False

/-- The step leaves the accounting exact, and closes the connection on a hard error. -/
def SendQueue.Holds (mem : Memory) (s : SendQueue) (e : SendEvent) : Prop :=
  ∀ s', SendQueue.step mem s e = some s' →
    s'.Exact mem ∧ (s.HardError e → s'.conn.isClosed = true)

/-- The step is no `Send` whose direct `write` is answered `-1`. -/
def SendQueue.WriteSucceeds (s : SendQueue) : SendEvent → Prop
  | .send _ _ (.error _) => ¬ s.Direct
  | _ => True

/-- **A failed direct write breaks the accounting**: the queue is a byte too long. -/
theorem not_holds_of_direct_error (hs : s.Exact mem) (hd : s.Direct) (e : Errno) :
    ¬ s.Holds mem (.send buf size (.error e)) := by
  obtain ⟨hw, hc, hq⟩ := hd
  intro h
  have hstep : SendQueue.step mem s (.send buf size (.error e)) = some { s with
      conn := (s.conn.sendInLoop buf size (.error e)).1
      accepted := s.accepted ++ if s.Direct then [] else []
      sent := s.sent ++ if s.conn.isClosed then [] else mem.load buf size.toNat } :=
    if_pos ⟨hw, trivial⟩
  have hexact := (h _ hstep).1
  rw [SendQueue.Exact] at hexact
  have hbefore := congrArg List.length (hs hc)
  rw [hq] at hbefore
  simp only [sendInLoop_direct_error hc hq, ite_self, List.append_nil, hc, Bool.false_eq_true,
    if_false] at hexact hbefore
  have hlt := size.isLt
  have hne : (size + 1).toNat ≠ size.toNat := by
    rw [BitVec.toNat_add]
    simp
    omega
  by_cases h0 : size + 1 = 0
  · rw [if_pos h0, hq] at hexact
    have hlen := congrArg List.length (hexact hc)
    rw [h0] at hne
    simp [iovecBytes] at hlen hbefore hne
    omega
  · rw [if_neg h0] at hexact
    have hlen := congrArg List.length (hexact hc)
    simp only [TcpConnection.push, hq] at hlen
    simp [iovecBytes] at hlen hbefore hne
    omega

theorem holds_send (hs : s.Exact mem) {answer : Answer}
    (he : s.WriteSucceeds (.send buf size answer)) : s.Holds mem (.send buf size answer) := by
  intro s' hstep
  obtain ⟨hgo, hstep⟩ := Option.ite_none_right_eq_some.1 hstep
  cases hstep
  rcases hc : s.conn.isClosed with _ | _
  · by_cases hq : s.conn.iovecList = []
    · have hd : s.Direct := ⟨hgo.1, hc, hq⟩
      rcases answer with n | err
      · have hbytes := sendInLoop_count mem buf hc hq hgo.2.1
        have hbefore := hs hc
        refine ⟨fun _ => ?_, fun h => (by cases h.2)⟩
        simp only [hbytes, hd, if_true, SendQueue.take, Bool.false_eq_true, if_false]
        rw [List.append_assoc, List.take_append_drop, ← hbefore, hq]
        simp [iovecBytes]
      · exact absurd hd he
    · have hd : ¬ s.Direct := fun h => hq h.2.2
      have hbytes := sendInLoop_queued mem buf size hc hq answer
      refine ⟨fun _ => ?_, fun h => absurd h.1 hd⟩
      simp only [hbytes, hd, if_false, Bool.false_eq_true, List.append_nil]
      rw [← List.append_assoc, hs hc]
  · -- a closed connection is left alone
    refine ⟨fun hopen => ?_, fun h => ?_⟩
    · simp only [sendInLoop_closed hc, hc] at hopen
      cases hopen
    · rw [h.1.2.1] at hc
      cases hc

theorem holds_sendList (hs : s.Exact mem) (list : List Iovec) : s.Holds mem (.sendList list) := by
  intro s' hstep
  obtain ⟨-, hstep⟩ := Option.ite_none_right_eq_some.1 hstep
  cases hstep
  refine ⟨fun hopen => ?_, fun h => h.elim⟩
  rcases hc : s.conn.isClosed with _ | _
  · simp only [sendListInLoop_open hc, iovecBytes_append, Bool.false_eq_true, if_false]
    rw [← List.append_assoc, hs hc]
  · simp only [sendListInLoop_closed hc, hc] at hopen
    cases hopen

theorem holds_onWrite (hs : s.Exact mem) : s.Holds mem .onWrite := by
  intro s' hstep
  obtain ⟨-, hstep⟩ := Option.ite_none_right_eq_some.1 hstep
  cases hstep
  have hconn : s.conn.onWrite.1 = s.conn := by
    rw [TcpConnection.onWrite]
    split_ifs <;> rfl
  refine ⟨fun hopen => ?_, fun h => h.elim⟩
  simp only [hconn] at hopen ⊢
  exact hs hopen

/-- What `writev` takes is what the inner loop drops. -/
theorem holds_writev (hs : s.Exact mem) (answer : Answer) : s.Holds mem (.writev answer) := by
  intro s' hstep
  obtain ⟨hgo, hstep⟩ := Option.ite_none_right_eq_some.1 hstep
  obtain ⟨r, hr, rfl⟩ := Option.map_eq_some_iff.1 hstep
  rcases answer with n | err
  · obtain ⟨ws, hws, hbytes⟩ := consume_spec mem hgo.2.1
    rw [TcpConnection.onWriteTurn, hws] at hr
    cases hr
    refine ⟨fun hopen => ?_, fun h => (by cases h)⟩
    simp only [SendQueue.take, hbytes]
    rw [List.append_assoc, List.take_append_drop, hs hopen]
  · rw [TcpConnection.onWriteTurn, Option.some.injEq] at hr
    rw [← hr]
    unfold SendQueue.Exact
    simp only [SendQueue.HardError, Answer.isHard, SendQueue.take, List.append_nil]
    rcases ht : err.transient with _ | _
    · refine ⟨fun hopen => ?_, fun _ => isClosed_onClose _⟩
      simp only [Bool.false_eq_true, if_false, isClosed_onClose] at hopen
      cases hopen
    · exact ⟨fun hopen => hs hopen, fun h => (by cases h)⟩

theorem holds_close : s.Holds mem .close := by
  intro s' hstep
  obtain ⟨-, hstep⟩ := Option.ite_none_right_eq_some.1 hstep
  cases hstep
  refine ⟨fun hopen => ?_, fun h => h.elim⟩
  simp only [isClosed_onClose] at hopen
  cases hopen

/-- **Every other step keeps the accounting and closes on hard errors.** -/
theorem exact_step (hs : s.Exact mem) {e : SendEvent} (he : s.WriteSucceeds e) :
    s.Holds mem e := by
  cases e with
  | send buf size answer => exact holds_send hs he
  | sendList list => exact holds_sendList hs list
  | onWrite => exact holds_onWrite hs
  | writev answer => exact holds_writev hs answer
  | close => exact holds_close

/-- **Sending is exact, and hard errors close, exactly if no direct write fails.** For
every list of calls, events and kernel answers on a new connection. -/
theorem send_exact_iff (mem : Memory) (es : List SendEvent) :
    Meets (SendQueue.step mem) (SendQueue.Holds mem) {} es ↔
      Meets (SendQueue.step mem) SendQueue.WriteSucceeds {} es := by
  refine meets_iff_of_inv (SendQueue.Exact mem) ?_ ?_ (fun _ => rfl)
  · intro s e hs
    refine ⟨fun h => ?_, exact_step hs⟩
    -- only the error of a direct write breaks the accounting
    cases e with
    | send buf size answer =>
      cases answer with
      | count n => trivial
      | error err => exact fun hd => not_holds_of_direct_error hs hd err h
    | _ => trivial
  · intro s e s' hs he hstep
    exact (exact_step hs he s' hstep).1

/-- The first `Send`, of five bytes at address 1000, finds the socket full. -/
theorem send_inexact : ¬ ∀ mem es, Meets (SendQueue.step mem) (SendQueue.Holds mem) {} es := by
  intro h
  have hsend := (h (fun _ => 0) [.send 1000 5 (.error .eagain)]).1
  exact not_holds_of_direct_error (fun _ => rfl) ⟨rfl, rfl, rfl⟩ _ hsend

end HttpNest
