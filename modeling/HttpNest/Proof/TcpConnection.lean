import HttpNest.Spec.TcpConnection

/-!
# The functions of a connection

One lemma for each function of `TcpConnection`. `sendInLoop_direct` is where the unsigned
`len` tells: the test for a failed `write` is never true.
-/

namespace HttpNest

variable {conn : TcpConnection} {buf size : BitVec 64}

/-! ## `OnClose` -/

theorem isClosed_onClose (conn : TcpConnection) : conn.onClose.1.isClosed = true := by
  rw [TcpConnection.onClose]
  split_ifs with h
  · exact h
  · rfl

/-! ## `SendInLoop` -/

theorem toSizeT_count {n : ℕ} : (Answer.count n).toSizeT = BitVec.ofNat 64 n := rfl

/-- `len < 0` is false. -/
theorem sendInLoop_direct (hc : conn.isClosed = false) (hq : conn.iovecList = [])
    (answer : Answer) :
    conn.sendInLoop buf size answer =
      if size - answer.toSizeT = 0 then (conn, [.writeComplete])
      else conn.push ⟨buf + answer.toSizeT, size - answer.toSizeT⟩ := by
  have hlt : ¬ answer.toSizeT < 0 := BitVec.not_lt_zero
  rw [TcpConnection.sendInLoop, if_neg (by simp [hc]), if_pos hq]
  simp only [hlt, false_and, if_false]

/-- **A failed `write` queues the buffer from one byte before it to its end.** -/
theorem sendInLoop_direct_error (hc : conn.isClosed = false) (hq : conn.iovecList = [])
    (e : Errno) :
    conn.sendInLoop buf size (.error e) =
      if size + 1 = 0 then (conn, [.writeComplete]) else conn.push ⟨buf - 1, size + 1⟩ := by
  have hlen : (Answer.error e).toSizeT = -1 := rfl
  rw [sendInLoop_direct hc hq, hlen, BitVec.sub_neg, ← BitVec.sub_eq_add_neg]

/-- A closed connection ignores `Send`. -/
theorem sendInLoop_closed (hc : conn.isClosed = true) (answer : Answer) :
    conn.sendInLoop buf size answer = (conn, []) := by
  rw [TcpConnection.sendInLoop, if_pos hc]

/-- **`Send` changes nothing, or queues a vector** and asks for write events. -/
theorem sendInLoop_cases (conn : TcpConnection) (buf size : BitVec 64) (answer : Answer) :
    (∃ effects, conn.sendInLoop buf size answer = (conn, effects) ∧
        (effects = [] ∨ effects = [.writeComplete])) ∨
      ∃ vec, conn.sendInLoop buf size answer = conn.push vec := by
  rcases hc : conn.isClosed with _ | _
  · by_cases hq : conn.iovecList = []
    · rw [sendInLoop_direct hc hq]
      split_ifs
      · exact .inl ⟨_, rfl, .inr rfl⟩
      · exact .inr ⟨_, rfl⟩
    · rw [TcpConnection.sendInLoop, if_neg (by simp [hc]), if_neg hq]
      split_ifs
      · exact .inr ⟨_, rfl⟩
      · exact .inl ⟨_, rfl, .inl rfl⟩
  · exact .inl ⟨_, sendInLoop_closed hc answer, .inl rfl⟩

theorem sendListInLoop_open (h : conn.isClosed = false) (list : List Iovec) :
    conn.sendListInLoop list = ({ conn with iovecList := conn.iovecList ++ list },
      if conn.iovecList ++ list = [] then [] else [.enableWriting true]) := by
  rw [TcpConnection.sendListInLoop, if_neg (by simp [h])]

theorem sendListInLoop_closed (h : conn.isClosed = true) (list : List Iovec) :
    conn.sendListInLoop list = (conn, []) := if_pos h

/-! ## `OnWrite` and `OnRead` -/

theorem onWrite_closed (h : conn.isClosed = true) : conn.onWrite = (conn, [], false) := if_pos h

/-- `OnWrite` of an open connection enters its loop if there is something to write. -/
theorem onWrite_open (h : conn.isClosed = false) : conn.onWrite =
    if conn.iovecList = [] then (conn, [.enableWriting false, .writeComplete], false)
    else (conn, [], true) := by
  rw [TcpConnection.onWrite, if_neg (by simp [h])]

/-- Something is left only if something was there. -/
theorem consume_ne_nil {vs ws : List Iovec} {n : ℕ} (h : TcpConnection.consume vs n = some ws)
    (hws : ws ≠ []) : vs ≠ [] := by
  rintro rfl
  rcases n with _ | n
  · cases h
    exact hws rfl
  · cases h

/-- A turn of the loop in `OnWrite`: it ends with an empty queue, and on an error. -/
theorem onWriteTurn_cases {answer : Answer} {r : TcpConnection × List Effect × Bool}
    (h : conn.onWriteTurn answer = some r) :
    (∃ n vs, answer = .count n ∧ TcpConnection.consume conn.iovecList n = some vs ∧
        r.1 = { conn with iovecList := vs } ∧
          r.2 = if vs = [] then ([.enableWriting false, .writeComplete], false) else ([], true)) ∨
      ∃ e, answer = .error e ∧ if e.transient = true then r = (conn, [], false)
        else r = (conn.onClose.1, conn.onClose.2, false) := by
  rcases answer with n | e
  · obtain ⟨vs, hvs, rfl⟩ := Option.map_eq_some_iff.1 h
    exact .inl ⟨n, vs, rfl, hvs, rfl, rfl⟩
  · rw [TcpConnection.onWriteTurn, Option.some.injEq] at h
    refine .inr ⟨e, rfl, ?_⟩
    split_ifs at h ⊢ <;> exact h.symm

/-- A turn of the loop in `OnRead`: it goes on after a message. -/
theorem onReadTurn_cases (conn : TcpConnection) (answer : Answer) :
    (∃ n, answer = .count n ∧ conn.onReadTurn answer = (conn, [.message n], true)) ∨
      (∃ e, answer = .error e ∧ e.transient = true ∧ conn.onReadTurn answer = (conn, [], false)) ∨
      conn.onReadTurn answer = (conn.onClose.1, conn.onClose.2, false) := by
  rcases answer with n | e
  · rw [TcpConnection.onReadTurn]
    split_ifs with h
    · exact .inl ⟨n, rfl, rfl⟩
    · exact .inr (.inr rfl)
  · rw [TcpConnection.onReadTurn]
    split_ifs with h
    · exact .inr (.inl ⟨e, rfl, h, rfl⟩)
    · exact .inr (.inr rfl)

end HttpNest
