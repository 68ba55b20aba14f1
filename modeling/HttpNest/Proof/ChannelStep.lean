import HttpNest.Proof.TcpConnection
import HttpNest.Spec.Channel

/-!
# What a step of a channel can do

`Move` lists the steps of an open connection that stays open; `step_move` says that
there are no others. The invariants of channels are shown by cases on `Move`.
-/

namespace HttpNest

open Epoll Channel

variable {c c' : Channel} {conn : TcpConnection}

/-! ## The channel -/

@[simp] theorem conn_apply (effect : Effect) : (c.apply effect).conn = c.conn := by
  cases effect <;> rfl

@[simp] theorem sock_apply (effect : Effect) : (c.apply effect).sock = c.sock := by
  cases effect <;> rfl

theorem conn_foldl (effects : List Effect) : (effects.foldl apply c).conn = c.conn := by
  induction effects generalizing c with
  | nil => rfl
  | cons effect effects ih => rw [List.foldl_cons, ih, conn_apply]

@[simp] theorem conn_effect (r : TcpConnection × List Effect) : (c.effect r).conn = r.1 :=
  conn_foldl r.2

/-- The effects other than `EnableWriting` leave the channel alone. -/
theorem effect_quiet {effects : List Effect} (h : effects = [] ∨ effects = [.writeComplete]) :
    c.effect (conn, effects) = { c with conn := conn } := by
  rcases h with rfl | rfl <;> rfl

@[simp] theorem readable_afterWrite (sock : Socket) (answer : Answer) :
    (afterWrite sock answer).Readable ↔ sock.Readable := by
  rcases answer with n | (_ | _ | _ | code) <;> exact .rfl

theorem writable_afterWrite {sock : Socket} {answer : Answer}
    (h : (afterWrite sock answer).writable = true) : sock.writable = true := by
  rcases answer with n | (_ | _ | _ | code) <;> first | exact h | cases h

/-! ## Steps -/

/-- The steps of an open connection that stays open. -/
inductive Channel.Move (c : Channel) : LoopEvent → Channel → Prop
  | kernel (e : SocketEvent) :
    Move c (.kernel e) { c with sock := c.sock.after e, item := c.item.wake (c.sock.wakes e) }
  | handOut : c.phase = .idle → c.item.queued = true →
    Move c .epollWait { c with
      item := (c.item.wait c.sock.ready).2
      phase := if (c.item.wait c.sock.ready).1 = ∅ then .idle
        else .handed (c.item.wait c.sock.ready).1 }
  | read {revents : Finset Flag} : c.phase = .handed revents →
    HttpNest.handleEvent revents = some .onRead → Move c .handleEvent { c with phase := .reading }
  | write {revents : Finset Flag} : c.phase = .handed revents →
    HttpNest.handleEvent revents = some .onWrite → c.conn.iovecList ≠ [] →
    Move c .handleEvent { c with phase := .writing }
  | writeNothing {revents : Finset Flag} : c.phase = .handed revents →
    HttpNest.handleEvent revents = some .onWrite → c.conn.iovecList = [] →
    Move c .handleEvent { c.enableWriting false with phase := .idle }
  | ignore {revents : Finset Flag} : c.phase = .handed revents →
    HttpNest.handleEvent revents = none → Move c .handleEvent { c with phase := .idle }
  | readSome {n : ℕ} : c.phase = .reading →
    Move c (.readv (.count n)) { c with sock := afterRead c.sock (.count n) }
  | readStop {e : Errno} : c.phase = .reading → ReadAnswer c.conn c.sock (.error e) →
    e.transient = true → Move c (.readv (.error e)) { c with phase := .idle }
  | wroteSome {n : ℕ} {vs : List Iovec} : c.phase = .writing → c.conn.iovecList ≠ [] →
    Move c (.writev (.count n)) { c with conn := { c.conn with iovecList := vs } }
  | wroteAll {n : ℕ} : c.phase = .writing →
    Move c (.writev (.count n))
      { { c with conn := { c.conn with iovecList := [] } }.enableWriting false with phase := .idle }
  | writeStop {e : Errno} : c.phase = .writing → e.transient = true →
    Move c (.writev (.error e))
      { c with sock := afterWrite c.sock (.error e), phase := .idle }
  | sent {e : LoopEvent} (answer : Answer) : c.phase ≠ .writing →
    Move c e { c with sock := afterWrite c.sock answer }
  | queued {e : LoopEvent} (answer : Answer) {vs : List Iovec} : c.phase ≠ .writing →
    Move c e ({ c with
      sock := afterWrite c.sock answer
      conn := { c.conn with iovecList := c.conn.iovecList ++ vs } }.enableWriting true)

/-- The connection behind a turn of a loop. -/
theorem conn_readTurn (answer : Answer) :
    (c.readTurn answer).conn = (c.conn.onReadTurn answer).1 := by
  rw [readTurn]
  exact conn_effect _

theorem conn_writeTurn {answer : Answer} (h : c.writeTurn answer = some c') :
    ∃ r, c.conn.onWriteTurn answer = some r ∧ c' =
      { { c with sock := afterWrite c.sock answer }.effect (r.1, r.2.1) with
        phase := if r.2.2 = true then .writing else .idle } := by
  obtain ⟨r, hr, rfl⟩ := Option.map_eq_some_iff.1 h
  exact ⟨r, hr, rfl⟩

/-- **A closed connection stays closed.** -/
theorem isClosed_step {e : LoopEvent} (hc : c.conn.isClosed = true) (h : c.step e = some c') :
    c'.conn.isClosed = true := by
  cases e with
  | kernel e =>
    cases h
    exact hc
  | epollWait =>
    obtain ⟨hgo, -⟩ := Option.ite_none_right_eq_some.1 h
    rw [hc] at hgo
    cases hgo.2.1
  | handleEvent =>
    simp only [Channel.step] at h
    split at h
    · cases h
      -- two handlers close, and reading and writing leave a closed connection alone
      unfold dispatch
      split
      · exact (congrArg TcpConnection.isClosed (conn_effect _)).trans (isClosed_onClose _)
      · exact (congrArg TcpConnection.isClosed (conn_effect _)).trans (isClosed_onClose _)
      · exact hc
      · rw [onWrite_closed hc]
        exact hc
      · exact hc
    · cases h
  | readv answer =>
    obtain ⟨-, h⟩ := Option.ite_none_right_eq_some.1 h
    cases h
    rw [conn_readTurn]
    rcases onReadTurn_cases c.conn answer with ⟨n, -, hr⟩ | ⟨e, -, -, hr⟩ | hr <;> rw [hr]
    · exact hc
    · exact hc
    · exact isClosed_onClose _
  | writev answer =>
    obtain ⟨-, h⟩ := Option.ite_none_right_eq_some.1 h
    obtain ⟨r, hr, rfl⟩ := conn_writeTurn h
    refine (congrArg TcpConnection.isClosed (conn_effect _)).trans ?_
    rcases onWriteTurn_cases hr with ⟨n, vs, -, -, hr, -⟩ | ⟨e, -, hr⟩
    · rw [hr]
      exact hc
    · split_ifs at hr
      · rw [hr]
        exact hc
      · rw [hr]
        exact isClosed_onClose _
  | send buf size answer =>
    obtain ⟨-, h⟩ := Option.ite_none_right_eq_some.1 h
    cases h
    rw [conn_effect, sendInLoop_closed hc]
    exact hc
  | sendList list =>
    obtain ⟨-, h⟩ := Option.ite_none_right_eq_some.1 h
    cases h
    rw [conn_effect, sendListInLoop_closed hc]
    exact hc
  | close =>
    obtain ⟨-, h⟩ := Option.ite_none_right_eq_some.1 h
    cases h
    rw [conn_effect]
    exact isClosed_onClose _

theorem dispatch_move (hc : c.conn.isClosed = false) {revents : Finset Flag}
    (hphase : c.phase = .handed revents) :
    (c.dispatch (HttpNest.handleEvent revents)).conn.isClosed = true ∨
      Move c .handleEvent (c.dispatch (HttpNest.handleEvent revents)) := by
  rcases hh : HttpNest.handleEvent revents with _ | (_ | _ | _ | _)
  · exact .inr (.ignore hphase hh)
  · left
    exact (congrArg TcpConnection.isClosed (conn_effect _)).trans (isClosed_onClose _)
  · left
    exact (congrArg TcpConnection.isClosed (conn_effect _)).trans (isClosed_onClose _)
  · right
    have hread : c.dispatch (some .onRead) = { c with phase := .reading } := by
      rw [dispatch, if_neg (by simp [hc])]
    rw [hread]
    exact .read hphase hh
  · right
    by_cases hq : c.conn.iovecList = []
    · have hwrite : c.dispatch (some .onWrite) = { c.enableWriting false with phase := .idle } := by
        simp only [dispatch, onWrite_open hc, if_pos hq]
        rfl
      rw [hwrite]
      exact .writeNothing hphase hh hq
    · have hwrite : c.dispatch (some .onWrite) = { c with phase := .writing } := by
        simp only [dispatch, onWrite_open hc, if_neg hq]
        rfl
      rw [hwrite]
      exact .write hphase hh hq

theorem readTurn_move {answer : Answer} (hphase : c.phase = .reading)
    (ha : ReadAnswer c.conn c.sock answer) :
    (c.readTurn answer).conn.isClosed = true ∨ Move c (.readv answer) (c.readTurn answer) := by
  rcases onReadTurn_cases c.conn answer with ⟨n, rfl, hr⟩ | ⟨e, rfl, he, hr⟩ | hr
  · right
    have hturn : c.readTurn (.count n) = { c with sock := afterRead c.sock (.count n) } := by
      rw [readTurn, hr, ← hphase]
      rfl
    rw [hturn]
    exact .readSome hphase
  · right
    have hturn : c.readTurn (.error e) = { c with phase := .idle } := by
      rw [readTurn, hr]
      rfl
    rw [hturn]
    exact .readStop hphase ha he
  · left
    rw [conn_readTurn, hr]
    exact isClosed_onClose _

theorem writeTurn_move {answer : Answer} (hphase : c.phase = .writing)
    (h : c.writeTurn answer = some c') :
    c'.conn.isClosed = true ∨ Move c (.writev answer) c' := by
  obtain ⟨⟨conn, effects, again⟩, hturn, rfl⟩ := conn_writeTurn h
  rcases onWriteTurn_cases hturn with ⟨n, vs, rfl, hconsume, hconn, heffects⟩ | ⟨e, rfl, hr⟩
  · right
    simp only at hconn heffects
    subst hconn
    by_cases hvs : vs = []
    · rw [if_pos hvs] at heffects
      cases heffects
      subst hvs
      exact .wroteAll hphase
    · rw [if_neg hvs] at heffects
      cases heffects
      have : Move c (.writev (.count n)) { c with conn := { c.conn with iovecList := vs } } :=
        .wroteSome hphase (consume_ne_nil hconsume hvs)
      rw [if_pos rfl, ← hphase]
      exact this
  · split_ifs at hr with he
    · cases hr
      exact .inr (.writeStop hphase he)
    · cases hr
      left
      exact (congrArg TcpConnection.isClosed (conn_effect _)).trans (isClosed_onClose _)

theorem send_move {e : LoopEvent} (hphase : c.phase ≠ .writing) (buf size : BitVec 64)
    (answer answer' : Answer) :
    Move c e ({ c with sock := afterWrite c.sock answer' }.effect
      (c.conn.sendInLoop buf size answer)) := by
  rcases sendInLoop_cases c.conn buf size answer with ⟨effects, hr, heffects⟩ | ⟨vec, hr⟩
  · rw [hr, effect_quiet heffects]
    exact .sent answer' hphase
  · rw [hr]
    exact .queued answer' hphase

theorem sendList_move {e : LoopEvent} (hc : c.conn.isClosed = false) (hphase : c.phase ≠ .writing)
    (list : List Iovec) : Move c e (c.effect (c.conn.sendListInLoop list)) := by
  rw [sendListInLoop_open hc]
  split_ifs with h0
  · have hconn : { c.conn with iovecList := c.conn.iovecList ++ list } = c.conn := by
      rw [h0, ← (List.append_eq_nil_iff.1 h0).1]
    rw [effect_quiet (.inl rfl), hconn]
    exact .sent (.count 0) hphase
  · exact .queued (.count 0) hphase

/-- **A step that leaves the connection open is one of the moves.** -/
theorem Channel.step_move {e : LoopEvent} (h : c.step e = some c') :
    c'.conn.isClosed = true ∨ c.conn.isClosed = false ∧ Move c e c' := by
  rcases hc : c.conn.isClosed with _ | _
  swap
  · exact .inl (isClosed_step hc h)
  cases e with
  | kernel e =>
    cases h
    exact .inr ⟨rfl, .kernel e⟩
  | epollWait =>
    obtain ⟨hgo, h⟩ := Option.ite_none_right_eq_some.1 h
    cases h
    exact .inr ⟨rfl, .handOut hgo.1 hgo.2.2⟩
  | handleEvent =>
    simp only [Channel.step] at h
    cases hphase : c.phase with
    | handed revents =>
      rw [hphase] at h
      cases h
      exact (dispatch_move hc hphase).imp_right fun hm => ⟨rfl, hm⟩
    | _ =>
      rw [hphase] at h
      cases h
  | readv answer =>
    obtain ⟨hgo, h⟩ := Option.ite_none_right_eq_some.1 h
    cases h
    exact (readTurn_move hgo.1 hgo.2).imp_right fun hm => ⟨rfl, hm⟩
  | writev answer =>
    obtain ⟨hgo, h⟩ := Option.ite_none_right_eq_some.1 h
    exact (writeTurn_move hgo.1 h).imp_right fun hm => ⟨rfl, hm⟩
  | send buf size answer =>
    obtain ⟨hgo, h⟩ := Option.ite_none_right_eq_some.1 h
    cases h
    refine .inr ⟨rfl, ?_⟩
    -- bytes that are queued are not written, as after an answer of no byte
    by_cases hd : c.Direct
    · rw [if_pos hd]
      exact send_move hgo.1 buf size answer answer
    · rw [if_neg hd]
      exact send_move hgo.1 buf size answer (.count 0)
  | sendList list =>
    obtain ⟨hgo, h⟩ := Option.ite_none_right_eq_some.1 h
    cases h
    exact .inr ⟨rfl, sendList_move hc hgo list⟩
  | close =>
    obtain ⟨-, h⟩ := Option.ite_none_right_eq_some.1 h
    cases h
    left
    rw [conn_effect]
    exact isClosed_onClose _

/-! ## Registration -/

@[simp] theorem conn_enableWriting (enable : Bool) : (c.enableWriting enable).conn = c.conn := rfl

@[simp] theorem sock_enableWriting (enable : Bool) : (c.enableWriting enable).sock = c.sock := rfl

@[simp] theorem phase_enableWriting (enable : Bool) :
    (c.enableWriting enable).phase = c.phase := rfl

/-- `EnableWriting` does not take back a queued notification. -/
theorem queued_enableWriting (enable : Bool) (h : c.item.queued = true) :
    (c.enableWriting enable).item.queued = true := Item.queued_ctl h

theorem epollout_enableWriting : .epollout ∈ (c.enableWriting true).item.events :=
  Finset.mem_union_right _ (by decide)

theorem epollet_enableWriting : .epollet ∈ (c.enableWriting true).item.events :=
  Finset.mem_union_right _ (by decide)

/-- Enabling writing on a writable socket queues a notification. -/
theorem writable_enableWriting (h : c.sock.writable = true) :
    (c.enableWriting true).item.queued = true := by
  refine Item.ready_queued (f := .epollout) ?_ (Finset.mem_union_right _ (by decide))
  rw [Socket.epollout_mem_ready]
  exact h

/-- `EnableWriting` leaves the registration for reading. -/
theorem epollin_enableWriting (enable : Bool) (h : .epollin ∈ c.item.events) :
    .epollin ∈ (c.enableWriting enable).item.events := by
  rcases enable with _ | _
  · exact Finset.mem_sdiff.2 ⟨h, by decide⟩
  · exact Finset.mem_union_left _ h

/-! ## `HandleEvent` -/

/-- What is not handled is not for writing. -/
theorem handleEvent_none {revents : Finset Flag} (h : handleEvent revents = none) :
    .epollin ∉ revents ∧ .epollout ∉ revents := by
  unfold handleEvent at h
  split_ifs at h with h1 h2 h3 h4
  exact ⟨fun hin => h3 (.inl hin), h4⟩

/-- `OnWrite` is not called for a notification that reading could take up. -/
theorem handleEvent_onWrite {revents : Finset Flag} (h : handleEvent revents = some .onWrite) :
    .epollin ∉ revents := by
  unfold handleEvent at h
  split_ifs at h with h1 h2 h3
  · cases h
  · cases h
  · cases h
  · exact fun hin => h3 (.inl hin)

end HttpNest
