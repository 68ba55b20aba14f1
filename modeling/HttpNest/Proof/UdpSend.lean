import HttpNest.Spec.UdpSocket

/-!
# Datagrams that are sent

A datagram leaves the queue, or is not queued at all, when `sendto` returns more than `0`. That
is what it returns for a datagram that is not empty, and then all datagrams are taken once and
in order. For an empty one `0` is the answer to a `sendto` that has taken it: `SendInLoop`
queues what has been sent, and the loop of `OnWrite` sends it for ever (`udp_correct_iff`).
-/

namespace HttpNest

open AnsweredLoop EventRun

namespace UdpSocket

variable {s : UdpSocket} {node : UdpBufferNode} {rest : List UdpBufferNode}

/-- No datagram in the queue is empty. -/
def Filled (s : UdpSocket) : Prop := ∀ node ∈ s.bufferList, 0 < node.size

/-! ## Turns of the loop -/

theorem onWriteTurn_nil (h : s.bufferList = []) (answer : Answer) :
    s.onWriteTurn answer = (s, [.writeComplete], false) := by
  obtain ⟨closed, list⟩ := s
  simp only at h
  subst h
  rfl

/-- A `sendto` that returns `n`. -/
theorem onWriteTurn_count (h : s.bufferList = node :: rest) (n : ℕ) :
    s.onWriteTurn (.count n) =
      if n = 0 then (s, [], true)
      else if rest = [] then ({ s with bufferList := rest }, [.writeComplete], false)
      else ({ s with bufferList := rest }, [], true) := by
  obtain ⟨closed, list⟩ := s
  simp only at h
  subst h
  by_cases hn : n = 0
  · simp [onWriteTurn, hn]
  · simp [onWriteTurn, hn, Nat.pos_of_ne_zero hn]

theorem onWriteTurn_error (h : s.bufferList = node :: rest) (e : Errno) :
    s.onWriteTurn (.error e) =
      if e.transient then (s, [], false) else (s.onClose.1, s.onClose.2, false) := by
  obtain ⟨closed, list⟩ := s
  simp only at h
  subst h
  rfl

theorem bufferList_onClose (s : UdpSocket) : s.onClose.1.bufferList = s.bufferList := by
  unfold onClose
  split_ifs <;> rfl

/-! ## The loop is left -/

theorem writeTurn_progress (hs : s.Filled) {answer : Answer}
    (ha : ∀ node ∈ s.bufferList.take 1, answer.SendTo node) :
    ∃ t, s.writeTurn answer = some (t, false) ∨
      s.writeTurn answer = some (t, true) ∧ t.Filled ∧
        t.bufferList.length < s.bufferList.length := by
  unfold writeTurn
  cases hq : s.bufferList with
  | nil =>
    rw [onWriteTurn_nil hq]
    exact ⟨_, .inl rfl⟩
  | cons node rest =>
    cases answer with
    | error e =>
      rw [onWriteTurn_error hq]
      cases e.transient with
      | true => exact ⟨_, .inl rfl⟩
      | false => exact ⟨_, .inl rfl⟩
    | count n =>
      -- the datagram is taken, and is not empty
      have hn : n = node.size := ha node (by simp [hq])
      have hpos : 0 < node.size := hs node (by simp [hq])
      rw [onWriteTurn_count hq, if_neg (by omega)]
      by_cases hrest : rest = []
      · rw [if_pos hrest]
        exact ⟨_, .inl rfl⟩
      · rw [if_neg hrest]
        refine ⟨{ s with bufferList := rest }, .inr ⟨rfl, ?_, ?_⟩⟩
        · intro node' hnode'
          exact hs node' (by rw [hq]; exact List.mem_cons_of_mem _ hnode')
        · simp

theorem Filled.returns (hs : s.Filled) : s.Returns := by
  intro answers ha
  have hturn : ∀ (s : UdpSocket) (answer : Answer), s.Filled →
      (∀ node ∈ s.bufferList.take 1, answer.SendTo node) →
      ∃ t, s.writeTurn answer = some (t, false) ∧ True ∨ s.writeTurn answer = some (t, true) ∧
        t.Filled ∧ t.bufferList.length < s.bufferList.length := by
    intro s answer hs ha
    obtain ⟨t, ht⟩ := writeTurn_progress hs ha
    exact ⟨t, ht.imp_left fun ht => ⟨ht, trivial⟩⟩
  obtain ⟨k, t, ht, -⟩ := leaves_of_measure (fun t => t.bufferList.length) Filled
    (fun _ _ => True) hturn ha hs
  exact ⟨k + 1, t, ht⟩

/-- The sizes of the datagrams, one after the other, and `0` for the first empty one. -/
def sizes (nodes : List UdpBufferNode) (k : ℕ) : Answer :=
  .count (((nodes.map UdpBufferNode.size)[k]?).getD 0)

/-- Each of the front datagrams is taken, and the empty one behind them stays. -/
theorem writeTurn_sizes {front : List UdpBufferNode} (hfront : ∀ node ∈ front, 0 < node.size)
    (hempty : node.size = 0) {k : ℕ} (hs : s.bufferList = front.drop k ++ node :: rest) :
    (∀ n ∈ s.bufferList.take 1, (sizes front k).SendTo n) ∧
      ∃ t, s.writeTurn (sizes front k) = some (t, true) ∧
        t.bufferList = front.drop (k + 1) ++ node :: rest := by
  unfold writeTurn sizes
  rcases lt_or_ge k front.length with hk | hk
  · have hdrop : front.drop k = front[k] :: front.drop (k + 1) := List.drop_eq_getElem_cons hk
    rw [hdrop, List.cons_append] at hs
    have hpos : 0 < front[k].size := hfront _ (List.getElem_mem hk)
    have hsize : ((front.map UdpBufferNode.size)[k]?).getD 0 = front[k].size := by simp [hk]
    rw [hsize, onWriteTurn_count hs, if_neg (by omega), if_neg (by simp), hs]
    refine ⟨?_, _, rfl, rfl⟩
    intro n hn
    rw [List.take_succ_cons, List.take_zero, List.mem_singleton] at hn
    rw [hn]
    rfl
  · have hdrop : front.drop k = [] := List.drop_eq_nil_of_le hk
    have hdrop' : front.drop (k + 1) = [] := List.drop_eq_nil_of_le (by omega)
    have hsize : ((front.map UdpBufferNode.size)[k]?).getD 0 = 0 := by simp [hk]
    rw [hdrop, List.nil_append] at hs
    rw [hsize, onWriteTurn_count hs, if_pos rfl, hdrop', List.nil_append]
    refine ⟨?_, s, rfl, hs⟩
    intro n hn
    rw [hs, List.take_succ_cons, List.take_zero, List.mem_singleton] at hn
    rw [hn]
    exact hempty.symm

/-- The first empty datagram of a queue. -/
theorem exists_first_empty {list : List UdpBufferNode} (h : ¬ ∀ node ∈ list, 0 < node.size) :
    ∃ front node rest, list = front ++ node :: rest ∧ (∀ n ∈ front, 0 < n.size) ∧
      node.size = 0 := by
  induction list with
  | nil => exact absurd (fun _ hn => by cases hn) h
  | cons n list ih =>
    by_cases hn : 0 < n.size
    · have hlist : ¬ ∀ node ∈ list, 0 < node.size := by
        intro hlist
        apply h
        intro node hnode
        rcases List.mem_cons.1 hnode with rfl | hnode
        · exact hn
        · exact hlist node hnode
      obtain ⟨front, node, rest, rfl, hfront, hempty⟩ := ih hlist
      refine ⟨n :: front, node, rest, rfl, ?_, hempty⟩
      intro m hm
      rcases List.mem_cons.1 hm with rfl | hm
      · exact hn
      · exact hfront m hm
    · refine ⟨[], n, list, rfl, ?_, by omega⟩
      intro m hm
      cases hm

/-- An empty datagram is sent for ever. -/
theorem not_returns (hs : ¬ s.Filled) : ¬ s.Returns := by
  obtain ⟨front, node, rest, hq, hfront, hempty⟩ := exists_first_empty hs
  have hgo := goes_on_of_inv
    (fun k (t : UdpSocket) => t.bufferList = front.drop k ++ node :: rest)
    (fun k t ht => (writeTurn_sizes hfront hempty ht).2) (s := s) hq
  have ha : s.Answered (sizes front) := by
    intro k t ht
    obtain ⟨u, hu, hlist⟩ := hgo k
    rw [hu] at ht
    cases ht
    exact (writeTurn_sizes hfront hempty hlist).1
  intro hreturns
  obtain ⟨k, t, ht⟩ := hreturns _ ha
  obtain ⟨u, hu, -⟩ := hgo k
  rw [hu] at ht
  cases ht

theorem returns_iff : s.Returns ↔ s.Filled := by
  constructor
  · intro h
    by_contra hs
    exact not_returns hs h
  · exact Filled.returns

end UdpSocket

namespace UdpRun

variable {s t : UdpRun} {e : UdpEvent}

/-- Every datagram passed to `Send` has been taken by `sendto` once and in order, or waits. -/
def Exact (s : UdpRun) : Prop := s.passed ++ s.socket.bufferList = s.sent

/-- What a run is to keep: no datagram is lost or sent twice, and `OnWrite` returns. -/
def Correct (s : UdpRun) : Prop := s.Exact ∧ s.socket.Returns

/-- No datagram of the call is empty. -/
def FilledSend : UdpEvent → Prop
  | .send node _ => 0 < node.size
  | .sendList list => ∀ node ∈ list, 0 < node.size
  | _ => True

/-- The invariant of the runs without empty datagrams. -/
def Inv (s : UdpRun) : Prop := s.Exact ∧ s.socket.Filled

theorem Inv.correct (hs : s.Inv) : s.Correct := ⟨hs.1, hs.2.returns⟩

/-! ## Steps -/

theorem sendInLoop_filled {node : UdpBufferNode} (h : 0 < node.size) {answer : Answer}
    (ha : answer.SendTo node) (socket : UdpSocket) :
    (socket.sendInLoop node answer).1 =
      if socket.bufferList = [] ∧ answer.success = true then socket
      else { socket with bufferList := socket.bufferList ++ [node] } := by
  unfold UdpSocket.sendInLoop Answer.success
  cases answer with
  | count n =>
    have hn : n = node.size := ha
    have hpos : 0 < n := by omega
    simp only [hpos, decide_true]
    split_ifs <;> rfl
  | error e => simp

theorem Inv.send (hs : s.Inv) {node : UdpBufferNode} {answer : Answer} (h : 0 < node.size)
    (hstep : s.step (.send node answer) = some t) : t.Inv := by
  obtain ⟨⟨-, -, ha⟩, hstep⟩ := Option.ite_none_right_eq_some.1 hstep
  cases hstep
  unfold Inv Exact
  simp only [sendInLoop_filled h ha]
  by_cases hdirect : s.socket.bufferList = [] ∧ answer.success = true
  · rw [if_pos hdirect, if_pos hdirect, hdirect.1, List.append_nil]
    have hexact := hs.1
    rw [Exact, hdirect.1, List.append_nil] at hexact
    exact ⟨by rw [hexact], hs.2⟩
  · rw [if_neg hdirect, if_neg hdirect, List.append_nil]
    refine ⟨by rw [← List.append_assoc, hs.1], ?_⟩
    intro n hn
    rcases List.mem_append.1 hn with hn | hn
    · exact hs.2 n hn
    · rw [List.mem_singleton.1 hn]
      exact h

theorem Inv.sendList (hs : s.Inv) {list : List UdpBufferNode} (h : ∀ node ∈ list, 0 < node.size)
    (hstep : s.step (.sendList list) = some t) : t.Inv := by
  obtain ⟨-, hstep⟩ := Option.ite_none_right_eq_some.1 hstep
  cases hstep
  refine ⟨?_, ?_⟩
  · show s.passed ++ (s.socket.bufferList ++ list) = s.sent ++ list
    rw [← List.append_assoc, hs.1]
  · intro n hn
    rcases List.mem_append.1 hn with hn | hn
    · exact hs.2 n hn
    · exact h n hn

/-- A turn of the loop hands the first datagram to `sendto`. -/
theorem Inv.sendTo (hs : s.Inv) {answer : Answer}
    (hstep : s.step (.sendTo answer) = some t) : t.Inv := by
  obtain ⟨⟨-, ha⟩, hstep⟩ := Option.ite_none_right_eq_some.1 hstep
  cases hstep
  unfold Inv Exact UdpSocket.Filled
  have hexact : s.passed ++ s.socket.bufferList = s.sent := hs.1
  cases hq : s.socket.bufferList with
  | nil =>
    rw [UdpSocket.onWriteTurn_nil hq]
    simp only [List.take_nil, ite_self, List.append_nil]
    exact ⟨hexact, hs.2⟩
  | cons node rest =>
    rw [hq] at ha hexact
    cases answer with
    | error e =>
      rw [UdpSocket.onWriteTurn_error hq]
      simp only [Answer.success, Bool.false_eq_true, if_false, List.append_nil]
      cases e.transient with
      | true =>
        simp only [if_true, hq]
        exact ⟨hexact, by rw [← hq]; exact hs.2⟩
      | false =>
        simp only [Bool.false_eq_true, if_false, UdpSocket.bufferList_onClose, hq]
        exact ⟨hexact, by rw [← hq]; exact hs.2⟩
    | count n =>
      have hn : n = node.size := ha node (by simp)
      have hpos : 0 < node.size := hs.2 node (by simp [hq])
      have hlist : (s.socket.onWriteTurn (.count n)).1.bufferList = rest := by
        rw [UdpSocket.onWriteTurn_count hq, if_neg (by omega)]
        split_ifs <;> rfl
      simp only [hlist, Answer.success, if_true, List.take_succ_cons, List.take_zero]
      refine ⟨by rw [← hexact, List.append_assoc]; rfl, ?_⟩
      intro m hm
      exact hs.2 m (by rw [hq]; exact List.mem_cons_of_mem _ hm)

theorem Inv.step (hs : s.Inv) (he : FilledSend e) (hstep : s.step e = some t) : t.Inv := by
  cases e with
  | send node answer => exact hs.send he hstep
  | sendList list => exact hs.sendList he hstep
  | sendTo answer => exact hs.sendTo hstep
  | onWrite =>
    obtain ⟨-, hstep⟩ := Option.ite_none_right_eq_some.1 hstep
    cases hstep
    exact hs

/-- An empty datagram is queued by every call that gets one. -/
theorem not_correct_of_empty (he : ¬ FilledSend e) (hstep : s.step e = some t) : ¬ t.Correct := by
  rintro ⟨-, hreturns⟩
  have hfilled := UdpSocket.returns_iff.1 hreturns
  cases e with
  | send node answer =>
    obtain ⟨⟨-, -, ha⟩, hstep⟩ := Option.ite_none_right_eq_some.1 hstep
    cases hstep
    have hlist : (s.socket.sendInLoop node answer).1.bufferList =
        s.socket.bufferList ++ [node] := by
      unfold UdpSocket.sendInLoop
      cases answer with
      | count n =>
        have hn : n = node.size := ha
        have hzero : ¬ n > 0 := by
          intro hpos
          exact he (show 0 < node.size by omega)
        simp [hzero]
      | error e => simp
    exact he (hfilled node (by rw [hlist]; simp))
  | sendList list =>
    obtain ⟨-, hstep⟩ := Option.ite_none_right_eq_some.1 hstep
    cases hstep
    apply he
    intro node hnode
    exact hfilled node (List.mem_append_right _ hnode)
  | sendTo answer => exact he trivial
  | onWrite => exact he trivial

/-- **Every datagram is sent once and in order and `OnWrite` always returns, exactly as long as
no datagram is empty.** -/
theorem udp_correct_iff {es : List UdpEvent} (h : run UdpRun.step {} es = some t) :
    Passes UdpRun.step Correct {} es ↔ ∀ e ∈ es, FilledSend e := by
  have hstart : Inv {} := ⟨rfl, fun _ hn => by cases hn⟩
  exact passes_iff_forall Inv (fun _ => Inv.correct) (fun _ _ _ hs he hstep => hs.step he hstep)
    (fun _ _ _ _ he hstep => not_correct_of_empty he hstep) hstart h

/-- A datagram that would block, and one behind it. -/
theorem udp_correct_two : Passes UdpRun.step Correct {}
    [.send ⟨0x1000, 5, 0x9000, 16⟩ (.error .eagain), .sendList [⟨0x2000, 7, 0x9000, 16⟩], .onWrite,
      .sendTo (.count 5), .sendTo (.count 7)] := by
  obtain ⟨t, ht⟩ : ∃ t, run UdpRun.step {}
      [.send ⟨0x1000, 5, 0x9000, 16⟩ (.error .eagain), .sendList [⟨0x2000, 7, 0x9000, 16⟩],
        .onWrite, .sendTo (.count 5), .sendTo (.count 7)] = some t :=
    Option.isSome_iff_exists.1 (by decide)
  exact (udp_correct_iff ht).2 (by simp [FilledSend])

/-- An empty datagram that `sendto` takes at once is queued, and sent again for ever. -/
theorem udp_empty : ∃ t, run UdpRun.step {} [.send ⟨0x1000, 0, 0x9000, 16⟩ (.count 0)] = some t ∧
    ¬ t.Exact ∧ ¬ t.socket.Returns := by
  refine ⟨_, rfl, ?_, UdpSocket.not_returns ?_⟩
  · unfold Exact
    decide
  · intro hfilled
    exact absurd (hfilled ⟨0x1000, 0, 0x9000, 16⟩ (by decide)) (by decide)

end UdpRun

end HttpNest
