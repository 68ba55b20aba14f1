import HttpNest.Proof.TcpConnection
import HttpNest.Spec.WriteLoop

/-!
# The loop of `OnWrite`

A `writev` that takes bytes makes the queue shorter in bytes, so the loop is left as long as
bytes are offered. A vector of length zero at the end of the queue is erased by no count:
once the others are written, `writev` answers `0` for ever (`leaves_iff`).

The loop offers all vectors at once. With more than `IOV_MAX` of them the call fails, and that
failure is no would-block (`healthy_iff`).
-/

namespace HttpNest

open AnsweredLoop EventRun TcpConnection

variable {c : TcpConnection} {vs ws : List Iovec} {n : ℕ}

/-! ## What a count does to the queue -/

/-- The last vector has length zero. -/
def EndsEmpty (vs : List Iovec) : Prop := ∃ v, vs.getLast? = some v ∧ v.iovLen = 0

theorem not_endsEmpty_nil : ¬ EndsEmpty [] := by
  rintro ⟨v, h, -⟩
  cases h

theorem endsEmpty_cons (v : Iovec) (h : vs ≠ []) : EndsEmpty (v :: vs) ↔ EndsEmpty vs := by
  unfold EndsEmpty
  rw [List.getLast?_cons_of_ne_nil h]

theorem endsEmpty_singleton (v : Iovec) : EndsEmpty [v] ↔ v.iovLen.toNat = 0 := by
  unfold EndsEmpty
  simp [BitVec.toNat_eq]

theorem iovecSize_cons (v : Iovec) (vs : List Iovec) :
    iovecSize (v :: vs) = v.iovLen.toNat + iovecSize vs := by
  simp [iovecSize]

/-- The last vector is part of the size. -/
theorem iovecSize_pos (h : vs ≠ []) (hend : ¬ EndsEmpty vs) : 0 < iovecSize vs := by
  induction vs with
  | nil => exact absurd rfl h
  | cons v vs ih =>
    rw [iovecSize_cons]
    cases vs with
    | nil =>
      rw [endsEmpty_singleton] at hend
      omega
    | cons w ws =>
      rw [endsEmpty_cons v (List.cons_ne_nil _ _)] at hend
      have := ih (List.cons_ne_nil _ _) hend
      omega

/-- The length of a vector that is cut. -/
theorem toNat_sub_iovLen {v : Iovec} (h : n < v.iovLen.toNat) :
    (v.iovLen - BitVec.ofNat 64 n).toNat = v.iovLen.toNat - n := by
  have hlt := v.iovLen.isLt
  bv_omega

/-- **A count up to the size is taken from the queue**, and the queue ends as it did. -/
theorem consume_size : ∀ {vs : List Iovec} {n : ℕ}, n ≤ iovecSize vs →
    ∃ ws, consume vs n = some ws ∧ iovecSize ws + n = iovecSize vs ∧ ws.length ≤ vs.length ∧
      (EndsEmpty ws ↔ EndsEmpty vs)
  | vs, 0, _ => ⟨vs, by cases vs <;> rfl, rfl, le_rfl, .rfl⟩
  | [], n + 1, h => by cases h
  | v :: vs, n + 1, h => by
    rw [iovecSize_cons] at h ⊢
    rw [consume]
    split_ifs with hgt
    · refine ⟨_, rfl, ?_, le_rfl, ?_⟩
      · rw [iovecSize_cons, toNat_sub_iovLen hgt]
        omega
      · cases vs with
        | nil =>
          rw [endsEmpty_singleton, endsEmpty_singleton, toNat_sub_iovLen hgt]
          omega
        | cons w ws =>
          rw [endsEmpty_cons _ (List.cons_ne_nil _ _), endsEmpty_cons _ (List.cons_ne_nil _ _)]
    · have hless : n + 1 - v.iovLen.toNat ≤ iovecSize vs := by omega
      obtain ⟨ws, hws, hsize, hlen, hend⟩ := consume_size hless
      refine ⟨ws, hws, by omega, hlen.trans (Nat.le_succ _), hend.trans ?_⟩
      cases vs with
      | nil =>
        -- the count ends with this vector, which is not empty
        simp only [iovecSize, List.map_nil, List.sum_nil] at h
        refine iff_of_false not_endsEmpty_nil ?_
        rw [endsEmpty_singleton]
        omega
      | cons w ws => rw [endsEmpty_cons v (List.cons_ne_nil _ _)]

/-! ## Turns -/

theorem writeTurn_count (h : consume c.iovecList n = some ws) :
    c.writeTurn (.count n) = some ({ c with iovecList := ws }, !decide (ws = [])) := by
  rw [writeTurn, onWriteTurn, h]
  by_cases hws : ws = [] <;> simp [hws]

theorem writeTurn_error (c : TcpConnection) (e : Errno) :
    c.writeTurn (.error e) = some (if e.transient then c else c.onClose.1, false) := by
  rw [writeTurn, onWriteTurn]
  cases e.transient <;> rfl

/-- `OnWrite` enters its loop with the queue of an open connection. -/
theorem onWrite_entered (h : c.onWrite.2.2 = true) :
    c.isClosed = false ∧ c.iovecList ≠ [] ∧ c.onWrite.1 = c := by
  unfold onWrite at h ⊢
  split_ifs at h ⊢ with hclosed hq
  exact ⟨by simpa using hclosed, hq, rfl⟩

theorem onWrite_not_entered (h : c.onWrite.2.2 = false) :
    c.onWrite.1 = c ∧ (c.isClosed = true ∨ c.iovecList = []) := by
  unfold onWrite at h ⊢
  split_ifs at h ⊢ with hclosed hq
  · exact ⟨rfl, .inl hclosed⟩
  · exact ⟨rfl, .inr hq⟩

/-! ## The loop is left -/

/-- `OnWrite` returns with the queue drained, a would-block or the connection closed. -/
def Leaves (c : TcpConnection) (answers : ℕ → Answer) : Prop :=
  ∃ k t, c.afterWrites answers k = some (t, false) ∧
    (t.iovecList = [] ∨ t.isClosed = true ∨
      ∃ j < k, ∃ e, answers j = .error e ∧ e.transient = true)

/-- A turn of a queue that does not end empty writes something, or leaves the loop. -/
theorem writeTurn_progress {answer : Answer} (hq : c.iovecList ≠ [])
    (hend : ¬ EndsEmpty c.iovecList) (ha : answer.Takes c.iovecList) :
    ∃ t, c.writeTurn answer = some (t, false) ∧ (t.iovecList = [] ∨ t.isClosed = true ∨
        ∃ e, answer = .error e ∧ e.transient = true) ∨
      c.writeTurn answer = some (t, true) ∧ (t.iovecList ≠ [] ∧ ¬ EndsEmpty t.iovecList) ∧
        iovecSize t.iovecList < iovecSize c.iovecList := by
  cases answer with
  | error e =>
    refine ⟨_, .inl ⟨writeTurn_error c e, ?_⟩⟩
    cases ht : e.transient with
    | true => exact .inr (.inr ⟨e, rfl, ht⟩)
    | false => exact .inr (.inl (isClosed_onClose c))
  | count n =>
    obtain ⟨hle, hzero⟩ := ha
    obtain ⟨ws, hws, hsize, -, hiff⟩ := consume_size hle
    have hpos := iovecSize_pos hq hend
    refine ⟨{ c with iovecList := ws }, ?_⟩
    rw [writeTurn_count hws]
    by_cases hnil : ws = []
    · exact .inl ⟨by simp [hnil], .inl hnil⟩
    · refine .inr ⟨by simp [hnil], ⟨hnil, fun h => hend (hiff.1 h)⟩, ?_⟩
      have hn : n ≠ 0 := by
        intro h0
        have := hzero h0
        omega
      show iovecSize ws < iovecSize c.iovecList
      omega

theorem leaves_of_not_endsEmpty {answers : ℕ → Answer} (ha : c.Answered Answer.Takes answers)
    (hend : ¬ EndsEmpty c.iovecList) : Leaves c answers := by
  cases hgo : c.onWrite.2.2 with
  | false =>
    obtain ⟨hc, hleft⟩ := onWrite_not_entered hgo
    refine ⟨0, c, ?_, ?_⟩
    · rw [afterWrites, hc, hgo]
      rfl
    · rcases hleft with hclosed | hq
      · exact .inr (.inl hclosed)
      · exact .inl hq
  | true =>
    obtain ⟨-, hq, hc⟩ := onWrite_entered hgo
    rw [TcpConnection.Answered, hc, hgo] at ha
    obtain ⟨k, t, ht, hQ⟩ := leaves_of_measure (fun t => iovecSize t.iovecList)
      (fun t => t.iovecList ≠ [] ∧ ¬ EndsEmpty t.iovecList)
      (fun t a => t.iovecList = [] ∨ t.isClosed = true ∨ ∃ e, a = .error e ∧ e.transient = true)
      (fun s a hs ha => writeTurn_progress hs.1 hs.2 ha) ha ⟨hq, hend⟩
    refine ⟨k + 1, t, ?_, ?_⟩
    · rw [afterWrites, hc, hgo]
      exact ht
    · rcases hQ with hq | hclosed | he
      · exact .inl hq
      · exact .inr (.inl hclosed)
      · exact .inr (.inr ⟨k, Nat.lt_succ_self k, he⟩)

/-- The bytes left behind `k` calls, of which the first takes all. -/
def bytesLeft (c : TcpConnection) (k : ℕ) : ℕ := if k = 0 then iovecSize c.iovecList else 0

/-- All bytes at once, and `0` afterwards. -/
def drainThenZero (c : TcpConnection) (k : ℕ) : Answer := .count (bytesLeft c k)

/-- The queue still ends in a vector of length zero. -/
def Stranded (c : TcpConnection) (k : ℕ) (t : TcpConnection) : Prop :=
  EndsEmpty t.iovecList ∧ iovecSize t.iovecList = bytesLeft c k

theorem Stranded.turn {k : ℕ} {t : TcpConnection} (h : Stranded c k t) :
    ∃ u, t.writeTurn (drainThenZero c k) = some (u, true) ∧ Stranded c (k + 1) u := by
  obtain ⟨hend, hsize⟩ := h
  obtain ⟨ws, hws, hleft, -, hiff⟩ := consume_size hsize.ge
  have hnil : ws ≠ [] := by
    rintro rfl
    exact not_endsEmpty_nil (hiff.2 hend)
  refine ⟨{ t with iovecList := ws }, ?_, hiff.2 hend, ?_⟩
  · rw [drainThenZero, writeTurn_count hws]
    simp [hnil]
  · show iovecSize ws = 0
    omega

theorem not_leaves_of_endsEmpty (hopen : c.isClosed = false) (hend : EndsEmpty c.iovecList) :
    c.Answered Answer.Takes (drainThenZero c) ∧ ¬ Leaves c (drainThenZero c) := by
  have hq : c.iovecList ≠ [] := by
    intro hq
    rw [hq] at hend
    exact not_endsEmpty_nil hend
  have hentered : (c.onWrite.1, c.onWrite.2.2) = (c, true) := by
    rw [onWrite_open hopen, if_neg hq]
  have hgo := goes_on_of_inv (Stranded c) (fun k t ht => ht.turn) (s := c) ⟨hend, rfl⟩
  constructor
  · intro k t ht
    rw [hentered] at ht
    obtain ⟨u, hu, hstranded⟩ := hgo k
    rw [hu] at ht
    cases ht
    refine ⟨hstranded.2.ge, ?_⟩
    intro hzero
    rw [hstranded.2, hzero]
  · rintro ⟨k, t, ht, -⟩
    obtain ⟨u, hu, -⟩ := hgo k
    rw [afterWrites, hentered, hu] at ht
    cases ht

/-- **`OnWrite` returns under all answers exactly if the queue does not end in a vector of
length zero**, or the connection is closed. -/
theorem leaves_iff (c : TcpConnection) :
    (∀ answers, c.Answered Answer.Takes answers → Leaves c answers) ↔
      c.isClosed = true ∨ ∀ v, c.iovecList.getLast? = some v → v.iovLen ≠ 0 := by
  have hcond : (∀ v, c.iovecList.getLast? = some v → v.iovLen ≠ 0) ↔ ¬ EndsEmpty c.iovecList := by
    simp [EndsEmpty]
  rw [hcond]
  constructor
  · intro hall
    by_contra hno
    obtain ⟨hopen, hend⟩ := not_or.1 hno
    obtain ⟨ha, hspin⟩ := not_leaves_of_endsEmpty (by simpa using hopen) (not_not.1 hend)
    exact hspin (hall _ ha)
  · rintro (hclosed | hend) answers ha
    · refine ⟨0, c, ?_, .inr (.inl hclosed)⟩
      rw [afterWrites, onWrite_closed hclosed]
      rfl
    · exact leaves_of_not_endsEmpty ha hend

/-- A node of five bytes, and an empty one behind it. -/
theorem onWrite_spins :
    ¬ ∀ answers, ({ iovecList := [⟨0x1000, 5⟩, ⟨0x2000, 0⟩] } : TcpConnection).Answered
      Answer.Takes answers → Leaves { iovecList := [⟨0x1000, 5⟩, ⟨0x2000, 0⟩] } answers := by
  intro hall
  obtain ⟨ha, hspin⟩ := not_leaves_of_endsEmpty
    (c := { iovecList := [⟨0x1000, 5⟩, ⟨0x2000, 0⟩] }) rfl ⟨⟨0x2000, 0⟩, rfl, rfl⟩
  exact hspin (hall _ ha)

/-! ## More vectors than the kernel takes -/

/-- Bytes of this vector are offered in a call that does not fail for good. -/
def Offers (c : TcpConnection) (answers : ℕ → Answer) (v : Iovec) : Prop :=
  ∃ k t, c.afterWrites answers k = some (t, true) ∧ v ∈ t.iovecList ∧ (answers k).isHard = false

/-- Whatever Linux answers, `OnWrite` leaves the connection open, and offers all that is
queued. -/
def Healthy (c : TcpConnection) : Prop :=
  ∀ answers, c.Answered Answer.Linux answers →
    (∀ k r, c.afterWrites answers k = some r → r.1.isClosed = false) ∧
      ∀ v ∈ c.iovecList, Offers c answers v

/-- A turn within the limit. -/
theorem writeTurn_linux {answer : Answer} {r : TcpConnection × Bool} (hopen : c.isClosed = false)
    (hlen : c.iovecList.length ≤ iovMax) (ha : answer.Linux c.iovecList)
    (h : c.writeTurn answer = some r) :
    r.1.isClosed = false ∧ r.1.iovecList.length ≤ iovMax := by
  cases answer with
  | error e =>
    have he : e = .eagain := by rwa [Answer.Linux, if_pos hlen] at ha
    rw [he, writeTurn_error] at h
    cases h
    exact ⟨hopen, hlen⟩
  | count n =>
    obtain ⟨ws, hws, -, hle, -⟩ := consume_size ha.2.1
    rw [writeTurn_count hws] at h
    cases h
    exact ⟨hopen, hle.trans hlen⟩

theorem healthy_of_le (hopen : c.isClosed = false) (hlen : c.iovecList.length ≤ iovMax) :
    Healthy c := by
  have hstart : c.onWrite.1 = c := by
    rw [onWrite_open hopen]
    split_ifs <;> rfl
  intro answers ha
  constructor
  · intro k r hr
    have hinv := after_inv (fun t => t.isClosed = false ∧ t.iovecList.length ≤ iovMax)
      (fun s a t hs ha h => writeTurn_linux hs.1 hs.2 ha h) ha
      (by rw [hstart]; exact ⟨hopen, hlen⟩) hr
    exact hinv.1
  · intro v hv
    have hq : c.iovecList ≠ [] := List.ne_nil_of_mem hv
    have hentered : c.afterWrites answers 0 = some (c, true) := by
      rw [afterWrites, after_zero, onWrite_open hopen, if_neg hq]
    refine ⟨0, c, hentered, hv, ?_⟩
    have hlinux := ha 0 c hentered
    cases hanswer : answers 0 with
    | count n => rfl
    | error e =>
      rw [hanswer, Answer.Linux, if_pos hlen] at hlinux
      rw [hlinux]
      rfl

theorem not_healthy (hopen : c.isClosed = false) (hlen : iovMax < c.iovecList.length) :
    ¬ Healthy c := by
  have hq : c.iovecList ≠ [] := List.ne_nil_of_length_pos (by omega)
  have hentered : (c.onWrite.1, c.onWrite.2.2) = (c, true) := by
    rw [onWrite_open hopen, if_neg hq]
  have hone : c.afterWrites (fun _ => .error einval) 1 = some (c.onClose.1, false) := by
    rw [afterWrites, hentered, after_succ (after_zero _), writeTurn_error]
    rfl
  have ha : c.Answered Answer.Linux fun _ => .error einval := by
    intro k t ht
    cases k with
    | zero =>
      rw [hentered] at ht
      cases ht
      exact (if_neg (not_le.2 hlen)).mpr rfl
    | succ k =>
      -- the failure has left the loop
      have hleft : ∀ k, c.afterWrites (fun _ => .error einval) (k + 1) =
          some (c.onClose.1, false) := by
        intro k
        induction k with
        | zero => exact hone
        | succ k ih => exact after_succ_left ih
      rw [← afterWrites, hleft k] at ht
      cases ht
  intro hhealthy
  have hclosed := (hhealthy _ ha).1 1 _ hone
  rw [isClosed_onClose] at hclosed
  cases hclosed

theorem healthy_iff (hopen : c.isClosed = false) :
    Healthy c ↔ c.iovecList.length ≤ iovMax := by
  constructor
  · intro hhealthy
    by_contra hlen
    exact not_healthy hopen (not_le.1 hlen) hhealthy
  · exact healthy_of_le hopen

/-- `Send` while the socket is not writable: a `write` would block. -/
def BackPressure : SendEvent → Prop
  | .send _ _ answer => answer = .error .eagain
  | .sendList _ => True
  | _ => False

/-- No `Send` closes the connection then. -/
theorem isClosed_of_backPressure {mem : Memory} {s t : SendQueue} {e : SendEvent}
    (hs : s.conn.isClosed = false) (he : BackPressure e) (h : s.step mem e = some t) :
    t.conn.isClosed = false := by
  cases e with
  | send buf size answer =>
    simp only [SendQueue.step, Option.ite_none_right_eq_some] at h
    obtain ⟨-, h⟩ := h
    cases h
    rcases sendInLoop_cases s.conn buf size answer with ⟨effects, hsend, -⟩ | ⟨vec, hsend⟩
    · simp only [hsend, hs]
    · simp only [hsend, push, hs]
  | sendList list =>
    simp only [SendQueue.step, Option.ite_none_right_eq_some] at h
    obtain ⟨-, h⟩ := h
    cases h
    simp only [sendListInLoop_open hs, hs]
  | onWrite => cases he
  | writev answer => cases he
  | close => cases he

/-- **What has been queued while the socket was not writable is written without closing the
connection exactly if it is not more than `IOV_MAX` vectors.** -/
theorem healthy_backPressure_iff (mem : Memory) {s t : SendQueue} {es : List SendEvent}
    (hopen : s.conn.isClosed = false) (hes : ∀ e ∈ es, BackPressure e)
    (hrun : run (SendQueue.step mem) s es = some t) :
    Healthy t.conn ↔ t.conn.iovecList.length ≤ iovMax := by
  apply healthy_iff
  exact run_inv_of_meets (fun s => s.conn.isClosed = false)
    (fun _ _ _ hs he h => isClosed_of_backPressure hs he h) hopen (meets_of_forall hes) hrun

/-- Two sends. -/
theorem healthy_two : ∃ t, run (SendQueue.step fun _ => 0) {}
    [.send 0x1000 5 (.error .eagain), .sendList [⟨0x2000, 7⟩]] = some t ∧ Healthy t.conn := by
  have hes : ∀ e ∈ [SendEvent.send 0x1000 5 (.error .eagain), .sendList [⟨0x2000, 7⟩]],
      BackPressure e := by simp [BackPressure]
  refine ⟨_, rfl, (healthy_backPressure_iff (fun _ => 0) (s := {}) rfl hes rfl).2 ?_⟩
  decide

/-- One list of 1025 nodes. -/
theorem not_healthy_long : ∃ t, run (SendQueue.step fun _ => 0) {}
    [.sendList (List.replicate 1025 ⟨0x1000, 1⟩)] = some t ∧ ¬ Healthy t.conn := by
  refine ⟨_, rfl, not_healthy rfl ?_⟩
  have hlen : (List.replicate 1025 (⟨0x1000, 1⟩ : Iovec)).length = 1025 := List.length_replicate
  show iovMax < (List.replicate 1025 (⟨0x1000, 1⟩ : Iovec)).length
  rw [hlen]
  decide

end HttpNest
