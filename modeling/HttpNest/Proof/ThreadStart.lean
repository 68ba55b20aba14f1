import HttpNest.Proof.ThreadPlaces

/-!
# Starting an `EventLoopThread`

A thread in `Run` waits for the worker or for the thread that tells it to go on, and one of
these two can always go on (`Ok.active_enabled`). `left` bounds what is left to do; only a
wake-up without a notification sets it back. So `run_returns`: however the threads take turns,
they all return from `Run`, and behind it `Loop()` is not null.
-/

namespace HttpNest

open EventRun

/-! ## How far the threads are -/

/-- A step counts one, and a notification may count three back. -/
def WorkerPlace.rank : WorkerPlace → ℕ
  | .ended => 0
  | .unlocking => 1
  | .clearing => 2
  | .looping => 3
  | .entering => 4
  | .settingValue => 5
  | .settingLoop => 6
  | .sleeping false => 7
  | .testing => 8
  | .starting | .waking => 9
  | .sleeping true => 10

theorem WorkerPlace.rank_notify (w : WorkerPlace) : w.notify.rank ≤ w.rank + 3 := by
  cases w with
  | sleeping notified => cases notified <;> decide
  | _ => exact Nat.le_add_right _ _

/-- The notification counts four. -/
def CallerPlace.rank : CallerPlace → ℕ
  | .destroyed => 0
  | .joining => 1
  | .quitting => 2
  | .returned => 3
  | .getting | .blocked => 4
  | .unlocking => 5
  | .notifying => 9
  | .telling => 10
  | .locking => 11
  | .outside => 12

namespace EventLoopThread

variable {ι : Type*} {s s' : EventLoopThread ι}

/-- The steps that bring the start or the end of a thread nearer. -/
def counted : ThreadStep ι → Bool
  | .turn | .wakeSpuriously => false
  | _ => true

/-- **Behind `Run` the loop is known**, until the object is destroyed. -/
theorem Ok.loop_of_returned (h : s.Ok) {i : ι} (hi : s.caller i = .returned)
    (hd : s.destroyer = none) : s.loop = true := by
  have hpromised := h.promise.1 (h.done (h.behind i (by rw [hi]; rfl))).2
  have hleft : s.worker.left ≠ true := by
    intro hleft
    obtain ⟨j, hj⟩ := h.quit (.inl hleft)
    rw [h.destroyer j (CallerPlace.destroying_of_quit hj)] at hd
    cases hd
  rw [h.loop]
  cases hw : s.worker <;> simp_all [WorkerPlace.promised, WorkerPlace.known, WorkerPlace.left]

/-- What is left to do for the worker, the callers, and the destructor. -/
def left [Fintype ι] (s : EventLoopThread ι) : ℕ :=
  s.worker.rank + ∑ i, (s.caller i).rank + if s.destroyer = none then 1 else 0

theorem left_start [Fintype ι] : ({} : EventLoopThread ι).left = 12 * Fintype.card ι + 10 := by
  simp [left, WorkerPlace.rank, CallerPlace.rank]
  omega

theorem left_work [Fintype ι] (ht : s.work = some s') : s'.left < s.left := by
  have key : ∀ {w : WorkerPlace}, s'.worker = w → s'.caller = s.caller →
      s'.destroyer = s.destroyer → w.rank < s.worker.rank → s'.left < s.left := by
    rintro w rfl hc hd hlt
    rw [left, left, hc, hd]
    omega
  have hlock : s.workerLock = some s' → WorkerPlace.testing.rank < s.worker.rank →
      s'.left < s.left := by
    intro ht
    unfold workerLock at ht
    split_ifs at ht
    cases ht
    exact key rfl rfl rfl
  unfold work at ht
  cases hw : s.worker with
  | starting => rw [hw] at ht; exact hlock ht (by rw [hw]; decide)
  | waking => rw [hw] at ht; exact hlock ht (by rw [hw]; decide)
  | ended => simp only [hw] at ht; cases ht
  | _ =>
    simp only [hw] at ht
    try split_ifs at ht
    all_goals
      cases ht
      exact key rfl rfl rfl (by simp_all [WorkerPlace.rank])

/-! ## Who can go on -/

/-- If nobody else has locked `mtx_`, a worker that has not set the promise can go on, unless it
sleeps. -/
theorem Ok.work_isSome (h : s.Ok) (hmtx : ∀ i, s.mtx ≠ some (.caller i))
    (hw : s.worker.promised = false) (hs : s.worker ≠ .sleeping false) :
    s.work.isSome = true := by
  have hfree : s.worker.holds = false → s.mtx = none := by
    intro hh
    rcases hm : s.mtx with _ | w | i
    · rfl
    · rw [h.mtx_worker.1 hm] at hh
      cases hh
    · exact absurd hm (hmtx i)
  unfold EventLoopThread.work
  cases hwk : s.worker with
  | starting => simp [EventLoopThread.workerLock, hfree (by rw [hwk]; rfl)]
  | waking => simp [EventLoopThread.workerLock, hfree (by rw [hwk]; rfl)]
  | testing => dsimp only; split_ifs <;> rfl
  | sleeping notified =>
    cases notified with
    | true => rfl
    | false => exact absurd hwk hs
  | settingLoop => rfl
  | settingValue => rfl
  | _ => rw [hwk] at hw; cases hw

variable [DecidableEq ι]

/-- **The thread that executes the function, or the worker, can go on.** -/
theorem Ok.active_enabled [Fintype ι] (h : s.Ok) {i : ι} (hi : (s.caller i).active = true) :
    Enabled EventLoopThread.step counted s := by
  have hcall : (s.callOnce i).isSome = true → Enabled EventLoopThread.step counted s := fun hs =>
    ⟨.call i, rfl, hs⟩
  have honly : ∀ k, s.mtx = some (.caller k) → k = i := by
    intro k hk
    exact h.active_unique (CallerPlace.active_of_holds ((h.mtx_caller k).1 hk)) hi
  have htold := h.told i ((h.active i).2 hi)
  have hmine : (s.caller i).holds = false → ∀ k, s.mtx ≠ some (.caller k) := by
    intro hh k hk
    obtain rfl := honly k hk
    rw [(h.mtx_caller k).1 hk] at hh
    cases hh
  cases hp : s.caller i with
  | locking =>
    rw [hp] at htold
    rcases hm : s.mtx with _ | w | k
    · exact hcall (by simp [EventLoopThread.callOnce, hp, hm])
    · -- the worker has not seen `isRunning_`, so it is at the test
      have hrun : s.isRunning = false := by
        cases hr : s.isRunning with
        | true => cases htold.1 hr
        | false => rfl
      have hholds := h.mtx_worker.1 hm
      have htest : s.worker = .testing := by
        have hpassed := h.passed
        cases hw : s.worker <;> simp_all [WorkerPlace.holds, WorkerPlace.passed]
      exact ⟨.work, rfl, by simp [EventLoopThread.step, EventLoopThread.work, htest, hrun]⟩
    · exact absurd hm (hmine (by rw [hp]; rfl) k)
  | telling => exact hcall (by simp [EventLoopThread.callOnce, hp])
  | notifying => exact hcall (by simp [EventLoopThread.callOnce, hp])
  | unlocking => exact hcall (by simp [EventLoopThread.callOnce, hp])
  | getting =>
    rw [hp] at htold
    cases hprom : s.promise with
    | true => exact hcall (by simp [EventLoopThread.callOnce, hp, hprom])
    | false =>
      have hnot : s.worker.promised = false := by
        cases hw : s.worker.promised with
        | true =>
          rw [h.promise.2 hw] at hprom
          cases hprom
        | false => rfl
      refine ⟨.work, rfl, h.work_isSome (hmine (by rw [hp]; rfl)) hnot ?_⟩
      intro hsleep
      obtain ⟨k, hk⟩ := h.asleep hsleep (htold.2 rfl)
      obtain rfl := h.active_unique (i := k) (by rw [hk]; rfl) hi
      rw [hk] at hp
      cases hp
  | _ => rw [hp] at hi; cases hi

/-- As long as a thread is in `Run`, some thread can go on. -/
theorem Ok.enabled [Fintype ι] (h : s.Ok) {i : ι} (hi : InRun (s.caller i)) :
    Enabled EventLoopThread.step counted s := by
  by_cases hact : (s.caller i).active = true
  · exact h.active_enabled hact
  have hblocked : s.caller i = .blocked := by
    cases hp : s.caller i <;> simp_all [InRun, CallerPlace.active]
  cases ho : s.once with
  | fresh => exact absurd ho (h.blocked i hblocked)
  | active k => exact h.active_enabled ((h.active k).1 ho)
  | done => exact ⟨.resume i, rfl, by simp [EventLoopThread.step, hblocked, ho]⟩

/-! ## Steps of the callers -/

variable [Fintype ι]

/-- A thread goes from one place to another one. -/
theorem left_setCaller (s s₀ : EventLoopThread ι) (i : ι) (p : CallerPlace)
    (hc : s₀.caller = s.caller) (hd : s₀.destroyer = s.destroyer) :
    (s₀.setCaller i p).left + s.worker.rank + (s.caller i).rank =
      s.left + s₀.worker.rank + p.rank := by
  have h1 := Finset.add_sum_erase Finset.univ (fun j => (s.caller j).rank) (Finset.mem_univ i)
  have h2 := Finset.add_sum_erase Finset.univ (fun j => ((s₀.setCaller i p).caller j).rank)
    (Finset.mem_univ i)
  have h3 : ∑ j ∈ Finset.univ.erase i, ((s₀.setCaller i p).caller j).rank =
      ∑ j ∈ Finset.univ.erase i, (s.caller j).rank := by
    refine Finset.sum_congr rfl fun j hj => ?_
    simp [setCaller, Finset.ne_of_mem_erase hj, hc]
  have h4 : ((s₀.setCaller i p).caller i).rank = p.rank := by simp [setCaller]
  have hd' : (s₀.setCaller i p).destroyer = s.destroyer := hd
  have hw : (s₀.setCaller i p).worker = s₀.worker := rfl
  simp only [h3, h4] at h2
  simp only [left, hd', hw]
  omega

theorem left_callOnce {i : ι} (ht : s.callOnce i = some s') : s'.left < s.left := by
  unfold callOnce at ht
  cases hi : s.caller i with
  | notifying =>
    simp only [hi] at ht
    cases ht
    -- the worker may be three steps further away
    have hleft := left_setCaller s { s with worker := s.worker.notify } i .unlocking
      rfl rfl
    have hrank := s.worker.rank_notify
    simp only [hi, CallerPlace.rank] at hleft
    omega
  | locking =>
    simp only [hi] at ht
    split_ifs at ht
    cases ht
    have hleft := left_setCaller s { s with mtx := some (.caller i) } i .telling rfl rfl
    simp only [hi, CallerPlace.rank] at hleft
    omega
  | telling =>
    simp only [hi] at ht
    cases ht
    have hleft := left_setCaller s { s with isRunning := true } i .notifying rfl rfl
    simp only [hi, CallerPlace.rank] at hleft
    omega
  | unlocking =>
    simp only [hi] at ht
    cases ht
    have hleft := left_setCaller s { s with mtx := none } i .getting rfl rfl
    simp only [hi, CallerPlace.rank] at hleft
    omega
  | getting =>
    simp only [hi] at ht
    split_ifs at ht
    cases ht
    have hleft := left_setCaller s { s with once := .done } i .returned rfl rfl
    simp only [hi, CallerPlace.rank] at hleft
    omega
  | _ => simp only [hi] at ht; cases ht

theorem left_finishDestroy {i : ι} (ht : s.finishDestroy i = some s') : s'.left < s.left := by
  have hmove : ∀ p isLooping, p.rank < (s.caller i).rank →
      ({ s with isLooping := isLooping }.setCaller i p).left < s.left := by
    intro p isLooping hlt
    have hleft := left_setCaller s { s with isLooping := isLooping } i p rfl rfl
    dsimp only at hleft
    omega
  unfold finishDestroy at ht
  cases hi : s.caller i with
  | returned =>
    simp only [hi] at ht
    cases ht
    refine hmove _ s.isLooping ?_
    rw [hi]
    split_ifs <;> decide
  | quitting =>
    simp only [hi] at ht
    cases ht
    exact hmove _ false (by rw [hi]; decide)
  | joining =>
    simp only [hi] at ht
    split_ifs at ht
    cases ht
    exact hmove _ s.isLooping (by rw [hi]; decide)
  | _ => simp only [hi] at ht; cases ht

/-- **Every counted step brings the measure down**, and a wake-up without a notification brings it
up by two. -/
theorem left_step {e : ThreadStep ι} (ht : s.step e = some s') :
    (counted e = true → s'.left < s.left) ∧
      (counted e = false → s'.left ≤ s.left + if e = .wakeSpuriously then 2 else 0) := by
  cases e with
  | work => exact ⟨fun _ => left_work ht, fun he => by cases he⟩
  | turn =>
    simp only [step] at ht
    split_ifs at ht
    cases ht
    exact ⟨fun he => (by cases he), fun _ => Nat.le_add_right _ _⟩
  | wakeSpuriously =>
    refine ⟨fun he => (by cases he), fun _ => ?_⟩
    simp only [step] at ht
    cases hw : s.worker with
    | sleeping notified =>
      simp only [hw] at ht
      cases ht
      cases notified <;>
      · simp only [left, hw, WorkerPlace.rank, if_true]
        omega
    | _ => simp only [hw] at ht; cases ht
  | run i =>
    refine ⟨fun _ => ?_, fun he => by cases he⟩
    simp only [step] at ht
    split_ifs at ht with hg
    have hmove : ∀ (once : OnceFlag ι) (p : CallerPlace), p.rank < 12 →
        ({ s with once := once }.setCaller i p).left < s.left := by
      intro once p hlt
      have hleft := left_setCaller s { s with once := once } i p rfl rfl
      have hout : CallerPlace.outside.rank = 12 := rfl
      rw [hg.1, hout] at hleft
      dsimp only at hleft
      omega
    cases ho : s.once with
    | fresh => simp only [ho] at ht; cases ht; exact hmove _ _ (by decide)
    | active k => simp only [ho] at ht; cases ht; exact hmove s.once _ (by decide)
    | done => simp only [ho] at ht; cases ht; exact hmove s.once _ (by decide)
  | resume i =>
    refine ⟨fun _ => ?_, fun he => by cases he⟩
    simp only [step] at ht
    split_ifs at ht with hg
    cases ht
    have hleft := left_setCaller s s i .returned rfl rfl
    rw [hg.1] at hleft
    simp only [CallerPlace.rank] at hleft
    omega
  | call i => exact ⟨fun _ => left_callOnce ht, fun he => by cases he⟩
  | destroy i =>
    refine ⟨fun _ => ?_, fun he => by cases he⟩
    simp only [step] at ht
    split_ifs at ht with hg
    cases ht
    simp [left, hg.1]
  | finish i =>
    refine ⟨fun _ => ?_, fun he => by cases he⟩
    simp only [step] at ht
    split_ifs at ht
    exact left_finishDestroy ht

/-! ## All threads return from `Run` -/

/-- **A thread starts**, in every interleaving of the worker with any number of threads that call
`Run`, with any wake-ups of `condition_.wait`: some thread can go on as long as one of them is
in `Run`, they can go on only so many times, and who has returned finds a loop, until the object is
destroyed. -/
theorem run_returns {es : List (ThreadStep ι)} (h : run step {} es = some s) :
    (∀ i, s.caller i = .returned → s.destroyer = none → s.loop = true) ∧
      ((∃ i, InRun (s.caller i)) → Enabled step counted s) ∧
      es.countP counted ≤
        12 * Fintype.card ι + 10 + 2 * es.countP fun e => e = .wakeSpuriously := by
  have hok := ok_of_run h
  refine ⟨fun i => hok.loop_of_returned, fun ⟨i, hi⟩ => hok.enabled hi, ?_⟩
  have hbound := countP_le_of_measure step (fun _ => True) left counted
    (fun e : ThreadStep ι => e = .wakeSpuriously) 2 (fun _ _ _ _ _ => trivial)
    (fun s e s' _ ht he => (left_step ht).1 he)
    (fun s e s' _ ht he => by simpa using (left_step ht).2 he) trivial h
  rw [left_start] at hbound
  omega

/-- Two threads call `Run`, and the worker sleeps when it is told to go on. -/
def startedSteps : List (ThreadStep (Fin 2)) :=
  [.work, .work, .run 0, .run 1, .wakeSpuriously, .work, .work, .call 0, .call 0, .call 0, .call 0,
    .work, .work, .work, .work, .work, .call 0, .resume 1]

theorem run_returns_two : ∃ s, run step ({} : EventLoopThread (Fin 2)) startedSteps = some s ∧
    s.caller 1 = .returned ∧ s.loop = true := by
  obtain ⟨s, hs⟩ : ∃ s, run step ({} : EventLoopThread (Fin 2)) startedSteps = some s :=
    Option.isSome_iff_exists.1 (by decide)
  have hret : (run step ({} : EventLoopThread (Fin 2)) startedSteps).map
      (fun s => (s.caller 1, s.destroyer)) = some (.returned, none) := by decide
  rw [hs, Option.map_some, Option.some.injEq, Prod.mk.injEq] at hret
  exact ⟨s, hs, hret.1, (run_returns hs).1 1 hret.1 hret.2⟩

end EventLoopThread

end HttpNest
