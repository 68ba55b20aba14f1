import HttpNest.Spec.EventLoopThread

/-!
# What the threads of an `EventLoopThread` share

All of it is fixed by where the threads are (`Ok`): who has locked `mtx_`, and whether
`isRunning_`, the promise, `loop_` and `once_` are set. The worker does not sleep through the
notification: it sleeps with `isRunning_` set only as long as the thread that has set it is
still to notify it (`Ok.asleep`). Every step keeps this (`Ok.step`); the steps of the worker go
through `Ok.moved`, and those of the other threads through `Ok.called`.
-/

namespace HttpNest

open EventRun

/-! ## Places -/

namespace WorkerPlace

/-- `mtx_` is locked by the worker. -/
def holds : WorkerPlace → Bool
  | .testing | .settingLoop | .settingValue | .entering | .looping | .clearing | .unlocking => true
  | .starting | .sleeping _ | .waking | .ended => false

/-- `isRunning_` has been seen. -/
def passed : WorkerPlace → Bool
  | .settingLoop | .settingValue | .entering | .looping | .clearing | .unlocking | .ended => true
  | .starting | .testing | .sleeping _ | .waking => false

/-- The value of the promise has been set. -/
def promised : WorkerPlace → Bool
  | .entering | .looping | .clearing | .unlocking | .ended => true
  | _ => false

/-- `loop_` is not null. -/
def known : WorkerPlace → Bool
  | .settingValue | .entering | .looping | .clearing => true
  | _ => false

/-- `Loop()` has returned. -/
def left : WorkerPlace → Bool
  | .clearing | .unlocking | .ended => true
  | _ => false

end WorkerPlace

namespace CallerPlace

/-- `mtx_` is locked by this thread. -/
def holds : CallerPlace → Bool
  | .telling | .notifying | .unlocking => true
  | _ => false

/-- The thread executes the function that is called once. -/
def active : CallerPlace → Bool
  | .locking | .telling | .notifying | .unlocking | .getting => true
  | _ => false

/-- It has set `isRunning_`. -/
def told : CallerPlace → Bool
  | .notifying | .unlocking | .getting => true
  | _ => false

/-- It has returned from `Run`. -/
def behind : CallerPlace → Bool
  | .returned | .quitting | .joining | .destroyed => true
  | _ => false

/-- It is in the destructor, behind `Run`. -/
def destroying : CallerPlace → Bool
  | .quitting | .joining | .destroyed => true
  | _ => false

/-- It has called `Quit`. -/
def quit : CallerPlace → Bool
  | .joining | .destroyed => true
  | _ => false

theorem active_of_holds {p : CallerPlace} (h : p.holds = true) : p.active = true := by
  cases p <;> simp_all [holds, active]

theorem destroying_of_quit {p : CallerPlace} (h : p.quit = true) : p.destroying = true := by
  cases p <;> simp_all [quit, destroying]

end CallerPlace

namespace EventLoopThread

variable {ι : Type*}

/-! ## What the places fix -/

/-- The shared state, as the places of the threads have it. -/
structure Ok (s : EventLoopThread ι) : Prop where
  mtx_worker : s.mtx = some .worker ↔ s.worker.holds = true
  mtx_caller : ∀ i, s.mtx = some (.caller i) ↔ (s.caller i).holds = true
  active : ∀ i, s.once = .active i ↔ (s.caller i).active = true
  fresh : s.once = .fresh → s.isRunning = false
  told : ∀ i, s.once = .active i → (s.isRunning = true ↔ (s.caller i).told = true)
  done : s.once = .done → s.isRunning = true ∧ s.promise = true
  behind : ∀ i, (s.caller i).behind = true → s.once = .done
  blocked : ∀ i, s.caller i = .blocked → s.once ≠ .fresh
  passed : s.worker.passed = true → s.isRunning = true
  asleep : s.worker = .sleeping false → s.isRunning = true → ∃ i, s.caller i = .notifying
  promise : s.promise = true ↔ s.worker.promised = true
  loop : s.loop = true ↔ s.worker.known = true
  quit : s.worker.left = true ∨ s.worker = .looping ∧ s.isLooping = false →
    ∃ i, (s.caller i).quit = true
  destroyer : ∀ i, (s.caller i).destroying = true → s.destroyer = some i
  alone : ∀ d, s.destroyer = some d → ∀ j, j ≠ d → s.caller j = .outside ∨ s.caller j = .returned

theorem ok_start : ({} : EventLoopThread ι).Ok where
  mtx_worker := by simp [WorkerPlace.holds]
  mtx_caller i := by simp [CallerPlace.holds]
  active i := by simp [CallerPlace.active]
  fresh _ := rfl
  told i h := by cases h
  done h := by cases h
  behind i h := by cases h
  blocked i h := by cases h
  passed h := by cases h
  asleep h := by cases h
  promise := by simp [WorkerPlace.promised]
  loop := by simp [WorkerPlace.known]
  quit h := by simp [WorkerPlace.left] at h
  destroyer i h := by cases h
  alone d h := by cases h

variable {s s' : EventLoopThread ι}

/-- Only one thread executes the function that is called once. -/
theorem Ok.active_unique (h : s.Ok) {i j : ι} (hi : (s.caller i).active = true)
    (hj : (s.caller j).active = true) : i = j := by
  have h1 := (h.active i).2 hi
  rw [(h.active j).2 hj] at h1
  cases h1
  rfl

/-! ## Steps of the worker -/

/-- The worker goes from one place to another one, and sets what goes with it. -/
theorem Ok.moved (h : s.Ok) {w : WorkerPlace} {mtx : Option (MtxOwner ι)} {loop promise : Bool}
    {isLooping : Bool} (hw : mtx = some .worker ↔ w.holds = true)
    (hc : ∀ i, mtx = some (.caller i) ↔ s.mtx = some (.caller i))
    (hpassed : w.passed = true → s.isRunning = true)
    (hasleep : w = .sleeping false → s.isRunning = false)
    (hpromise : promise = true ↔ w.promised = true) (hkept : s.promise = true → promise = true)
    (hloop : loop = true ↔ w.known = true)
    (hquit : w.left = true ∨ w = .looping ∧ isLooping = false →
      s.worker.left = true ∨ s.worker = .looping ∧ s.isLooping = false) :
    Ok { s with
      worker := w, mtx := mtx, loop := loop, promise := promise, isLooping := isLooping } where
  mtx_worker := hw
  mtx_caller i := (hc i).trans (h.mtx_caller i)
  active := h.active
  fresh := h.fresh
  told := h.told
  done hd := ⟨(h.done hd).1, hkept (h.done hd).2⟩
  behind := h.behind
  blocked := h.blocked
  passed := hpassed
  asleep hs hr := by
    rw [hasleep hs] at hr
    cases hr
  promise := hpromise
  loop := hloop
  quit hq := h.quit (hquit hq)
  destroyer := h.destroyer
  alone := h.alone

/-- Between two places where `mtx_` is locked. -/
theorem Ok.moved_locked (h : s.Ok) {w : WorkerPlace} {loop promise isLooping : Bool}
    (hs : s.worker.holds = true) (hw : w.holds = true)
    (hpassed : w.passed = true → s.isRunning = true)
    (hpromise : promise = true ↔ w.promised = true) (hkept : s.promise = true → promise = true)
    (hloop : loop = true ↔ w.known = true)
    (hquit : w.left = true ∨ w = .looping ∧ isLooping = false →
      s.worker.left = true ∨ s.worker = .looping ∧ s.isLooping = false) :
    Ok { s with worker := w, loop := loop, promise := promise, isLooping := isLooping } := by
  refine h.moved ?_ (fun _ => .rfl) hpassed ?_ hpromise hkept hloop hquit
  · rw [h.mtx_worker, hs, hw]
  · rintro rfl
    cases hw

theorem Ok.workerLock (h : s.Ok) (hs : s.worker = .starting ∨ s.worker = .waking)
    (ht : s.workerLock = some s') : s'.Ok := by
  unfold EventLoopThread.workerLock at ht
  split_ifs at ht with hm
  cases ht
  have hpromise := h.promise
  have hloop := h.loop
  refine h.moved (w := .testing) ?_ ?_ ?_ ?_ ?_ id ?_ ?_
  all_goals rcases hs with hs | hs <;>
    simp_all [WorkerPlace.holds, WorkerPlace.passed, WorkerPlace.promised, WorkerPlace.known,
      WorkerPlace.left]

theorem Ok.work (h : s.Ok) (ht : s.work = some s') : s'.Ok := by
  have hpromise := h.promise
  have hloop := h.loop
  have hmtx := h.mtx_worker
  unfold EventLoopThread.work at ht
  cases hw : s.worker with
  | starting =>
    rw [hw] at ht
    exact h.workerLock (.inl hw) ht
  | testing =>
    simp only [hw] at ht
    rw [hw] at hpromise hloop hmtx
    split_ifs at ht with hr
    · cases ht
      exact h.moved_locked (by rw [hw]; rfl) rfl (fun _ => hr) hpromise id hloop
        (by simp [WorkerPlace.left])
    · cases ht
      refine h.moved (by simp [WorkerPlace.holds]) ?_ (by simp [WorkerPlace.passed])
        (fun _ => by simpa using hr) hpromise id hloop (by simp [WorkerPlace.left])
      intro i
      rw [hmtx.2 rfl]
      simp
  | sleeping notified =>
    simp only [hw] at ht
    split_ifs at ht
    cases ht
    rw [hw] at hpromise hloop hmtx
    exact h.moved hmtx (fun _ => .rfl) (by simp [WorkerPlace.passed]) (by simp) hpromise id hloop
      (by simp [WorkerPlace.left])
  | waking =>
    rw [hw] at ht
    exact h.workerLock (.inr hw) ht
  | settingLoop =>
    simp only [hw] at ht
    cases ht
    rw [hw] at hpromise hloop hmtx
    exact h.moved_locked (by rw [hw]; rfl) rfl (fun _ => h.passed (by rw [hw]; rfl)) hpromise id
      (by simp [WorkerPlace.known]) (by simp [WorkerPlace.left])
  | settingValue =>
    simp only [hw] at ht
    cases ht
    rw [hw] at hpromise hloop hmtx
    exact h.moved_locked (by rw [hw]; rfl) rfl (fun _ => h.passed (by rw [hw]; rfl))
      (by simp [WorkerPlace.promised]) (fun _ => rfl) hloop (by simp [WorkerPlace.left])
  | entering =>
    simp only [hw] at ht
    cases ht
    rw [hw] at hpromise hloop hmtx
    exact h.moved_locked (by rw [hw]; rfl) rfl (fun _ => h.passed (by rw [hw]; rfl)) hpromise id
      hloop (by simp [WorkerPlace.left])
  | looping =>
    simp only [hw] at ht
    split_ifs at ht with hl
    cases ht
    rw [hw] at hpromise hloop hmtx
    exact h.moved_locked (by rw [hw]; rfl) rfl (fun _ => h.passed (by rw [hw]; rfl)) hpromise id
      hloop (fun _ => .inr ⟨hw, by simpa using hl⟩)
  | clearing =>
    simp only [hw] at ht
    cases ht
    rw [hw] at hpromise hloop hmtx
    exact h.moved_locked (by rw [hw]; rfl) rfl (fun _ => h.passed (by rw [hw]; rfl)) hpromise id
      (by simp [WorkerPlace.known]) (fun _ => .inl (by rw [hw]; rfl))
  | unlocking =>
    simp only [hw] at ht
    cases ht
    rw [hw] at hpromise hloop hmtx
    refine h.moved (by simp [WorkerPlace.holds]) ?_ (fun _ => h.passed (by rw [hw]; rfl)) (by simp)
      hpromise id hloop (fun _ => .inl (by rw [hw]; rfl))
    intro i
    rw [hmtx.2 rfl]
    simp
  | ended =>
    simp only [hw] at ht
    cases ht

/-- The notification, with the worker asleep or not. -/
theorem Ok.notified (h : s.Ok) : Ok { s with worker := s.worker.notify } := by
  have hmtx := h.mtx_worker
  have hpromise := h.promise
  have hloop := h.loop
  cases hw : s.worker with
  | sleeping notified =>
    rw [hw] at hmtx hpromise hloop
    exact h.moved (w := .sleeping true) hmtx (fun _ => .rfl) (by simp [WorkerPlace.passed])
      (by simp) hpromise id hloop (by simp [WorkerPlace.left])
  | _ => simpa [WorkerPlace.notify, ← hw] using h

/-! ## Steps of the callers -/

variable [DecidableEq ι]

/-- A thread goes from one place to another one, and sets what goes with it. -/
theorem Ok.called (h : s.Ok) {i : ι} {p : CallerPlace} {mtx : Option (MtxOwner ι)}
    {once : OnceFlag ι} {isRunning isLooping : Bool}
    (hw : mtx = some .worker ↔ s.mtx = some .worker)
    (hm : ∀ j, mtx = some (.caller j) ↔
      if j = i then p.holds = true else s.mtx = some (.caller j))
    (ho : once = s.once ∨ s.once = .fresh ∧ once = .active i ∨
      s.once = .active i ∧ once = .done ∧ s.isRunning = true ∧ s.promise = true)
    (ha : once = .active i ↔ p.active = true)
    (hr : isRunning = s.isRunning ∨ once = .active i ∧ isRunning = true ∧ p = .notifying)
    (ht : once = .active i → (isRunning = true ↔ p.told = true))
    (hb : p.behind = true ∨ p = .blocked → once = .done ∨ p = .blocked ∧ once ≠ .fresh)
    (hn : s.caller i ≠ .notifying ∨ s.worker ≠ .sleeping false)
    (hq : (s.caller i).quit = true → p.quit = true)
    (hl : isLooping = s.isLooping ∨ p.quit = true)
    (hdes : p.destroying = true → s.destroyer = some i)
    (halone : ∀ d, s.destroyer = some d → d = i) :
    Ok ({ s with
      mtx := mtx, once := once
      isRunning := isRunning, isLooping := isLooping }.setCaller i p) := by
  have hother : ∀ j, j ≠ i → (once = .active j ↔ s.once = .active j) := by
    intro j hj
    have hij : i ≠ j := fun h => hj h.symm
    rcases ho with rfl | ⟨hs, rfl⟩ | ⟨hs, rfl, -⟩
    · rfl
    · simp [hs, hij]
    · simp [hs, hij]
  have hkept : s.isRunning = true → isRunning = true := by
    rintro hs
    rcases hr with rfl | ⟨-, hr, -⟩
    · exact hs
    · exact hr
  constructor
  case mtx_worker => exact hw.trans h.mtx_worker
  case mtx_caller =>
    intro j
    refine (hm j).trans ?_
    by_cases hj : j = i
    · simp [setCaller, hj]
    · simpa [setCaller, hj] using h.mtx_caller j
  case active =>
    intro j
    by_cases hj : j = i
    · simpa [setCaller, hj] using ha
    · simpa [setCaller, hj] using (hother j hj).trans (h.active j)
  case fresh =>
    intro hf
    have hs : s.once = .fresh := by
      rcases ho with rfl | ⟨-, ho⟩ | ⟨-, ho, -⟩
      · exact hf
      · cases hf.symm.trans ho
      · cases hf.symm.trans ho
    rcases hr with hr | ⟨hr, -⟩
    · exact hr.trans (h.fresh hs)
    · cases hf.symm.trans hr
  case told =>
    intro j hj
    by_cases hji : j = i
    · subst hji
      simpa [setCaller] using ht hj
    · have hs := (hother j hji).1 hj
      rcases hr with rfl | ⟨hr, -⟩
      · simpa [setCaller, hji] using h.told j hs
      · cases hj.symm.trans hr
        exact absurd rfl hji
  case done =>
    intro hd
    rcases ho with rfl | ⟨-, ho⟩ | ⟨-, -, hrun, hprom⟩
    · exact ⟨hkept (h.done hd).1, (h.done hd).2⟩
    · cases hd.symm.trans ho
    · exact ⟨hkept hrun, hprom⟩
  case behind =>
    intro j hj
    by_cases hji : j = i
    · subst hji
      simp only [setCaller, Function.update_self] at hj
      rcases hb (.inl hj) with hb | ⟨rfl, -⟩
      · exact hb
      · cases hj
    · simp only [setCaller, ne_eq, hji, not_false_eq_true, Function.update_of_ne] at hj
      have hs := h.behind j hj
      rcases ho with rfl | ⟨ho, -⟩ | ⟨ho, -⟩
      · exact hs
      · cases hs.symm.trans ho
      · cases hs.symm.trans ho
  case blocked =>
    intro j hj hf
    by_cases hji : j = i
    · subst hji
      simp only [setCaller, Function.update_self] at hj
      rcases hb (.inr hj) with hb | ⟨-, hb⟩
      · cases hf.symm.trans hb
      · exact hb hf
    · simp only [setCaller, ne_eq, hji, not_false_eq_true, Function.update_of_ne] at hj
      rcases ho with rfl | ⟨-, ho⟩ | ⟨-, ho, -⟩
      · exact h.blocked j hj hf
      · cases hf.symm.trans ho
      · cases hf.symm.trans ho
  case passed => exact fun hp => hkept (h.passed hp)
  case asleep =>
    intro hs hrun
    rcases hr with rfl | ⟨-, -, rfl⟩
    · obtain ⟨k, hk⟩ := h.asleep hs hrun
      have hki : k ≠ i := by
        rintro rfl
        rcases hn with hn | hn
        · exact hn hk
        · exact hn hs
      exact ⟨k, by simpa [setCaller, hki] using hk⟩
    · exact ⟨i, by simp [setCaller]⟩
  case promise => exact h.promise
  case loop => exact h.loop
  case quit =>
    intro hleft
    by_cases hp : p.quit = true
    · exact ⟨i, by simpa [setCaller] using hp⟩
    · have hl' := hl.resolve_right hp
      obtain ⟨k, hk⟩ := h.quit (hl' ▸ hleft)
      have hki : k ≠ i := by
        rintro rfl
        exact hp (hq hk)
      exact ⟨k, by simpa [setCaller, hki] using hk⟩
  case destroyer =>
    intro j hj
    by_cases hji : j = i
    · subst hji
      exact hdes (by simpa [setCaller] using hj)
    · exact h.destroyer j (by simpa [setCaller, hji] using hj)
  case alone =>
    intro d hd j hj
    have hji : j ≠ i := halone d hd ▸ hj
    simpa [setCaller, hji] using h.alone d hd j hj

/-- A thread keeps what it has locked. -/
theorem Ok.mtx_kept (h : s.Ok) {i : ι} {p : CallerPlace} (hp : p.holds = (s.caller i).holds)
    (j : ι) : s.mtx = some (.caller j) ↔
      if j = i then p.holds = true else s.mtx = some (.caller j) := by
  split_ifs with hj
  · rw [hj, hp, h.mtx_caller]
  · rfl

/-- A thread inside `Run` is the only one that may use the object, if it is being destroyed. -/
theorem Ok.destroyer_eq (h : s.Ok) {i d : ι} (hd : s.destroyer = some d)
    (hout : s.caller i ≠ .outside) (hret : s.caller i ≠ .returned) : d = i := by
  by_contra hne
  rcases h.alone d hd i (Ne.symm hne) with hi | hi
  · exact hout hi
  · exact hret hi

theorem Ok.run (h : s.Ok) [Fintype ι] {i : ι} (ht : s.step (.run i) = some s') : s'.Ok := by
  simp only [step] at ht
  split_ifs at ht with hg
  obtain ⟨hout, hd⟩ := hg
  have hm : ∀ p : CallerPlace, p.holds = false → p.holds = (s.caller i).holds := by
    intro p hp
    rw [hout, hp]
    rfl
  have halone : ∀ d, s.destroyer = some d → d = i := by
    intro d hds
    rcases hd with hd | hd
    · rw [hd] at hds
      cases hds
    · rw [hd] at hds
      cases hds
      rfl
  have hq : ∀ p : CallerPlace, (s.caller i).quit = true → p.quit = true := by
    intro p hq
    rw [hout] at hq
    cases hq
  cases ho : s.once with
  | fresh =>
    simp only [ho] at ht
    cases ht
    refine h.called .rfl (h.mtx_kept (hm _ rfl)) (.inr (.inl ⟨ho, rfl⟩))
      (by simp [CallerPlace.active]) (.inl rfl) (fun _ => ?_) (by simp [CallerPlace.behind])
      (.inl (by simp [hout])) (hq _) (.inl rfl) (by simp [CallerPlace.destroying]) halone
    simp [h.fresh ho, CallerPlace.told]
  | active k =>
    simp only [ho] at ht
    cases ht
    have hki : s.once ≠ .active i := by
      intro hk
      rw [h.active i, hout] at hk
      cases hk
    exact h.called .rfl (h.mtx_kept (hm _ rfl)) (.inl rfl)
      (by simp [CallerPlace.active, hki]) (.inl rfl) (fun hk => absurd hk hki)
      (fun _ => .inr ⟨rfl, by simp [ho]⟩) (.inl (by simp [hout])) (hq _) (.inl rfl)
      (by simp [CallerPlace.destroying]) halone
  | done =>
    simp only [ho] at ht
    cases ht
    exact h.called .rfl (h.mtx_kept (hm _ rfl)) (.inl rfl) (by simp [CallerPlace.active, ho])
      (.inl rfl) (by simp [ho]) (fun _ => .inl ho) (.inl (by simp [hout])) (hq _) (.inl rfl)
      (by simp [CallerPlace.destroying]) halone

theorem Ok.resume (h : s.Ok) [Fintype ι] {i : ι} (ht : s.step (.resume i) = some s') : s'.Ok := by
  simp only [step] at ht
  split_ifs at ht with hg
  obtain ⟨hblocked, ho⟩ := hg
  cases ht
  exact h.called .rfl (h.mtx_kept (by rw [hblocked]; rfl)) (.inl rfl)
    (by simp [CallerPlace.active, ho]) (.inl rfl) (by simp [ho]) (fun _ => .inl ho)
    (.inl (by simp [hblocked])) (by simp [hblocked, CallerPlace.quit]) (.inl rfl)
    (by simp [CallerPlace.destroying])
    (fun d hd => h.destroyer_eq hd (by simp [hblocked]) (by simp [hblocked]))

theorem Ok.callOnce (h : s.Ok) {i : ι} (ht : s.callOnce i = some s') : s'.Ok := by
  have hact : (s.caller i).active = true → s.once = .active i := (h.active i).2
  have halone : (s.caller i).active = true → ∀ d, s.destroyer = some d → d = i := by
    intro ha d hd
    refine h.destroyer_eq hd ?_ ?_ <;>
    · intro hi
      rw [hi] at ha
      cases ha
  unfold EventLoopThread.callOnce at ht
  cases hi : s.caller i with
  | locking =>
    simp only [hi] at ht
    split_ifs at ht with hmtx
    cases ht
    rw [hi] at hact halone
    refine h.called (by simp [hmtx]) ?_ (.inl rfl) (by simp [CallerPlace.active, hact rfl])
      (.inl rfl) (fun ho => ?_) (by simp [CallerPlace.behind]) (.inl (by simp [hi]))
      (by simp [hi, CallerPlace.quit]) (.inl rfl) (by simp [CallerPlace.destroying]) (halone rfl)
    · intro j
      split_ifs with hj
      · simp [hj, CallerPlace.holds]
      · simp [hmtx, Ne.symm hj]
    · rw [h.told i ho, hi]
      rfl
  | telling =>
    simp only [hi] at ht
    cases ht
    rw [hi] at hact halone
    exact h.called .rfl (h.mtx_kept (by rw [hi]; rfl)) (.inl rfl)
      (by simp [CallerPlace.active, hact rfl]) (.inr ⟨hact rfl, rfl, rfl⟩)
      (by simp [CallerPlace.told]) (by simp [CallerPlace.behind]) (.inl (by simp [hi]))
      (by simp [hi, CallerPlace.quit]) (.inl rfl) (by simp [CallerPlace.destroying]) (halone rfl)
  | notifying =>
    simp only [hi] at ht
    cases ht
    have htold := h.told i (hact (by rw [hi]; rfl))
    rw [hi] at hact halone htold
    refine h.notified.called .rfl (h.mtx_kept (by rw [hi]; rfl)) (.inl rfl)
      (by simp [CallerPlace.active, hact rfl]) (.inl rfl) (fun _ => htold)
      (by simp [CallerPlace.behind]) (.inr ?_) (by simp [hi, CallerPlace.quit]) (.inl rfl)
      (by simp [CallerPlace.destroying]) (halone rfl)
    -- nobody sleeps without a notification now
    cases hw : s.worker <;> simp [WorkerPlace.notify]
  | unlocking =>
    simp only [hi] at ht
    cases ht
    have htold := h.told i (hact (by rw [hi]; rfl))
    have hmine := (h.mtx_caller i).2 (by rw [hi]; rfl)
    rw [hi] at hact halone htold
    refine h.called (by simp [hmine]) ?_ (.inl rfl) (by simp [CallerPlace.active, hact rfl])
      (.inl rfl) (fun _ => htold) (by simp [CallerPlace.behind]) (.inl (by simp [hi]))
      (by simp [hi, CallerPlace.quit]) (.inl rfl) (by simp [CallerPlace.destroying]) (halone rfl)
    intro j
    split_ifs with hj
    · simp [CallerPlace.holds]
    · simp [hmine, Ne.symm hj]
  | getting =>
    simp only [hi] at ht
    split_ifs at ht with hp
    cases ht
    have htold := h.told i (hact (by rw [hi]; rfl))
    rw [hi] at hact halone htold
    exact h.called .rfl (h.mtx_kept (by rw [hi]; rfl))
      (.inr (.inr ⟨hact rfl, rfl, htold.2 rfl, hp⟩)) (by simp [CallerPlace.active]) (.inl rfl)
      (by simp) (fun _ => .inl rfl) (.inl (by simp [hi])) (by simp [hi, CallerPlace.quit])
      (.inl rfl) (by simp [CallerPlace.destroying]) (halone rfl)
  | _ => simp only [hi] at ht; cases ht

theorem Ok.destroy (h : s.Ok) [Fintype ι] {i : ι} (ht : s.step (.destroy i) = some s') : s'.Ok := by
  simp only [step] at ht
  split_ifs at ht with hg
  cases ht
  refine { h with destroyer := fun j hj => ?_, alone := fun d hd j _ => hg.2 j }
  rcases hg.2 j with hj' | hj' <;>
  · rw [show s.caller j = _ from hj'] at hj
    cases hj

/-- The destructor goes on, behind `Run`. -/
theorem Ok.goes_on (h : s.Ok) {i : ι} {p : CallerPlace} {isLooping : Bool}
    (hd : s.destroyer = some i) (hi : (s.caller i).behind = true) (hp : p.destroying = true)
    (hq : (s.caller i).quit = true → p.quit = true)
    (hl : isLooping = s.isLooping ∨ p.quit = true) :
    Ok ({ s with isLooping := isLooping }.setCaller i p) := by
  have hdone := h.behind i hi
  have hact : p.active = false ∧ p.holds = false ∧ p ≠ .blocked := by
    cases p <;> simp_all [CallerPlace.destroying, CallerPlace.active, CallerPlace.holds]
  have hmine : (s.caller i).holds = false ∧ s.caller i ≠ .notifying := by
    cases hc : s.caller i <;> simp_all [CallerPlace.behind, CallerPlace.holds]
  refine h.called .rfl (h.mtx_kept (hact.2.1.trans hmine.1.symm)) (.inl rfl)
    (by simp [hdone, hact.1]) (.inl rfl) (by simp [hdone]) (fun _ => .inl hdone) (.inl hmine.2) hq
    hl (fun _ => hd) (fun d hds => ?_)
  rw [hd] at hds
  cases hds
  rfl

theorem Ok.finish (h : s.Ok) {i : ι} (hd : s.destroyer = some i)
    (ht : s.finishDestroy i = some s') : s'.Ok := by
  unfold finishDestroy at ht
  cases hi : s.caller i with
  | returned =>
    simp only [hi] at ht
    cases ht
    refine h.goes_on hd (by rw [hi]; rfl) ?_ (by simp [hi, CallerPlace.quit]) (.inl rfl)
    split_ifs <;> rfl
  | quitting =>
    simp only [hi] at ht
    cases ht
    exact h.goes_on hd (by rw [hi]; rfl) rfl (fun _ => rfl) (.inr rfl)
  | joining =>
    simp only [hi] at ht
    split_ifs at ht
    cases ht
    exact h.goes_on hd (by rw [hi]; rfl) rfl (fun _ => rfl) (.inl rfl)
  | _ => simp only [hi] at ht; cases ht

/-- **Every step keeps what the places fix.** -/
theorem Ok.step [Fintype ι] {e : ThreadStep ι} (h : s.Ok) (ht : s.step e = some s') : s'.Ok := by
  cases e with
  | work => exact h.work ht
  | turn =>
    simp only [EventLoopThread.step] at ht
    split_ifs at ht
    cases ht
    exact h
  | wakeSpuriously =>
    have hmtx := h.mtx_worker
    have hpromise := h.promise
    have hloop := h.loop
    simp only [EventLoopThread.step] at ht
    cases hw : s.worker with
    | sleeping notified =>
      simp only [hw] at ht
      cases ht
      rw [hw] at hmtx hpromise hloop
      exact h.moved hmtx (fun _ => .rfl) (by simp [WorkerPlace.passed]) (by simp) hpromise id hloop
        (by simp [WorkerPlace.left])
    | _ => simp only [hw] at ht; cases ht
  | run i => exact h.run ht
  | resume i => exact h.resume ht
  | call i => exact h.callOnce ht
  | destroy i => exact h.destroy ht
  | finish i =>
    simp only [EventLoopThread.step] at ht
    split_ifs at ht with hd
    exact h.finish hd ht

theorem ok_of_run [Fintype ι] {es : List (ThreadStep ι)} (h : run step {} es = some s) : s.Ok :=
  run_inv Ok (fun _ _ _ hs ht => hs.step ht) ok_start h

end EventLoopThread

end HttpNest
