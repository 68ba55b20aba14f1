import HttpNest.Spec.TaskMgr

/-!
# When `OnWork` completes

The mutex is held while the callbacks run, so a callback that calls `Add` or `Del` does not
return. Without such calls every due task runs once, and stays exactly if it is not due any more.
A task that restarts is still due where its interval is negative, or so large that the sum
overflows. `worksRight_iff` says for which sets of tasks `OnWork` does what it should.
-/

namespace HttpNest

namespace TaskMgr

variable {m m' : TaskMgr} {now : ℤ} {t u : TaskPtr} {ts ran : List TaskPtr} {r : ℤ}

/-! ## What should be -/

def Due (m : TaskMgr) (now : ℤ) (t : TaskPtr) : Prop := (m.object t).when < now

instance : DecidablePred (m.Due now) := fun _ => inferInstanceAs (Decidable (_ < now))

def Restarts (m : TaskMgr) (t : TaskPtr) : Prop := ∃ r, .restart r ∈ (m.object t).cb

def OnlyRestarts (as : List TaskAction) : Prop := ∀ a ∈ as, ∃ r, a = .restart r

/-- A callback of the tasks that run has added the task. -/
def Adds (m : TaskMgr) (ran : List TaskPtr) (t : TaskPtr) : Prop :=
  ∃ u ∈ ran, .add t ∈ (m.object u).cb

def Dels (m : TaskMgr) (ran : List TaskPtr) (t : TaskPtr) : Prop :=
  ∃ u ∈ ran, .del t ∈ (m.object u).cb

/-- `m` before, `m'` after, and the tasks that have run. -/
structure Worked (m m' : TaskMgr) (now : ℤ) (ran : List TaskPtr) : Prop where
  once : ∀ t ∈ m.tasks, m.Due now t → ¬ m.Dels ran t → ran.count t = 1
  only : ∀ t ∈ ran, m.Due now t
  left : ∀ t, t ∈ m'.tasks ↔ (t ∈ m.tasks ∨ m.Adds ran t) ∧ ¬ m.Dels ran t ∧
    ¬ (m.Due now t ∧ ¬ m.Restarts t)

def WorksRight (m : TaskMgr) (now : ℤ) : Prop :=
  ∃ m' ran, m.onWork now = some (m', ran) ∧ Worked m m' now ran

/-- **The tasks with which `OnWork` works**: the mutex is free, the callbacks of the due tasks call
neither `Add` nor `Del`, and a task whose callback restarts it, for the last time at `r`, is not
due any more then. -/
structure Workable (m : TaskMgr) (now : ℤ) : Prop where
  free : m.locked = false
  restarts : ∀ t ∈ m.tasks, m.Due now t → OnlyRestarts (m.object t).cb
  later : ∀ t ∈ m.tasks, m.Due now t → ∀ r, (m.object t).cb.getLast? = some (.restart r) →
    now ≤ Task.sumInt64 (m.object t).interval r

/-! ## A callback -/

/-- The task when its callback has restarted it. -/
def restarted (task : Task) : List TaskAction → Task
  | [] => task
  | .restart r :: as => restarted (task.restart r) as
  | _ :: as => restarted task as

theorem restarted_when (task : Task) {as : List TaskAction} (h : OnlyRestarts as) :
    (restarted task as).when = match as.getLast? with
      | some (.restart r) => Task.sumInt64 task.interval r
      | _ => task.when := by
  induction as generalizing task with
  | nil => rfl
  | cons a as ih =>
    obtain ⟨r, rfl⟩ := h a (List.mem_cons_self ..)
    have h := fun a ha => h a (List.mem_cons_of_mem _ ha)
    rw [restarted, ih (task.restart r) h, List.getLast?_cons]
    rcases hl : as.getLast? with _ | b
    · rfl
    · obtain ⟨r', rfl⟩ := h b (List.mem_of_getLast? hl)
      rfl

/-- Under the mutex `Add` and `Del` do not return. -/
theorem add_of_locked (h : m.locked = true) : m.add t = none ∧ m.del t = none := by
  rw [add, del, lock, if_pos h]
  exact ⟨rfl, rfl⟩

@[simp] theorem object_setObject (m : TaskMgr) (t : TaskPtr) (task : Task) :
    (m.setObject t task).object t = task :=
  Function.update_self ..

theorem object_setObject_of_ne (m : TaskMgr) (h : u ≠ t) (task : Task) :
    (m.setObject t task).object u = m.object u :=
  Function.update_of_ne h ..

theorem setObject_setObject (m : TaskMgr) (t : TaskPtr) (a b : Task) :
    (m.setObject t a).setObject t b = m.setObject t b := by
  simp [setObject]

theorem setObject_object (m : TaskMgr) (t : TaskPtr) : m.setObject t (m.object t) = m := by
  simp [setObject]

/-- **A callback that only restarts its task** changes that task only. -/
theorem foldlM_act {as : List TaskAction} (h : OnlyRestarts as) (m : TaskMgr)
    (t : TaskPtr) (task : Task) :
    as.foldlM (act t) (m.setObject t task) = some (m.setObject t (restarted task as)) := by
  induction as generalizing task with
  | nil => rfl
  | cons a as ih =>
    obtain ⟨r, rfl⟩ := h a (List.mem_cons_self ..)
    rw [List.foldlM_cons, act, restart, object_setObject, setObject_setObject]
    exact ih (fun a ha => h a (List.mem_cons_of_mem _ ha)) (task.restart r)

theorem run_of_restarts (h : OnlyRestarts (m.object t).cb) :
    m.run t = some (m.setObject t (restarted (m.object t) (m.object t).cb)) := by
  have hfold := foldlM_act h m t (m.object t)
  rwa [setObject_object] at hfold

/-- One that does something else does not return. -/
theorem run_of_not_restarts (hlock : m.locked = true)
    (h : ¬ OnlyRestarts (m.object t).cb) : m.run t = none := by
  rw [run]
  generalize (m.object t).cb = as at h
  induction as generalizing m with
  | nil => exact absurd (fun a ha => by cases ha) h
  | cons a as ih =>
    rw [List.foldlM_cons]
    cases a with
    | restart r =>
      refine ih (m := m.restart t r) hlock fun hall => h fun a ha => ?_
      rcases List.mem_cons.1 ha with rfl | ha
      · exact ⟨r, rfl⟩
      · exact hall a ha
    | add task =>
      rw [act, (add_of_locked hlock).1]
      rfl
    | del task =>
      rw [act, (add_of_locked hlock).2]
      rfl

/-! ## The loop -/

/-- What is not due any more when its callback has run. -/
def Stays (m : TaskMgr) (now : ℤ) (t : TaskPtr) : Prop :=
  ¬ (restarted (m.object t) (m.object t).cb).when < now

theorem due_congr (h : m'.object t = m.object t) : m'.Due now t ↔ m.Due now t := by
  rw [Due, Due, h]

theorem stays_congr (h : m'.object t = m.object t) : m'.Stays now t ↔ m.Stays now t := by
  rw [Stays, Stays, h]

/-- The turn of the loop for a due task. -/
def turn (m : TaskMgr) (now : ℤ) (t : TaskPtr) : TaskMgr :=
  let m := m.setObject t (restarted (m.object t) (m.object t).cb)
  if (m.object t).when < now then m.erase t else m

theorem workLoop_due (hdue : m.Due now t) (h : OnlyRestarts (m.object t).cb) :
    workLoop now (t :: ts) m =
      (workLoop now ts (m.turn now t)).map fun (m, ran) => (m, t :: ran) := by
  have hlt : (m.object t).when < now := hdue
  rw [workLoop, if_pos hlt, run_of_restarts h]
  rfl

theorem workLoop_not_due (hdue : ¬ m.Due now t) :
    workLoop now (t :: ts) m = workLoop now ts m := by
  have hge : ¬ (m.object t).when < now := hdue
  rw [workLoop, if_neg hge]

theorem object_turn_of_ne (h : u ≠ t) : (m.turn now t).object u = m.object u := by
  unfold turn
  dsimp only
  split_ifs
  · exact object_setObject_of_ne m h _
  · exact object_setObject_of_ne m h _

theorem mem_turn : u ∈ (m.turn now t).tasks ↔ u ∈ m.tasks ∧ (u = t → m.Stays now t) := by
  unfold turn Stays
  simp only [object_setObject]
  split_ifs with hdue
  · have herase : u ∈ m.tasks.erase t ↔ u ≠ t ∧ u ∈ m.tasks := m.nodup.mem_erase_iff
    refine herase.trans ⟨fun h => ⟨h.2, fun he => absurd he h.1⟩, fun h => ⟨fun he => ?_, h.1⟩⟩
    exact h.2 he hdue
  · exact ⟨fun h => ⟨h, fun _ => hdue⟩, And.left⟩

/-- **The loop**, where the callbacks of the due tasks only restart them: all of these run, and
those that are still due are erased. -/
theorem workLoop_of_restarts (hts : ts.Nodup) :
    ∀ {m : TaskMgr}, (∀ t ∈ ts, m.Due now t → OnlyRestarts (m.object t).cb) →
      ∃ m', workLoop now ts m = some (m', ts.filter (m.Due now ·)) ∧
        ∀ u, u ∈ m'.tasks ↔ u ∈ m.tasks ∧ (u ∈ ts → m.Due now u → m.Stays now u) := by
  induction ts with
  | nil => exact fun _ => ⟨_, rfl, fun u => by simp⟩
  | cons t ts ih =>
    intro m h
    rw [List.nodup_cons] at hts
    have hne : ∀ u ∈ ts, u ≠ t := by
      rintro u hu rfl
      exact hts.1 hu
    by_cases hdue : m.Due now t
    · have hsame : ∀ u ∈ ts, (m.turn now t).object u = m.object u :=
        fun u hu => object_turn_of_ne (hne u hu)
      -- the other tasks are as they were
      obtain ⟨m', hloop, hleft⟩ := ih hts.2 (m := m.turn now t) fun u hu hd => by
        rw [hsame u hu]
        exact h u (List.mem_cons_of_mem _ hu) ((due_congr (hsame u hu)).1 hd)
      have hfilter : ts.filter ((m.turn now t).Due now ·) = ts.filter (m.Due now ·) :=
        List.filter_congr fun u hu => decide_eq_decide.2 (due_congr (hsame u hu))
      refine ⟨m', ?_, fun u => ?_⟩
      · rw [workLoop_due hdue (h t (List.mem_cons_self ..) hdue), hloop, hfilter,
          List.filter_cons_of_pos (p := fun u => decide (m.Due now u)) (decide_eq_true hdue)]
        rfl
      · rw [hleft u, mem_turn]
        by_cases hut : u = t
        · subst hut
          have hu : u ∉ ts := hts.1
          simp [hu, hdue]
        · by_cases hu : u ∈ ts
          · simp [hut, hu, due_congr (hsame u hu), stays_congr (hsame u hu)]
          · simp [hut, hu]
    · obtain ⟨m', hloop, hleft⟩ := ih hts.2 fun t ht => h t (List.mem_cons_of_mem _ ht)
      refine ⟨m', ?_, fun u => ?_⟩
      · rw [workLoop_not_due hdue, hloop,
          List.filter_cons_of_neg (p := fun u => decide (m.Due now u)) (by simpa using hdue)]
      · rw [hleft u, List.mem_cons]
        refine and_congr_right fun _ => ⟨fun hs hu hd => ?_, fun hs hu hd => hs (.inr hu) hd⟩
        rcases hu with rfl | hu
        · exact absurd hd hdue
        · exact hs hu hd

/-- A callback of a due task that does something else stops the loop. -/
theorem workLoop_of_not_restarts (hts : ts.Nodup) : ∀ {m : TaskMgr}, m.locked = true →
    (¬ ∀ t ∈ ts, m.Due now t → OnlyRestarts (m.object t).cb) →
      workLoop now ts m = none := by
  induction ts with
  | nil => exact fun _ h => absurd (fun t ht => by cases ht) h
  | cons t ts ih =>
    intro m hlock h
    rw [List.nodup_cons] at hts
    have hrest : ∀ {m' : TaskMgr}, (∀ u ∈ ts, m'.object u = m.object u) →
        (m.Due now t → OnlyRestarts (m.object t).cb) →
          ¬ ∀ u ∈ ts, m'.Due now u → OnlyRestarts (m'.object u).cb := by
      intro m' hsame ht hall
      refine h fun u hu hd => ?_
      rcases List.mem_cons.1 hu with rfl | hu
      · exact ht hd
      · have hu' := hall u hu ((due_congr (hsame u hu)).2 hd)
        rwa [hsame u hu] at hu'
    by_cases hdue : m.Due now t
    · by_cases ht : OnlyRestarts (m.object t).cb
      · have hsame : ∀ u ∈ ts, (m.turn now t).object u = m.object u := by
          intro u hu
          refine object_turn_of_ne ?_
          rintro rfl
          exact hts.1 hu
        have hlock' : (m.turn now t).locked = true := by
          unfold turn
          dsimp only
          split_ifs <;> exact hlock
        rw [workLoop_due hdue ht, ih hts.2 hlock' (hrest hsame fun _ => ht)]
        rfl
      · have hlt : (m.object t).when < now := hdue
        rw [workLoop, if_pos hlt, run_of_not_restarts hlock ht]
        rfl
    · rw [workLoop_not_due hdue]
      exact ih hts.2 hlock (hrest (fun _ _ => rfl) fun hd => absurd hd hdue)

/-! ## When `OnWork` works -/

/-- A due task stays exactly if it has been restarted, to a time that is not before `now`. -/
theorem stays_iff (hdue : m.Due now t) (h : OnlyRestarts (m.object t).cb) :
    m.Stays now t ↔ ∃ r, (m.object t).cb.getLast? = some (.restart r) ∧
      now ≤ Task.sumInt64 (m.object t).interval r := by
  rw [Stays, restarted_when _ h, not_lt]
  rcases hl : (m.object t).cb.getLast? with _ | a
  · refine iff_of_false (not_le.2 hdue) ?_
    rintro ⟨r, hr, -⟩
    cases hr
  · obtain ⟨r, rfl⟩ := h a (List.mem_of_getLast? hl)
    simp

/-- A callback of restarts restarts the task where it does anything. -/
theorem restarts_iff (h : OnlyRestarts (m.object t).cb) :
    m.Restarts t ↔ ∃ r, (m.object t).cb.getLast? = some (.restart r) := by
  constructor
  · rintro ⟨r, hr⟩
    obtain ⟨a, ha⟩ := Option.isSome_iff_exists.1
      (List.getLast?_isSome.2 (List.ne_nil_of_mem hr))
    obtain ⟨r', rfl⟩ := h a (List.mem_of_getLast? ha)
    exact ⟨r', ha⟩
  · rintro ⟨r, hr⟩
    exact ⟨r, List.mem_of_getLast? hr⟩

theorem onWork_of_restarts (hfree : m.locked = false)
    (h : ∀ t ∈ m.tasks, m.Due now t → OnlyRestarts (m.object t).cb) :
    ∃ m', m.onWork now = some (m', m.tasks.filter (m.Due now ·)) ∧
      ∀ u, u ∈ m'.tasks ↔ u ∈ m.tasks ∧ (m.Due now u → m.Stays now u) := by
  set m₁ : TaskMgr := { m with locked := true }
  obtain ⟨m', hloop, hleft⟩ := workLoop_of_restarts m.nodup (m := m₁) h
  refine ⟨m'.unlock, ?_, fun u => ?_⟩
  · have hlock : m.lock = some m₁ := if_neg (by simp [hfree])
    rw [onWork, hlock, Option.bind_some, hloop]
    rfl
  · refine (hleft u).trans (and_congr_right fun hu => ?_)
    exact ⟨fun hs => hs hu, fun hs _ => hs⟩

/-- Callbacks that only restart their task add and delete nothing. -/
theorem not_adds_of_restarts
    (h : ∀ t ∈ m.tasks, m.Due now t → OnlyRestarts (m.object t).cb) (u : TaskPtr) :
    ¬ m.Adds (m.tasks.filter (m.Due now ·)) u ∧ ¬ m.Dels (m.tasks.filter (m.Due now ·)) u := by
  have hran : ∀ t ∈ m.tasks.filter (m.Due now ·), OnlyRestarts (m.object t).cb := by
    intro t ht
    obtain ⟨ht, hdue⟩ := List.mem_filter.1 ht
    exact h t ht (of_decide_eq_true hdue)
  constructor
  · rintro ⟨t, ht, ha⟩
    obtain ⟨r, hr⟩ := hran t ht _ ha
    cases hr
  · rintro ⟨t, ht, ha⟩
    obtain ⟨r, hr⟩ := hran t ht _ ha
    cases hr

/-- **When `OnWork` does what it should.** -/
theorem worksRight_iff (m : TaskMgr) (now : ℤ) : WorksRight m now ↔ Workable m now := by
  constructor
  · rintro ⟨m', ran, hwork, hright⟩
    have hfree : m.locked = false := by
      by_contra hlocked
      rw [Bool.not_eq_false] at hlocked
      rw [onWork, lock, if_pos hlocked] at hwork
      cases hwork
    have hrestarts : ∀ t ∈ m.tasks, m.Due now t → OnlyRestarts (m.object t).cb := by
      by_contra hno
      have hlock : m.lock = some { m with locked := true } := if_neg (by simp [hfree])
      have hloop := workLoop_of_not_restarts m.nodup (m := { m with locked := true }) rfl hno
      rw [onWork, hlock, Option.bind_some, hloop] at hwork
      cases hwork
    refine ⟨hfree, hrestarts, fun t ht hdue r hr => ?_⟩
    obtain ⟨m₁, hwork₁, hleft⟩ := onWork_of_restarts hfree hrestarts
    rw [hwork] at hwork₁
    cases hwork₁
    obtain ⟨-, hdels⟩ := not_adds_of_restarts hrestarts t
    have hmem : t ∈ m'.tasks := (hright.left t).2
      ⟨.inl ht, hdels, fun hno => hno.2 ((restarts_iff (hrestarts t ht hdue)).2 ⟨r, hr⟩)⟩
    obtain ⟨r', hr', hle⟩ := (stays_iff hdue (hrestarts t ht hdue)).1 (((hleft t).1 hmem).2 hdue)
    rw [hr] at hr'
    cases hr'
    exact hle
  · intro h
    obtain ⟨m', hwork, hleft⟩ := onWork_of_restarts h.free h.restarts
    refine ⟨m', _, hwork, ?_, ?_, ?_⟩
    · intro t ht hdue _
      refine List.count_eq_one_of_mem (m.nodup.filter _) ?_
      exact List.mem_filter.2 ⟨ht, decide_eq_true hdue⟩
    · intro t ht
      exact of_decide_eq_true (List.mem_filter.1 ht).2
    · intro t
      obtain ⟨hadds, hdels⟩ := not_adds_of_restarts h.restarts t
      rw [hleft t, or_iff_left hadds, and_iff_right hdels]
      refine and_congr_right fun ht => ⟨?_, fun hno hdue => ?_⟩
      · rintro hstays ⟨hdue, hno⟩
        obtain ⟨r, hr, -⟩ := (stays_iff hdue (h.restarts t ht hdue)).1 (hstays hdue)
        exact hno ((restarts_iff (h.restarts t ht hdue)).2 ⟨r, hr⟩)
      · have hrest : m.Restarts t := by
          by_contra hr
          exact hno ⟨hdue, hr⟩
        obtain ⟨r, hr⟩ := (restarts_iff (h.restarts t ht hdue)).1 hrest
        exact (stays_iff hdue (h.restarts t ht hdue)).2 ⟨r, hr, h.later t ht hdue r hr⟩

/-- A task whose callback adds another one. -/
def adder : TaskMgr where
  tasks := [0]
  object := fun _ => ⟨[.add 1], 1000, 0⟩
  locked := false
  nodup := by decide

/-- `OnWork` waits for its own mutex. -/
theorem add_blocks : ¬ ∀ (m : TaskMgr) (now : ℤ), m.locked = false → WorksRight m now := by
  intro h
  obtain ⟨m', ran, hwork, -⟩ := h adder 1 rfl
  have hnone : adder.onWork 1 = none := rfl
  rw [hnone] at hwork
  cases hwork

end TaskMgr

end HttpNest
