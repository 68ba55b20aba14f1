import HttpNest.Proof.ThreadStart

/-!
# Destroying an `EventLoopThread`

The destructor calls `Run`, `Quit`, and waits for the worker to end. `Run` returns when the
promise has been set, which is before the worker gets to `isLooping_ = true` in `Loop()`. If
`Quit` comes first, the worker sets `isLooping_` again, and its loop runs for good
(`Deaf`). If not, it ends after a few steps (`Ending`).
-/

namespace HttpNest

open EventRun

namespace EventLoopThread

variable {ι : Type*} {s t : EventLoopThread ι} {d : ι}

/-- What the worker leaves as it is. -/
theorem work_caller (ht : s.work = some t) : t.caller = s.caller ∧ t.destroyer = s.destroyer := by
  unfold work workerLock at ht
  cases hw : s.worker <;> simp only [hw] at ht <;> try split_ifs at ht
  all_goals first
    | cases ht; exact ⟨rfl, rfl⟩
    | cases ht

/-- At `Quit` the worker is on its way into the loop, or in it. -/
theorem Ok.worker_of_quitting (h : s.Ok) (hq : s.caller d = .quitting) :
    s.worker = .entering ∨ s.worker = .looping := by
  have hpromised := h.promise.1 (h.done (h.behind d (by rw [hq]; rfl))).2
  have hdestroyer := h.destroyer d (by rw [hq]; rfl)
  have hleft : s.worker.left ≠ true := by
    intro hleft
    obtain ⟨j, hj⟩ := h.quit (.inl hleft)
    have hjd := h.destroyer j (CallerPlace.destroying_of_quit hj)
    rw [hdestroyer] at hjd
    cases hjd
    rw [hq] at hj
    cases hj
  cases hw : s.worker <;> simp_all [WorkerPlace.promised, WorkerPlace.left]

variable [DecidableEq ι] [Fintype ι]

/-- The destructor is behind `Quit`, and no other thread uses the object. -/
structure Joining (d : ι) (s : EventLoopThread ι) : Prop where
  ok : s.Ok
  destroyer : s.destroyer = some d
  quit : (s.caller d).quit = true

/-- Only the worker and the destructor go on. -/
theorem Joining.step_cases (h : Joining d s) {e : ThreadStep ι} (ht : s.step e = some t) :
    e = .work ∧ s.work = some t ∨
      e = .turn ∧ t = s ∧ s.worker = .looping ∧ s.isLooping = true ∨
      e = .wakeSpuriously ∧ (∃ b, s.worker = .sleeping b) ∨
      e = .finish d ∧ s.caller d = .joining ∧ s.worker = .ended ∧ t = s.setCaller d .destroyed := by
  have hother : ∀ i, s.caller i = .outside ∨ s.caller i = .returned ∨ (s.caller i).quit = true := by
    intro i
    by_cases hi : i = d
    · exact .inr (.inr (hi ▸ h.quit))
    · exact (h.ok.alone d h.destroyer i hi).imp_right .inl
  cases e with
  | work => exact .inl ⟨rfl, ht⟩
  | turn =>
    simp only [step] at ht
    split_ifs at ht with hg
    cases ht
    exact .inr (.inl ⟨rfl, rfl, hg⟩)
  | wakeSpuriously =>
    refine .inr (.inr (.inl ⟨rfl, ?_⟩))
    simp only [step] at ht
    cases hw : s.worker with
    | sleeping b => exact ⟨b, rfl⟩
    | _ => simp only [hw] at ht; cases ht
  | run i =>
    simp only [step] at ht
    split_ifs at ht with hg
    -- only the destructor may call `Run`, and it has done so
    obtain ⟨hout, hd | hd⟩ := hg
    · rw [h.destroyer] at hd
      cases hd
    · rw [h.destroyer] at hd
      cases hd
      have hquit := h.quit
      rw [hout] at hquit
      cases hquit
  | resume i =>
    simp only [step] at ht
    split_ifs at ht with hg
    have hi := hother i
    simp [hg.1, CallerPlace.quit] at hi
  | call i =>
    simp only [step, callOnce] at ht
    have hi := hother i
    cases hc : s.caller i <;> simp_all [CallerPlace.quit]
  | destroy i =>
    simp only [step, h.destroyer] at ht
    simp at ht
  | finish i =>
    refine .inr (.inr (.inr ?_))
    simp only [step] at ht
    split_ifs at ht with hd
    rw [h.destroyer] at hd
    cases hd
    have hquit := h.quit
    unfold finishDestroy at ht
    cases hc : s.caller d with
    | joining =>
      simp only [hc] at ht
      split_ifs at ht with hw
      cases ht
      exact ⟨rfl, rfl, hw, rfl⟩
    | destroyed => simp only [hc] at ht; cases ht
    | _ => rw [hc] at hquit; cases hquit

theorem Joining.step (h : Joining d s) {e : ThreadStep ι} (ht : s.step e = some t) :
    Joining d t := by
  have hok := h.ok.step ht
  rcases h.step_cases ht with ⟨-, hw⟩ | ⟨-, rfl, -⟩ | ⟨rfl, b, hw⟩ | ⟨-, -, -, rfl⟩
  · obtain ⟨hc, hd⟩ := work_caller hw
    exact ⟨hok, hd.trans h.destroyer, by rw [hc]; exact h.quit⟩
  · exact h
  · simp only [EventLoopThread.step, hw] at ht
    cases ht
    exact ⟨hok, h.destroyer, h.quit⟩
  · exact ⟨hok, h.destroyer, by simp [setCaller, CallerPlace.quit]⟩

/-! ## A loop that does not hear of it -/

/-- `isLooping_` is true, or about to be. -/
structure Deaf (d : ι) (s : EventLoopThread ι) : Prop where
  joining : Joining d s
  waits : s.caller d = .joining
  runs : s.worker = .entering ∨ s.worker = .looping ∧ s.isLooping = true

theorem Deaf.step (h : Deaf d s) {e : ThreadStep ι} (ht : s.step e = some t) : Deaf d t := by
  have hj := h.joining.step ht
  rcases h.joining.step_cases ht with ⟨-, hw⟩ | ⟨-, rfl, -⟩ | ⟨-, b, hw⟩ | ⟨-, -, hw, -⟩
  · refine ⟨hj, by rw [(work_caller hw).1]; exact h.waits, ?_⟩
    rcases h.runs with he | ⟨he, hl⟩
    · simp only [work, he] at hw
      cases hw
      exact .inr ⟨rfl, rfl⟩
    · simp [work, he, hl] at hw
  · exact h
  · rcases h.runs with he | ⟨he, -⟩ <;>
    · rw [hw] at he
      cases he
  · rcases h.runs with he | ⟨he, -⟩ <;>
    · rw [hw] at he
      cases he

/-! ## A loop that ends -/

/-- The loop is in its last turn, or has been left. -/
structure Ending (d : ι) (s : EventLoopThread ι) : Prop where
  joining : Joining d s
  ends : s.worker = .looping ∧ s.isLooping = false ∨ s.worker.left = true

theorem Ending.step (h : Ending d s) {e : ThreadStep ι} (ht : s.step e = some t) :
    Ending d t ∧ t.worker.rank + (t.caller d).rank < s.worker.rank + (s.caller d).rank := by
  have hj := h.joining.step ht
  rcases h.joining.step_cases ht with ⟨-, hw⟩ | ⟨-, rfl, hw, hl⟩ | ⟨-, b, hw⟩ | ⟨-, hc, hw, rfl⟩
  · obtain ⟨hc, -⟩ := work_caller hw
    rw [hc]
    unfold work at hw
    rcases h.ends with ⟨he, hl⟩ | hleft
    · simp only [he, hl] at hw
      cases hw
      exact ⟨⟨hj, .inr rfl⟩, by simp [he, WorkerPlace.rank]⟩
    · cases hwk : s.worker with
      | clearing =>
        simp only [hwk] at hw
        cases hw
        exact ⟨⟨hj, .inr rfl⟩, by simp [WorkerPlace.rank]⟩
      | unlocking =>
        simp only [hwk] at hw
        cases hw
        exact ⟨⟨hj, .inr rfl⟩, by simp [WorkerPlace.rank]⟩
      | ended => simp only [hwk] at hw; cases hw
      | _ => rw [hwk] at hleft; cases hleft
  · rcases h.ends with ⟨-, he⟩ | he
    · rw [hl] at he
      cases he
    · rw [hw] at he
      cases he
  · rcases h.ends with ⟨he, -⟩ | he <;>
    · rw [hw] at he
      cases he
  · exact ⟨⟨hj, .inr (by simp [setCaller, hw, WorkerPlace.left])⟩,
      by simp [setCaller, hc, CallerPlace.rank]⟩

/-- The worker ends, and then the destructor. -/
theorem Ending.enabled (h : Ending d s) (hd : s.caller d ≠ .destroyed) :
    ∃ e, (s.step e).isSome = true := by
  have hjoin : s.caller d = .joining := by
    have hquit := h.joining.quit
    cases hc : s.caller d <;> simp_all [CallerPlace.quit]
  rcases h.ends with ⟨he, hl⟩ | hleft
  · exact ⟨.work, by simp [EventLoopThread.step, work, he, hl]⟩
  · cases hwk : s.worker with
    | clearing => exact ⟨.work, by simp [EventLoopThread.step, work, hwk]⟩
    | unlocking => exact ⟨.work, by simp [EventLoopThread.step, work, hwk]⟩
    | ended =>
      exact ⟨.finish d, by
        simp [EventLoopThread.step, finishDestroy, h.joining.destroyer, hjoin, hwk]⟩
    | _ => rw [hwk] at hleft; cases hleft

/-! ## When the destructor returns -/

/-- **The destructor returns if and only if the worker has got into its loop before `Quit`.** Then
it returns after four more steps at most, whoever takes them; otherwise it waits for ever. -/
theorem join_returns_iff {es : List (ThreadStep ι)} (h : run step {} es = some s)
    (hq : s.caller d = .quitting) :
    ((∃ fs t, run step s (.finish d :: fs) = some t ∧ t.caller d = .destroyed) ↔
        s.worker = .looping) ∧
      (s.worker = .looping → ∀ fs t, run step s (.finish d :: fs) = some t →
        fs.length ≤ 4 ∧ (t.caller d ≠ .destroyed → ∃ e, (t.step e).isSome = true)) := by
  have hok := ok_of_run h
  have hdestroyer := hok.destroyer d (by rw [hq]; rfl)
  set u := ({ s with isLooping := false } : EventLoopThread ι).setCaller d .joining with hu
  have hstep : s.step (.finish d) = some u := by
    simp [EventLoopThread.step, hdestroyer, finishDestroy, hq, hu]
  have hjoin : u.caller d = .joining := by simp [hu, setCaller]
  have hj : Joining d u :=
    ⟨hok.step hstep, hdestroyer, by rw [hjoin]; rfl⟩
  have hrun : ∀ fs t, run step s (.finish d :: fs) = some t ↔ run step u fs = some t := by
    intro fs t
    rw [run_cons, hstep, Option.bind_some]
  simp only [hrun]
  have hend : s.worker = .looping → Ending d u := fun hw => ⟨hj, .inl ⟨hw, rfl⟩⟩
  refine ⟨⟨?_, fun hw => ?_⟩, fun hw fs t ht => ?_⟩
  · rintro ⟨fs, t, ht, hdone⟩
    refine (hok.worker_of_quitting hq).resolve_left fun he => ?_
    have hdeaf : Deaf d t :=
      run_inv (Deaf d) (fun _ _ _ hs hst => hs.step hst) ⟨hj, hjoin, .inl he⟩ ht
    rw [hdeaf.waits] at hdone
    cases hdone
  · obtain ⟨fs, t, -, ht, hdone⟩ := exists_run_to step (Ending d)
      (fun s => s.caller d = .destroyed) (fun s => s.worker.rank + (s.caller d).rank)
      (fun _ => true)
      (fun _ _ _ hs hst => (hs.step hst).1) (fun _ _ _ hs hst _ => (hs.step hst).2)
      (fun s hs hd => by
        obtain ⟨e, he⟩ := hs.enabled hd
        exact ⟨e, rfl, he⟩) (hend hw)
    exact ⟨fs, t, ht, hdone⟩
  · have hbound := countP_le_of_measure step (Ending d)
      (fun s => s.worker.rank + (s.caller d).rank) (fun _ => true) (fun _ => false) 0
      (fun _ _ _ hs hst => (hs.step hst).1) (fun _ _ _ hs hst _ => (hs.step hst).2)
      (fun _ _ _ _ _ he => by cases he) (hend hw) ht
    have hrank : u.worker.rank + (u.caller d).rank = 4 := by
      rw [hjoin, show u.worker = .looping from hw]
      rfl
    rw [hrank] at hbound
    simp only [List.countP_true] at hbound
    exact ⟨by omega,
      (run_inv (Ending d) (fun _ _ _ hs hst => (hs.step hst).1) (hend hw) ht).enabled⟩

/-- A thread that is destroyed as soon as it has been started. -/
def endedSteps : List (ThreadStep (Fin 1)) :=
  [.destroy 0, .run 0, .call 0, .call 0, .call 0, .call 0, .work, .work, .work, .work, .call 0,
    .finish 0]

/-- `Quit` comes before the loop, and the destructor does not return. -/
theorem join_never_returns : ∃ s, run step ({} : EventLoopThread (Fin 1)) endedSteps = some s ∧
    s.caller 0 = .quitting ∧
    ¬ ∃ fs t, run step s (.finish 0 :: fs) = some t ∧ t.caller 0 = .destroyed := by
  obtain ⟨s, hs⟩ : ∃ s, run step ({} : EventLoopThread (Fin 1)) endedSteps = some s :=
    Option.isSome_iff_exists.1 (by decide)
  have hplaces : (run step ({} : EventLoopThread (Fin 1)) endedSteps).map
      (fun s => (s.caller 0, s.worker)) = some (.quitting, .entering) := by decide
  rw [hs, Option.map_some, Option.some.injEq, Prod.mk.injEq] at hplaces
  refine ⟨s, hs, hplaces.1, fun hex => ?_⟩
  have hw := (join_returns_iff hs hplaces.1).1.1 hex
  rw [hplaces.2] at hw
  cases hw

end EventLoopThread

end HttpNest
