import HttpNest.Spec.PostedFns

/-!
# Steps and locks of the loops with identities

`Move` is what a step does and needs, and `Locked` who holds a lock and what its thread is
doing.
-/

namespace HttpNest

open EventRun

variable {ι : Type*} [DecidableEq ι] {s s' : PostLoops ι}

namespace PostLoops

@[simp] theorem modify_loop (i k : ι) (f : LoopThread ι → LoopThread ι) :
    (s.modify i f).loop k = if k = i then f (s.loop i) else s.loop k := by
  simp [modify, Function.update_apply]

@[simp] theorem modify_mtx (i : ι) (f : LoopThread ι → LoopThread ι) :
    (s.modify i f).mtx = s.mtx := rfl

@[simp] theorem modify_posts (i : ι) (f : LoopThread ι → LoopThread ι) :
    (s.modify i f).posts = s.posts := rfl

@[simp] theorem modify_started (i : ι) (f : LoopThread ι → LoopThread ι) :
    (s.modify i f).started = s.started := rfl

@[simp] theorem modify_returned (i : ι) (f : LoopThread ι → LoopThread ι) :
    (s.modify i f).returned = s.returned := rfl

@[simp] theorem setMtx_loop (i : ι) (o : Option ι) : (s.setMtx i o).loop = s.loop := rfl

@[simp] theorem setMtx_mtx (i k : ι) (o : Option ι) :
    (s.setMtx i o).mtx k = if k = i then o else s.mtx k := by
  simp [setMtx, Function.update_apply]

@[simp] theorem setMtx_posts (i : ι) (o : Option ι) : (s.setMtx i o).posts = s.posts := rfl

@[simp] theorem setMtx_started (i : ι) (o : Option ι) : (s.setMtx i o).started = s.started := rfl

@[simp] theorem setMtx_returned (i : ι) (o : Option ι) :
    (s.setMtx i o).returned = s.returned := rfl

/-- Locking what is free takes no lock from anyone. -/
theorem mtx_setMtx_of_free {i k m : ι} {o : Option ι} (hfree : s.mtx i = none)
    (hm : s.mtx m = some k) : (s.setMtx i o).mtx m = some k := by
  rw [setMtx_mtx]
  split_ifs with hmi
  · rw [hmi, hfree] at hm
    cases hm
  · exact hm

/-- Unlocking one's own takes no lock from another thread. -/
theorem mtx_setMtx_of_own {i j k m : ι} (hown : s.mtx j = some i) (hk : k ≠ i)
    (hm : s.mtx m = some k) : (s.setMtx j none).mtx m = some k := by
  rw [setMtx_mtx]
  split_ifs with hmj
  · rw [hmj, hown] at hm
    exact absurd (Option.some.inj hm).symm hk
  · exact hm

/-! ## Steps -/

/-- What a step can do, with what it needs. -/
inductive Move (s : PostLoops ι) : LoopStep ι → PostLoops ι → Prop
  | handle {i : ι} (code : Fn ι) : (s.loop i).place = .handling → (s.loop i).frames = [] →
    Move s (.handle i code) (s.modify i fun l => { l with frames := [⟨none, code⟩] })
  | own {i : ι} {post : Option ℕ} {fn rest : Fn ι} {frames : List (Frame ι)} :
    (s.loop i).pushing = none → (s.loop i).frames = ⟨post, .runInLoop i fn rest⟩ :: frames →
    Move s (.call i) ({ s with
        posts := s.posts ++ [(i, i)]
        started := s.started ++ [s.posts.length] }.modify i fun l =>
      { l with frames := ⟨some s.posts.length, fn⟩ :: ⟨post, rest⟩ :: frames })
  | foreign {i j : ι} {post : Option ℕ} {fn rest : Fn ι} {frames : List (Frame ι)} : j ≠ i →
    (s.loop i).pushing = none → s.mtx j = none →
    (s.loop i).frames = ⟨post, .runInLoop j fn rest⟩ :: frames →
    Move s (.call i) (({ s with posts := s.posts ++ [(i, j)] }.setMtx j i).modify i fun l =>
      { l with frames := ⟨post, rest⟩ :: frames, pushing := some (j, ⟨s.posts.length, fn⟩) })
  | returns {i : ι} {post : Option ℕ} {frames : List (Frame ι)} :
    (s.loop i).pushing = none → (s.loop i).frames = ⟨post, .done⟩ :: frames →
    Move s (.call i) (s.finish i post frames)
  | push {i j : ι} {p : PostedFn ι} : (s.loop i).pushing = some (j, p) →
    Move s (.push i) (((s.modify j fun l => { l with fns := l.fns ++ [p] }).setMtx j none).modify i
      fun l => { l with pushing := none })
  | runFuctions {i : ι} : (s.loop i).place = .handling → (s.loop i).frames = [] →
    (s.loop i).pushing = none →
    Move s (.runFuctions i) (s.modify i fun l => { l with place := .locking })
  | lock {i : ι} : (s.loop i).place = .locking → s.mtx i = none →
    Move s (.lock i) ((s.setMtx i i).modify i fun l => { l with place := .running })
  | front {i : ι} {p : PostedFn ι} {rest : List (PostedFn ι)} : (s.loop i).place = .running →
    (s.loop i).frames = [] → (s.loop i).pushing = none → (s.loop i).fns = p :: rest →
    Move s (.front i) ({ s with started := s.started ++ [p.id] }.modify i fun l =>
      { l with frames := [⟨some p.id, p.fn⟩] })
  | unlock {i : ι} : (s.loop i).place = .running → (s.loop i).frames = [] →
    (s.loop i).pushing = none → (s.loop i).fns = [] →
    Move s (.unlock i) ((s.setMtx i none).modify i fun l => { l with place := .handling })

theorem step_move {e : LoopStep ι} (h : s.step e = some s') : s.Move e s' := by
  cases e with
  | handle i code =>
    obtain ⟨⟨hplace, hframes, -⟩, h⟩ := Option.ite_none_right_eq_some.1 h
    cases h
    exact .handle code hplace hframes
  | call i =>
    simp only [step] at h
    rcases hp : (s.loop i).pushing with _ | p <;>
      rcases hf : (s.loop i).frames with _ | ⟨⟨post, _ | ⟨j, fn, rest⟩⟩, frames⟩ <;>
      rw [hp, hf] at h <;> simp only at h
    · cases h
    · cases h
      exact .returns hp hf
    · by_cases hj : j = i
      · subst hj
        rw [runInLoop, if_pos rfl] at h
        cases h
        exact .own hp hf
      · rw [runInLoop, if_neg hj] at h
        obtain ⟨hfree, h⟩ := Option.ite_none_right_eq_some.1 h
        cases h
        exact .foreign hj hp hfree hf
    · cases h
    · cases h
    · cases h
  | push i =>
    simp only [step] at h
    rcases hp : (s.loop i).pushing with _ | ⟨j, p⟩ <;> rw [hp] at h
    · cases h
    · cases h
      exact .push hp
  | runFuctions i =>
    obtain ⟨⟨hplace, hframes, hpush⟩, h⟩ := Option.ite_none_right_eq_some.1 h
    cases h
    exact .runFuctions hplace hframes hpush
  | lock i =>
    obtain ⟨⟨hplace, hfree⟩, h⟩ := Option.ite_none_right_eq_some.1 h
    cases h
    exact .lock hplace hfree
  | front i =>
    obtain ⟨⟨hplace, hframes, hpush⟩, h⟩ := Option.ite_none_right_eq_some.1 h
    rcases hfns : (s.loop i).fns with _ | ⟨p, rest⟩ <;> rw [hfns] at h
    · cases h
    · cases h
      exact .front hplace hframes hpush hfns
  | unlock i =>
    obtain ⟨⟨hplace, hframes, hpush, hfns⟩, h⟩ := Option.ite_none_right_eq_some.1 h
    cases h
    exact .unlock hplace hframes hpush hfns

/-! ## Locks -/

/-- Who holds a lock: the thread that is pushing to the loop, or the loop's own in
`RunFuctions`; a thread at the lock there is executing nothing. -/
structure Locked (s : PostLoops ι) : Prop where
  pusher : ∀ i j p, (s.loop i).pushing = some (j, p) → s.mtx j = some i ∧ j ≠ i
  running : ∀ i, (s.loop i).place = .running → s.mtx i = some i
  locking : ∀ i, (s.loop i).place = .locking → (s.loop i).frames = [] ∧ (s.loop i).pushing = none

omit [DecidableEq ι] in
theorem locked_start : Locked ({} : PostLoops ι) where
  pusher _ _ _ h := by cases h
  running _ h := by cases h
  locking _ h := by cases h

omit [DecidableEq ι] in
/-- A step of the thread `i`, which leaves the other threads where they are and with the locks
they hold. -/
theorem Locked.thread {i : ι} (h : Locked s)
    (hother : ∀ k, k ≠ i → (s'.loop k).pushing = (s.loop k).pushing ∧
      (s'.loop k).place = (s.loop k).place ∧ (s'.loop k).frames = (s.loop k).frames)
    (hmtx : ∀ m k, k ≠ i → s.mtx m = some k → s'.mtx m = some k)
    (hpusher : ∀ j p, (s'.loop i).pushing = some (j, p) → s'.mtx j = some i ∧ j ≠ i)
    (hrunning : (s'.loop i).place = .running → s'.mtx i = some i)
    (hlocking : (s'.loop i).place = .locking →
      (s'.loop i).frames = [] ∧ (s'.loop i).pushing = none) : Locked s' where
  pusher k j p hk := by
    by_cases hki : k = i
    · subst hki
      exact hpusher j p hk
    · obtain ⟨hown, hj⟩ := h.pusher k j p ((hother k hki).1 ▸ hk)
      exact ⟨hmtx j k hki hown, hj⟩
  running k hk := by
    by_cases hki : k = i
    · subst hki
      exact hrunning hk
    · exact hmtx k k hki (h.running k ((hother k hki).2.1 ▸ hk))
  locking k hk := by
    by_cases hki : k = i
    · subst hki
      exact hlocking hk
    · obtain ⟨hpush, hplace, hframes⟩ := hother k hki
      rw [hpush, hframes]
      exact h.locking k (hplace ▸ hk)

omit [DecidableEq ι] in
/-- A step of the thread `i` that locks nothing and stays where it is. -/
theorem Locked.keep {i : ι} (h : Locked s) (hother : ∀ k, k ≠ i → s'.loop k = s.loop k)
    (hmtx : s'.mtx = s.mtx) (hpush : (s'.loop i).pushing = (s.loop i).pushing)
    (hplace : (s'.loop i).place = (s.loop i).place)
    (hlocking : (s.loop i).place ≠ .locking) : Locked s' := by
  apply h.thread (i := i)
  · intro k hk
    rw [hother k hk]
    exact ⟨rfl, rfl, rfl⟩
  · intro m k _ hm
    rw [hmtx, hm]
  · intro j p hp
    rw [hpush] at hp
    rw [hmtx]
    exact h.pusher i j p hp
  · intro hrun
    rw [hplace] at hrun
    rw [hmtx]
    exact h.running i hrun
  · intro hl
    rw [hplace] at hl
    exact absurd hl hlocking

theorem Locked.move {e : LoopStep ι} (h : Locked s) (hs : s.Move e s') : Locked s' := by
  -- a thread that is executing something is not at the lock of `RunFuctions`
  have hbusy : ∀ {i : ι} {f : Frame ι} {fs : List (Frame ι)}, (s.loop i).frames = f :: fs →
      (s.loop i).place ≠ .locking := by
    intro i f fs hframes hl
    rw [(h.locking i hl).1] at hframes
    cases hframes
  cases hs with
  | @handle i code hplace _ =>
    exact h.keep (i := i) (fun k hk => by simp [hk]) rfl (by simp) (by simp) (by simp [hplace])
  | @own i post fn rest frames _ hframes =>
    exact h.keep (i := i) (fun k hk => by simp [hk]) rfl (by simp) (by simp) (hbusy hframes)
  | @returns i post frames _ hframes =>
    exact h.keep (i := i) (fun k hk => by simp [finish, hk]) rfl (by simp [finish])
      (by simp [finish]) (hbusy hframes)
  | @front i p rest hplace _ _ _ =>
    exact h.keep (i := i) (fun k hk => by simp [hk]) rfl (by simp) (by simp) (by simp [hplace])
  | @foreign i j post fn rest frames hj hnone hfree hframes =>
    apply h.thread (i := i)
    · intro k hk
      simp [hk]
    · exact fun m k _ hm => mtx_setMtx_of_free hfree hm
    · intro m p hp
      simp only [modify_loop, if_true, Option.some.injEq, Prod.mk.injEq] at hp
      obtain ⟨rfl, -⟩ := hp
      exact ⟨by simp, hj⟩
    · intro hrun
      have hown := h.running i (by simpa using hrun)
      simpa [Ne.symm hj] using hown
    · intro hl
      exact absurd (by simpa using hl) (hbusy hframes)
  | @push i j p hp =>
    obtain ⟨hown, hj⟩ := h.pusher i j p hp
    apply h.thread (i := i)
    · intro k hk
      by_cases hkj : k = j
      · subst hkj
        simp [hk]
      · simp [hk, hkj]
    · exact fun m k hk hm => mtx_setMtx_of_own hown hk hm
    · intro m q hq
      simp at hq
    · intro hrun
      have hold := h.running i (by simpa [Ne.symm hj] using hrun)
      simpa [Ne.symm hj] using hold
    · intro hl
      have hold := (h.locking i (by simpa [Ne.symm hj] using hl)).2
      rw [hp] at hold
      cases hold
  | @runFuctions i hplace hframes hpush =>
    apply h.thread (i := i)
    · intro k hk
      simp [hk]
    · exact fun m k _ hm => hm
    · intro j p hp
      simp [hpush] at hp
    · intro hrun
      simp at hrun
    · intro _
      simp [hframes, hpush]
  | @lock i hplace hfree =>
    obtain ⟨-, hpush⟩ := h.locking i hplace
    apply h.thread (i := i)
    · intro k hk
      simp [hk]
    · exact fun m k _ hm => mtx_setMtx_of_free hfree hm
    · intro j p hp
      simp [hpush] at hp
    · intro _
      simp
    · intro hl
      simp at hl
  | @unlock i hplace hframes hpush hfns =>
    have hown := h.running i hplace
    apply h.thread (i := i)
    · intro k hk
      simp [hk]
    · exact fun m k hk hm => mtx_setMtx_of_own hown hk hm
    · intro j p hp
      simp [hpush] at hp
    · intro hrun
      simp at hrun
    · intro hl
      simp at hl

end PostLoops

end HttpNest
