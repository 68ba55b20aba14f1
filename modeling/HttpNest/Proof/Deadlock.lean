import HttpNest.Spec.RunInLoop

/-!
# Loops that wait for each other

`RunFuctions` holds its `mtx_` while it runs the posted functions, and `RunInLoop` on
another loop locks that loop's `mtx_`. `Ordered` says who owns what: a locked `mtx_` belongs
to its loop, which is running functions, or to a thread that is pushing, which wants nothing
more. So only threads inside `RunFuctions` can wait for each other, and those wait along the
posts of the functions they run.

* `not_deadlocked_of_acyclic`: posts that go round no circle of loops never block one.
* `deadlock_of_cycle`: a circle of loops, each with a function that posts to the next one,
  can be brought to wait for each other.
-/

namespace HttpNest

open EventRun Relation

variable {ι : Type*} [DecidableEq ι] {R : ι → ι → Prop} {s s' : Loops ι}

namespace Fn

theorem posts_seq {i j : ι} : ∀ {f g : Fn ι}, (f.seq g).Posts i j ↔ f.Posts i j ∨ g.Posts i j
  | done, g => by simp [seq, Posts]
  | runInLoop loop fn rest, g => by
    have ih := posts_seq (i := i) (j := j) (f := rest) (g := g)
    simp only [seq, Posts, ih]
    tauto

end Fn

namespace Loops

@[simp] theorem modify_loop (i k : ι) (f : EventLoop ι → EventLoop ι) :
    (s.modify i f).loop k = if k = i then f (s.loop i) else s.loop k := by
  simp [modify, Function.update_apply]

@[simp] theorem modify_mtx (i : ι) (f : EventLoop ι → EventLoop ι) :
    (s.modify i f).mtx = s.mtx := rfl

@[simp] theorem setMtx_loop (i : ι) (o : Option ι) : (s.setMtx i o).loop = s.loop := rfl

@[simp] theorem setMtx_mtx (i k : ι) (o : Option ι) :
    (s.setMtx i o).mtx k = if k = i then o else s.mtx k := by
  simp [setMtx, Function.update_apply]

/-! ## Who owns what -/

/-- What the thread of the loop `i`, in the state `l`, has locked. -/
def Owns (l : EventLoop ι) (i k : ι) : Prop :=
  (k = i ∧ l.place = .running) ∨ ∃ fn, l.pushing = some (k, fn)

/-- Who owns a lock, and where the functions in `RunFuctions` post to. -/
structure Ordered (R : ι → ι → Prop) (s : Loops ι) : Prop where
  owner : ∀ k i, s.mtx k = some i → Owns (s.loop i) i k
  posts : ∀ i, (s.loop i).place ≠ .handling → ∀ code, (s.loop i).code = some code →
    ∀ j, code.Posts i j → R i j

omit [DecidableEq ι] in
theorem start_ordered (queues : ι → List (Fn ι)) : Ordered R (start queues) where
  owner k i h := by cases h
  posts i h := absurd rfl h

/-- A step that changes the thread of the loop `i`, and no lock. -/
theorem Ordered.modify {i : ι} {f : EventLoop ι → EventLoop ι} (h : Ordered R s)
    (hown : ∀ k, Owns (s.loop i) i k → Owns (f (s.loop i)) i k)
    (hposts : (f (s.loop i)).place ≠ .handling → ∀ code, (f (s.loop i)).code = some code →
      ∀ j, code.Posts i j → R i j) : Ordered R (s.modify i f) where
  owner k t hk := by
    have hold := h.owner k t hk
    rw [modify_loop]
    split_ifs with ht
    · rw [ht] at hold ⊢
      exact hown k hold
    · exact hold
  posts t ht := by
    rw [modify_loop] at ht ⊢
    split_ifs at ht ⊢ with hi
    · rw [hi]
      exact hposts ht
    · exact h.posts t ht

/-- The thread of the loop `i` locks or unlocks `k`. -/
theorem Ordered.setMtx {i k : ι} {o : Option ι} {f : EventLoop ι → EventLoop ι}
    (h : Ordered R s) (ho : ∀ t, o = some t → t = i ∧ Owns (f (s.loop i)) i k)
    (hown : ∀ m, m ≠ k → Owns (s.loop i) i m → Owns (f (s.loop i)) i m)
    (hposts : (f (s.loop i)).place ≠ .handling → ∀ code, (f (s.loop i)).code = some code →
      ∀ j, code.Posts i j → R i j) : Ordered R ((s.setMtx k o).modify i f) where
  owner m t hm := by
    rw [modify_mtx, setMtx_mtx] at hm
    rw [modify_loop, setMtx_loop]
    split_ifs at hm with hmk
    · obtain ⟨rfl, hnew⟩ := ho t hm
      rw [if_pos rfl, hmk]
      exact hnew
    · have hold := h.owner m t hm
      split_ifs with ht
      · rw [ht] at hold ⊢
        exact hown m hmk hold
      · exact hold
  posts t ht := by
    rw [modify_loop, setMtx_loop] at ht ⊢
    split_ifs at ht ⊢ with hi
    · rw [hi]
      exact hposts ht
    · exact h.posts t ht

theorem runInLoop_ordered {i j : ι} {fn rest : Fn ι} (h : Ordered R s)
    (hcode : (s.loop i).code = some (.runInLoop j fn rest)) (hnone : (s.loop i).pushing = none)
    (hs : s.runInLoop i j fn rest = some s') : Ordered R s' := by
  have hposts : (s.loop i).place ≠ .handling → ∀ k, (Fn.runInLoop j fn rest).Posts i k → R i k :=
    fun hrun => h.posts i hrun _ hcode
  unfold runInLoop at hs
  split_ifs at hs with hj hfree
  · -- a plain call: its posts are posts of the caller
    cases hs
    apply h.modify
    · exact fun k hk => hk
    · intro hrun code hc k hk
      cases hc
      apply hposts hrun k
      rcases Fn.posts_seq.1 hk with hk | hk
      · exact .inl ⟨hj, hk⟩
      · exact .inr (.inr hk)
  · -- another loop: the thread owns `j` too, until it has pushed
    cases hs
    apply h.setMtx
    · intro t ht
      cases ht
      exact ⟨rfl, .inr ⟨fn, rfl⟩⟩
    · intro m _ hm
      rcases hm with hm | ⟨g, hg⟩
      · exact .inl hm
      · rw [hnone] at hg
        cases hg
    · intro hrun code hc k hk
      cases hc
      exact hposts hrun k (.inr (.inr hk))

/-- The thread pushes the function, and unlocks. -/
theorem push_ordered {i j : ι} {fn : Fn ι} (h : Ordered R s)
    (hp : (s.loop i).pushing = some (j, fn)) :
    Ordered R (((s.modify j fun l => { l with fns := l.fns ++ [fn] }).setMtx j none).modify i
      fun l => { l with pushing := none }) := by
  have hpush : Ordered R (s.modify j fun l => { l with fns := l.fns ++ [fn] }) :=
    h.modify (fun k hk => hk) (h.posts j)
  -- where the thread is does not depend on the queue, which may be its own
  have hpushing : ((s.modify j fun l => { l with fns := l.fns ++ [fn] }).loop i).pushing =
      some (j, fn) := by
    rw [modify_loop, ← hp]
    split_ifs with hi <;> simp [hi]
  apply hpush.setMtx
  · intro t ht
    cases ht
  · intro m hm hown
    -- what it owns but for `j` is its own `mtx_`
    rcases hown with hown | ⟨g, hg⟩
    · exact .inl hown
    · rw [hpushing] at hg
      cases hg
      exact absurd rfl hm
  · exact hpush.posts i

/-- **What one step preserves.** -/
theorem step_ordered {e : LoopStep ι} (h : Ordered R s) (hR : s.PostsAlong R e)
    (hs : s.step e = some s') : Ordered R s' := by
  cases e with
  | handle i code =>
    simp only [step] at hs
    split_ifs at hs with hi
    cases hs
    apply h.modify
    · exact fun k hk => hk
    · intro hne
      exact absurd hi.1 hne
  | call i =>
    simp only [step] at hs
    split at hs
    case h_1 hp hc => exact runInLoop_ordered h hc hp hs
    case h_2 hp hc =>
      cases hs
      apply h.modify
      · exact fun k hk => hk
      · intro _ code hcode
        cases hcode
    case h_3 => cases hs
  | push i =>
    simp only [step] at hs
    split at hs
    case h_2 => cases hs
    case h_1 j fn hp =>
      cases hs
      exact push_ordered h hp
  | runFuctions i =>
    simp only [step] at hs
    split_ifs at hs with hi
    cases hs
    apply h.modify
    · intro k hk
      -- a thread that is handling does not own its lock
      rcases hk with ⟨-, hrun⟩ | hk
      · rw [hi.1] at hrun
        cases hrun
      · exact .inr hk
    · intro _ code hcode
      rw [hi.2.1] at hcode
      cases hcode
  | lock i =>
    simp only [step] at hs
    split_ifs at hs with hi
    cases hs
    -- the lock goes to a thread that was waiting for it
    apply h.setMtx
    · intro t ht
      cases ht
      exact ⟨rfl, .inl ⟨rfl, rfl⟩⟩
    · intro m _ hm
      rcases hm with ⟨-, hrun⟩ | hm
      · rw [hi.1] at hrun
        cases hrun
      · exact .inr hm
    · intro _
      exact h.posts i (by rw [hi.1]; exact nofun)
  | front i =>
    simp only [step] at hs
    split_ifs at hs with hi
    obtain ⟨fn, hfn, rfl⟩ := Option.map_eq_some_iff.1 hs
    apply h.modify
    · exact fun k hk => hk
    · intro _ code hcode
      cases hcode
      -- the one place where a function from outside is executed
      exact hR fn hfn
  | unlock i =>
    simp only [step] at hs
    split_ifs at hs with hi
    cases hs
    apply h.setMtx
    · intro t ht
      cases ht
    · intro m hm hown
      rcases hown with hown | hown
      · exact absurd hown.1 hm
      · exact .inr hown
    · intro hne
      exact absurd rfl hne

/-! ## Posts that go round no circle -/

/-- A thread in `RunFuctions` that wants another lock is about to post along `R`. -/
theorem Ordered.wants_along (h : Ordered R s) {k i j : ι} (hk : s.mtx k = some i)
    (hj : s.wants i = some j) : R k j ∧ k ≠ j := by
  unfold wants at hj
  split_ifs at hj with hpush hlock
  · -- at its own lock it owns nothing
    rcases h.owner k i hk with ⟨-, hrun⟩ | ⟨fn, hfn⟩
    · rw [hlock] at hrun
      cases hrun
    · rw [hfn] at hpush
      exact absurd rfl hpush
  · -- so the lock it owns is its own, and it executes a function of its queue
    rcases h.owner k i hk with ⟨rfl, hrun⟩ | ⟨fn, hfn⟩
    · split at hj
      case h_2 => cases hj
      case h_1 _ _ _ hcode =>
        split_ifs at hj with hl
        cases hj
        have hne : (s.loop k).place ≠ .handling := by
          rw [hrun]
          exact nofun
        exact ⟨h.posts k hne _ hcode j (.inr (.inl ⟨hl, rfl⟩)), fun he => hl he.symm⟩
    · rw [hfn] at hpush
      exact absurd rfl hpush

theorem not_deadlocked_of_acyclic (hR : ∀ a, ¬ TransGen (fun i j => R i j ∧ i ≠ j) a a)
    (h : Ordered R s) : ¬ s.Deadlocked := by
  apply Mutex.not_deadlocked_of_order (r := TransGen fun i j => R i j ∧ i ≠ j)
  · exact fun _ _ _ => TransGen.trans
  · exact hR
  · intro k i j hk hj
    exact .single (h.wants_along hk hj)

/-! ## A circle of posts -/

/-- The loops of a list each take the function at the front of their queue. -/
def takeFronts : List ι → List (LoopStep ι)
  | [] => []
  | i :: l => .runFuctions i :: .lock i :: .front i :: takeFronts l

/-- The thread of the loop `i` has done nothing yet. -/
def Fresh (s : Loops ι) (i : ι) (fn : Fn ι) : Prop :=
  s.loop i = { fns := [fn] } ∧ s.mtx i = none

/-- The thread of the loop `i` is about to execute the function, in `RunFuctions`. -/
def Inside (s : Loops ι) (i : ι) (fn : Fn ι) : Prop :=
  s.loop i = { fns := [fn], place := .running, code := some fn } ∧ s.mtx i = some i

theorem takeFront_run {i : ι} {fn : Fn ι} (h : s.Fresh i fn) (hfn : ∀ j, fn.Posts i j → R i j) :
    ∃ t, run step s [.runFuctions i, .lock i, .front i] = some t ∧
      Meets step (PostsAlong R) s [.runFuctions i, .lock i, .front i] ∧ t.Inside i fn ∧
      ∀ j, j ≠ i → t.loop j = s.loop j ∧ t.mtx j = s.mtx j := by
  obtain ⟨hloop, hmtx⟩ := h
  -- up to the lock, with the lock, with the function taken
  set t₁ := s.modify i fun l => { l with place := .locking } with ht₁
  set t₂ := (t₁.setMtx i i).modify i fun l => { l with place := .running } with ht₂
  set t₃ := t₂.modify i fun l => { l with code := some fn } with ht₃
  have hstep₁ : s.step (.runFuctions i) = some t₁ := if_pos (by simp [hloop])
  have hstep₂ : t₁.step (.lock i) = some t₂ := if_pos (by simp [ht₁, hmtx])
  have hloop₂ : t₂.loop i = { fns := [fn], place := .running } := by simp [ht₂, ht₁, hloop]
  have hstep₃ : t₂.step (.front i) = some t₃ := by simp [step, hloop₂, ht₃]
  refine ⟨t₃, ?_, ?_, ⟨?_, ?_⟩, fun j hj => ⟨?_, ?_⟩⟩
  · simp [run_cons, hstep₁, hstep₂, hstep₃]
  · refine ⟨trivial, fun u hu => ⟨trivial, fun v hv => ⟨?_, fun _ _ => trivial⟩⟩⟩
    rw [hstep₁] at hu
    cases hu
    rw [hstep₂] at hv
    cases hv
    intro g hg
    rw [hloop₂] at hg
    cases hg
    exact hfn
  · simp [ht₃, hloop₂]
  · simp [ht₃, ht₂]
  · simp [ht₃, ht₂, ht₁, hj]
  · simp [ht₃, ht₂, ht₁, hj]

omit [DecidableEq ι] in
theorem Fresh.of_eq {t : Loops ι} {i : ι} {fn : Fn ι} (h : s.Fresh i fn)
    (heq : t.loop i = s.loop i ∧ t.mtx i = s.mtx i) : t.Fresh i fn :=
  ⟨heq.1.trans h.1, heq.2.trans h.2⟩

theorem takeFronts_run {f : ι → Fn ι} : ∀ {l : List ι} {s : Loops ι}, l.Nodup →
    (∀ i ∈ l, s.Fresh i (f i)) → (∀ i ∈ l, ∀ j, (f i).Posts i j → R i j) →
    ∃ t, run step s (takeFronts l) = some t ∧ Meets step (PostsAlong R) s (takeFronts l) ∧
      (∀ i ∈ l, t.Inside i (f i)) ∧ ∀ j, j ∉ l → t.loop j = s.loop j ∧ t.mtx j = s.mtx j := by
  intro l
  induction l with
  | nil =>
    intro s _ _ _
    exact ⟨s, rfl, trivial, fun i hi => (by cases hi), fun _ _ => ⟨rfl, rfl⟩⟩
  | cons i l ih =>
    intro s hl hfresh hposts
    -- the threads of the other loops are still where they were
    obtain ⟨hi, hl⟩ := List.nodup_cons.1 hl
    obtain ⟨u, hu, hmu, hin, hsame⟩ :=
      takeFront_run (hfresh i (List.mem_cons_self ..)) (hposts i (List.mem_cons_self ..))
    have hfresh' : ∀ j ∈ l, u.Fresh j (f j) := by
      intro j hj
      have hji : j ≠ i := fun h => hi (h ▸ hj)
      exact (hfresh j (List.mem_cons_of_mem _ hj)).of_eq (hsame j hji)
    obtain ⟨t, ht, hmt, hall, hrest⟩ :=
      ih hl hfresh' fun j hj => hposts j (List.mem_cons_of_mem _ hj)
    refine ⟨t, run_append.2 ⟨u, hu, ht⟩, meets_append.2 ⟨hmu, fun v hv => ?_⟩, ?_, ?_⟩
    · rw [hu] at hv
      cases hv
      exact hmt
    · intro j hj
      rcases List.mem_cons.1 hj with rfl | hj
      · obtain ⟨h1, h2⟩ := hrest j hi
        exact ⟨h1.trans hin.1, h2.trans hin.2⟩
      · exact hall j hj
    · intro j hj
      obtain ⟨hji, hjl⟩ := not_or.1 (mt List.mem_cons.2 hj)
      obtain ⟨h1, h2⟩ := hrest j hjl
      obtain ⟨h3, h4⟩ := hsame j hji
      exact ⟨h1.trans h3, h2.trans h4⟩

/-- A circle of posts blocks the loops on it. -/
theorem deadlock_of_cycle {a : ι} (ha : TransGen (fun i j => R i j ∧ i ≠ j) a a) :
    ∃ queues es t, Meets step (PostsAlong R) (start queues) es ∧
      run step (start queues) es = some t ∧ t.Deadlocked := by
  -- every loop on the circle has a next one on it
  obtain ⟨S, hne, hS⟩ := Mutex.exists_serial_of_cycle ha
  choose! next hmem hnext using hS
  set f : ι → Fn ι := fun i => .runInLoop (next i) .done .done with hf
  have hfresh : ∀ i ∈ S.toList, (start fun i => [f i]).Fresh i (f i) := fun i _ => ⟨rfl, rfl⟩
  have hposts : ∀ i ∈ S.toList, ∀ j, (f i).Posts i j → R i j := by
    intro i hi j hj
    rw [Finset.mem_toList] at hi
    rcases hj with ⟨-, hj⟩ | ⟨-, rfl⟩ | hj
    · exact hj.elim
    · exact (hnext i hi).1
    · exact hj.elim
  obtain ⟨t, ht, hm, hin, -⟩ := takeFronts_run S.nodup_toList hfresh hposts
  -- each of them is inside `RunFuctions`, at the lock of the next one
  refine ⟨_, _, t, hm, ht, Mutex.deadlocked_of_serial hne fun i hi => ?_⟩
  obtain ⟨hloop, -⟩ := hin i (Finset.mem_toList.2 hi)
  obtain ⟨-, hmtx⟩ := hin (next i) (Finset.mem_toList.2 (hmem i hi))
  refine ⟨next i, hmem i hi, next i, ?_, hmtx⟩
  have hne' : next i ≠ i := fun h => (hnext i hi).2 h.symm
  simp [wants, hloop, hf, hne']

/-- **The loops never wait for each other exactly if no circle of posts is allowed**: `R`
says which loops the posted functions of a loop may post to. -/
theorem runFuctions_deadlock_free_iff (R : ι → ι → Prop) :
    (∀ queues es t, Meets step (PostsAlong R) (start queues) es →
      run step (start queues) es = some t → ¬ t.Deadlocked) ↔
      ∀ a, ¬ TransGen (fun i j => R i j ∧ i ≠ j) a a := by
  constructor
  · intro h a ha
    obtain ⟨queues, es, t, hm, ht, hdead⟩ := deadlock_of_cycle ha
    exact h queues es t hm ht hdead
  · intro hR queues es t hm ht
    have hord : Ordered R t := run_inv_of_meets (Ordered R)
      (fun s e s' hs hc hstep => step_ordered hs hc hstep) (start_ordered queues) hm ht
    exact not_deadlocked_of_acyclic hR hord

/-- Two loops; each of them takes a function that posts to the other one. -/
theorem runFuctions_deadlocks : ¬ ∀ (es : List (LoopStep Bool)) (t : Loops Bool),
    run step (start fun _ => []) es = some t → ¬ t.Deadlocked := by
  intro h
  have hrun : ∃ t, run step (start fun _ => []) [
      .handle false (.runInLoop true (.runInLoop false .done .done) .done), .call false,
      .push false, .call false,
      .handle true (.runInLoop false (.runInLoop true .done .done) .done), .call true,
      .push true, .call true,
      .runFuctions false, .lock false, .front false,
      .runFuctions true, .lock true, .front true] = some t ∧
      t.wants false = some true ∧ t.wants true = some false ∧
      t.mtx false = some false ∧ t.mtx true = some true :=
    ⟨_, rfl, by decide, by decide, by decide, by decide⟩
  obtain ⟨t, ht, hwf, hwt, hmf, hmt⟩ := hrun
  refine h _ t ht ⟨false, .head (b := true) ⟨true, hwf, hmt⟩ (.single ⟨false, hwt, hmf⟩)⟩

end Loops

end HttpNest
