import HttpNest.Spec.ServerLoop

/-!
# The lifetime of connections

A posted function has captured `this`, so it is safe as long as somebody else keeps the
connection: while it is in the queue, and also while it closes the connection, as the reference
that `closeCb_` gets is dropped before the descriptor is closed. `Change` says what a step does to
the owners, and the rest follows from it:

* `Live.step`: no function in the queue has lost its connection, as long as no step drops the
  last reference while one is there (`Held`).
* `lost_of_not_held`: a step that does leaves a function without an object behind, or goes on in
  the `OnClose` of such an object. A function that has been lost stays lost, until it is called
  (`not_meets_of_lost`).
* `posted_owned`: so in a run that has called all of them the condition is exact.
-/

namespace HttpNest

open EventRun

namespace ServerLoop

variable {ι : Type*} [DecidableEq ι] {s t : ServerLoop ι} {c k : ι} {e : ServerLoopStep ι}

/-! ## Owners -/

theorem owners_onClose_of_ne (hkc : k ≠ c) : (s.onClose k).owners c = s.owners c := by
  unfold onClose
  split_ifs
  · rfl
  · simp [owners, Callback.con, hkc.symm, List.count_cons_of_ne hkc]

/-- `closeCb_` has a reference in its argument before `OnConnectionClose` drops two. -/
theorem owners_onClose_pos (h : 0 < s.owners c) : 0 < (s.onClose k).owners c := by
  by_cases hkc : k = c
  · subst hkc
    unfold onClose
    split_ifs
    · exact h
    · simp [owners, Callback.con]
  · rwa [owners_onClose_of_ne hkc]

/-- It makes no owner of a connection that has none. -/
theorem owners_onClose_new (h : 0 < (s.onClose k).owners c) : 0 < s.owners c := by
  by_cases hkc : k = c
  · subst hkc
    unfold onClose at h
    split_ifs at h with hskip
    · exact h
    · exact Nat.pos_of_ne_zero (not_or.1 hskip).2
  · rwa [owners_onClose_of_ne hkc] at h

@[simp] theorem part_onClose : (s.onClose k).part = s.part := by
  unfold onClose
  split_ifs <;> rfl

@[simp] theorem batch_onClose : (s.onClose k).batch = s.batch := by
  unfold onClose
  split_ifs <;> rfl

@[simp] theorem fns_onClose : (s.onClose k).fns = s.fns := by
  unfold onClose
  split_ifs <;> rfl

@[simp] theorem accepted_onClose : (s.onClose k).accepted = s.accepted := by
  unfold onClose
  split_ifs <;> rfl

/-- A callback takes a reference in its argument, and drops it when it returns. -/
theorem owners_frame (f : Callback ι) : { s with frames := f :: s.frames }.owners c =
    s.owners c + if f.con = c then 1 else 0 := by
  unfold owners
  by_cases hfc : f.con = c
  · simp [hfc]
    omega
  · simp [hfc]

/-- One more for `k`. -/
theorem update_succ (f : ι → ℕ) (k c : ι) :
    Function.update f k (f k + 1) c = f c + if k = c then 1 else 0 := by
  by_cases hkc : k = c
  · simp [hkc]
  · simp [hkc, Function.update_of_ne (fun h => hkc h.symm : c ≠ k)]

/-- One less. -/
theorem update_pred {f : ι → ℕ} {k : ι} (h : 0 < f k) (c : ι) :
    Function.update f k (f k - 1) c + (if k = c then 1 else 0) = f c := by
  by_cases hkc : k = c
  · subst hkc
    rw [Function.update_self, if_pos rfl]
    omega
  · simp [hkc, Function.update_of_ne (fun h => hkc h.symm : c ≠ k)]

theorem owners_addKept : (s.addKept k).owners c = s.owners c + if k = c then 1 else 0 := by
  unfold addKept owners
  simp [update_succ]
  omega

theorem owners_addRef : (s.addRef k).owners c = s.owners c + if k = c then 1 else 0 := by
  unfold addRef owners
  simp [update_succ]
  omega

theorem owners_dropKept (h : 0 < s.kept k) :
    { s with kept := Function.update s.kept k (s.kept k - 1) }.owners c +
      (if k = c then 1 else 0) = s.owners c := by
  rw [owners, owners, ← update_pred h c]
  simp
  omega

theorem owners_dropRef (h : 0 < s.refs k) :
    { s with refs := Function.update s.refs k (s.refs k - 1) }.owners c +
      (if k = c then 1 else 0) = s.owners c := by
  rw [owners, owners, ← update_pred h c]
  simp
  omega

/-- What a step does to the owners. -/
structure Change (s : ServerLoop ι) (e : ServerLoopStep ι) (t : ServerLoop ι) : Prop where
  keep : ∀ c, s.drops c e < s.owners c → 0 < t.owners c
  lose : ∀ c, 0 < s.drops c e → s.owners c ≤ s.drops c e → t.owners c = 0
  /-- Only a new connection gets an owner without one. -/
  new : ∀ c, 0 < t.owners c → 0 < s.owners c ∨ c ∉ s.accepted ∧ c ∈ t.accepted
  accepted : s.accepted ⊆ t.accepted
  /-- The vector is empty before `Poll`. -/
  batch : (s.part = .poll → s.batch = []) → t.part = .poll → t.batch = []

/-- References are dropped, or nothing happens to them. -/
theorem Change.of_drop (howners : ∀ c, t.owners c + s.drops c e = s.owners c)
    (hacc : t.accepted = s.accepted)
    (hbatch : (s.part = .poll → s.batch = []) → t.part = .poll → t.batch = []) :
    Change s e t where
  keep c h := by
    have := howners c
    omega
  lose c _ h := by
    have := howners c
    omega
  new c h := by
    have := howners c
    exact .inl (by omega)
  accepted := hacc ▸ Finset.Subset.refl _
  batch := hbatch

/-- Nobody loses the last reference, or gets the first one. -/
theorem Change.of_keep (hkeep : ∀ c, 0 < t.owners c ↔ 0 < s.owners c)
    (hdrops : ∀ c, s.drops c e = 0) (hacc : t.accepted = s.accepted)
    (hbatch : (s.part = .poll → s.batch = []) → t.part = .poll → t.batch = []) :
    Change s e t where
  keep c h := by
    rw [hdrops] at h
    exact (hkeep c).2 h
  lose c h := by
    rw [hdrops] at h
    cases h
  new c h := .inl ((hkeep c).1 h)
  accepted := hacc ▸ Finset.Subset.refl _
  batch := hbatch

/-- An owner of `k` gives a reference to somebody. -/
theorem Change.of_add (howners : ∀ c, t.owners c = s.owners c + if k = c then 1 else 0)
    (hdrops : ∀ c, s.drops c e = 0) (hpos : 0 < s.owners k) (hacc : t.accepted = s.accepted)
    (hbatch : (s.part = .poll → s.batch = []) → t.part = .poll → t.batch = []) :
    Change s e t := by
  refine .of_keep (fun c => ?_) hdrops hacc hbatch
  rw [howners]
  by_cases hkc : k = c
  · rw [← hkc, if_pos rfl]
    exact ⟨fun _ => hpos, fun _ => Nat.succ_pos _⟩
  · rw [if_neg hkc, Nat.add_zero]

/-- `OnClose`, in a state with the same owners. -/
theorem Change.of_onClose {u : ServerLoop ι} (howners : ∀ c, u.owners c = s.owners c)
    (hdrops : ∀ c, s.drops c e = 0) (hacc : u.accepted = s.accepted)
    (hbatch : (s.part = .poll → s.batch = []) → u.part = .poll → u.batch = []) :
    Change s e (u.onClose k) := by
  refine .of_keep (fun c => ?_) hdrops (by simpa using hacc) (by simpa using hbatch)
  rw [← howners c]
  exact ⟨owners_onClose_new, owners_onClose_pos⟩

theorem change_body (hb : s.part = .poll → s.batch = []) (ht : s.bodyStep e = some t) :
    Change s e t := by
  cases e with
  | poll ready =>
    simp only [bodyStep] at ht
    split_ifs at ht with h
    obtain ⟨hpart, -, hready⟩ := h
    cases ht
    have hempty := hb hpart
    refine ⟨fun c hc => ?_, fun c h => absurd h (by simp [drops]), fun c h => ?_,
      Finset.Subset.refl _, nofun⟩
    · simp only [owners, hempty, drops, List.count_nil] at hc ⊢
      omega
    · -- what `Poll` returns is in `channels_`
      left
      by_cases hc : c ∈ ready
      · simp [owners, hready c hc]
      · simpa [owners, hempty, List.count_eq_zero_of_not_mem hc] using h
  | handleEvent =>
    simp only [bodyStep] at ht
    split at ht
    · cases ht
      exact .of_drop (fun _ => rfl) rfl fun hb => hb
    · cases ht
  | handleOther | timer =>
    simp only [bodyStep] at ht
    split_ifs at ht
    cases ht
    exact .of_drop (fun _ => rfl) rfl fun hb => hb
  | runFuctions | onTimer =>
    simp only [bodyStep] at ht
    split_ifs at ht
    cases ht
    exact .of_drop (fun _ => rfl) rfl fun _ => nofun
  | next =>
    simp only [bodyStep] at ht
    split_ifs at ht
    cases ht
    -- the vector of `Poll` is destroyed
    refine .of_drop (fun c => ?_) rfl fun _ _ => rfl
    simp [owners, drops]
    omega
  | front =>
    simp only [bodyStep] at ht
    split at ht
    case h_2 => cases ht
    case h_1 fn fns hpart hfns =>
      cases ht
      cases fn with
      | forceClose k => exact .of_onClose (fun _ => rfl) (fun _ => rfl) rfl fun hb => hb
      | send | other => exact .of_drop (fun _ => rfl) rfl fun hb => hb
  | _ => cases ht

theorem change_call (ht : s.callStep e = some t) : Change s e t := by
  cases e with
  | ret =>
    simp only [callStep] at ht
    split_ifs at ht
    cases ht
    exact .of_drop (fun _ => rfl) rfl fun hb => hb
  | enter k =>
    simp only [callStep] at ht
    split_ifs at ht with h
    cases ht
    exact .of_add (fun _ => owners_frame (.callback k)) (fun _ => rfl) h.2 rfl fun hb => hb
  | leave =>
    simp only [callStep] at ht
    split at ht
    case h_2 => cases ht
    case h_1 f frames hframes =>
      cases ht
      refine .of_drop (fun c => ?_) rfl fun hb => hb
      have hs : s = { s with frames := f :: frames } := by rw [← hframes]
      have hdrops : s.drops c .leave = if f.con = c then 1 else 0 := by
        simp [drops, hframes]
      rw [hdrops, hs]
      exact (owners_frame (s := { s with frames := frames }) f).symm
  | accept k =>
    simp only [callStep] at ht
    split_ifs at ht with hnew
    cases ht
    -- an accepted connection gets owners, and no other one does
    have hother : ∀ c, c ≠ k → ({ s with
        accepted := insert k s.accepted
        frames := .callback k :: s.frames
        connections := insert k s.connections
        channels := insert k s.channels }).owners c = s.owners c := by
      intro c hck
      simp [owners, Callback.con, hck, List.count_cons_of_ne hck.symm]
    refine ⟨fun c hc => ?_, fun c h => absurd h (by simp [drops]), fun c h => ?_,
      Finset.subset_insert _ _, fun hb => hb⟩
    · by_cases hck : c = k
      · simp [owners, hck]
      · rw [hother c hck]
        exact hc
    · -- the server and the epoller are the first owners of `k`
      by_cases hck : c = k
      · subst hck
        exact .inr ⟨hnew.2, Finset.mem_insert_self _ _⟩
      · rw [hother c hck] at h
        exact .inl h
  | close k =>
    simp only [callStep] at ht
    split_ifs at ht
    cases ht
    exact .of_onClose (fun _ => rfl) (fun _ => rfl) rfl fun hb => hb
  | keep k =>
    simp only [callStep] at ht
    split_ifs at ht with hpos
    cases ht
    exact .of_add (fun _ => owners_addKept) (fun _ => rfl) hpos.2 rfl fun hb => hb
  | release k =>
    simp only [callStep] at ht
    split_ifs at ht with hpos
    cases ht
    exact .of_drop (fun _ => owners_dropKept hpos) rfl fun hb => hb
  | share k =>
    simp only [callStep] at ht
    split_ifs at ht with hpos
    cases ht
    exact .of_add (fun _ => owners_addRef) (fun _ => rfl) hpos.2 rfl fun hb => hb
  | _ => cases ht

theorem refs_le_owners : s.refs c ≤ s.owners c := Nat.le_add_left ..

theorem change_other (ht : s.otherStep e = some t) : Change s e t := by
  cases e with
  | copy k =>
    simp only [otherStep] at ht
    split_ifs at ht with hpos
    cases ht
    exact .of_add (fun _ => owners_addRef) (fun _ => rfl) (hpos.trans_le refs_le_owners) rfl
      fun hb => hb
  | post fn =>
    simp only [otherStep] at ht
    split_ifs at ht
    cases ht
    exact .of_drop (fun _ => rfl) rfl fun hb => hb
  | drop k =>
    simp only [otherStep] at ht
    split_ifs at ht with hpos
    cases ht
    exact .of_drop (fun _ => owners_dropRef hpos.1) rfl fun hb => hb
  | _ => cases ht

/-- **What one step does to the owners.** -/
theorem step_change (hb : s.part = .poll → s.batch = []) (ht : s.step e = some t) :
    Change s e t := by
  unfold step at ht
  split at ht
  · exact change_other ht
  · exact change_other ht
  · exact change_other ht
  all_goals
    split_ifs at ht
    first
      | exact change_call ht
      | exact change_body hb ht

/-- What one step does to the queue: `RunFuctions` takes the front, and a post adds a function. -/
theorem step_fns (ht : s.step e = some t) : t.fns = s.queued e ∨
    ∃ fn, e = .post fn ∧ t.fns = s.fns ++ [fn] ∧ ∀ c ∈ fn.this, 0 < s.refs c := by
  cases e with
  | post fn =>
    simp only [step, otherStep] at ht
    split_ifs at ht with hpost
    cases ht
    exact .inr ⟨fn, rfl, rfl, hpost.2⟩
  | front =>
    left
    simp only [step, bodyStep] at ht
    split_ifs at ht
    split at ht
    case h_2 => cases ht
    case h_1 fn fns _ hfns =>
      cases ht
      cases fn <;> simp [queued, hfns, execute]
  | handleEvent =>
    left
    simp only [step, bodyStep] at ht
    split_ifs at ht
    split at ht
    · cases ht
      rfl
    · cases ht
  | leave =>
    left
    simp only [step, callStep] at ht
    split_ifs at ht
    split at ht
    · cases ht
      rfl
    · cases ht
  | close k =>
    left
    simp only [step, callStep] at ht
    split_ifs at ht
    cases ht
    exact fns_onClose
  | _ =>
    left
    simp only [step, bodyStep, callStep, otherStep] at ht
    split_ifs at ht
    cases ht
    rfl

theorem mem_behind_of_mem_queued {fn : Posted ι} (h : fn ∈ s.queued e) : fn ∈ s.behind e := by
  cases e with
  | leave => exact List.mem_append_right _ h
  | _ => exact h

omit [DecidableEq ι] in
theorem mem_of_mem_queued {fn : Posted ι} (h : fn ∈ s.queued e) : fn ∈ s.fns := by
  cases e with
  | front => exact List.mem_of_mem_tail h
  | _ => exact h

/-- What is needed behind a step is in the queue, or goes on in `OnClose`. -/
theorem mem_behind {fn : Posted ι} (h : fn ∈ s.behind e) :
    fn ∈ s.queued e ∨ e = .leave ∧ fn ∈ s.resumed := by
  cases e with
  | leave =>
    rcases List.mem_append.1 h with h | h
    · exact .inr ⟨rfl, Option.mem_toList.1 h⟩
    · exact .inl h
  | _ => exact .inl h

/-- A function that goes on in `OnClose` has its connection in the argument of `closeCb_`. -/
theorem owners_of_resumed {fn : Posted ι} (h : fn ∈ s.resumed) (hc : c ∈ fn.this) :
    0 < s.owners c := by
  unfold resumed at h
  split at h
  case h_2 => cases h
  case h_1 k frames hframes =>
    have hk : fn.this = some k := of_decide_eq_true (Option.mem_filter_iff.1 h).2
    rw [Option.mem_def, hk] at hc
    cases hc
    simp [owners, hframes, Callback.con]

/-! ## Runs that hold their connections -/

/-- The run invariant: every function in the queue has its connection. -/
structure Live (s : ServerLoop ι) : Prop where
  batch : s.part = .poll → s.batch = []
  accepted : ∀ c, 0 < s.owners c → c ∈ s.accepted
  owned : ∀ fn ∈ s.fns, ∀ c ∈ fn.this, 0 < s.owners c

theorem live_init : Live ({} : ServerLoop ι) where
  batch _ := rfl
  accepted c h := absurd h (by simp [owners])
  owned fn h := absurd h List.not_mem_nil

theorem Live.meets_owned (h : Live s) (hheld : s.Held e) : s.Owned e := by
  cases e with
  | front =>
    intro _ _ fn hfn
    exact h.owned fn (List.mem_of_mem_head? hfn)
  | leave =>
    intro t ht fn hfn c hc
    have hbehind : fn ∈ s.behind .leave :=
      List.mem_append_left _ (Option.mem_toList.2 hfn)
    exact (step_change h.batch ht).keep c (hheld (by rw [ht]; rfl) fn hbehind c hc)
  | _ => trivial

theorem Live.step (h : Live s) (hheld : s.Held e) (ht : s.step e = some t) : Live t := by
  have hchange := step_change h.batch ht
  have hheld := hheld (by rw [ht]; rfl)
  refine ⟨hchange.batch h.batch, fun c hc => ?_, fun fn hfn c hc => hchange.keep c ?_⟩
  · rcases hchange.new c hc with hpos | hnew
    · exact hchange.accepted (h.accepted c hpos)
    · exact hnew.2
  -- a step drops less than the owners of what is still in the queue
  · rcases step_fns ht with hfns | ⟨new, rfl, hfns, hrefs⟩
    · rw [hfns] at hfn
      exact hheld fn (mem_behind_of_mem_queued hfn) c hc
    · rw [hfns, List.mem_append, List.mem_singleton] at hfn
      rcases hfn with hfn | rfl
      · exact hheld fn hfn c hc
      · -- the thread that has posted holds a reference
        exact (hrefs c hc).trans_le refs_le_owners

/-! ## Functions that have lost their connection -/

/-- A function in the queue has no object any more. -/
def Lost (s : ServerLoop ι) : Prop :=
  ∃ fn ∈ s.fns, ∃ c ∈ fn.this, c ∈ s.accepted ∧ s.owners c = 0

/-- A step that drops the last reference leaves the function behind, or is the return of
`closeCb_` to an object that is not there any more. -/
theorem lost_of_not_held (h : Live s) (hheld : ¬ s.Held e) :
    ∃ t, s.step e = some t ∧ (Lost t ∨ ¬ s.Owned e) := by
  unfold Held at hheld
  push Not at hheld
  -- `fn` is needed behind the step, which drops as many references as `c` has owners
  obtain ⟨hsome, fn, hfn, c, hc, hle⟩ := hheld
  obtain ⟨t, ht⟩ := Option.isSome_iff_exists.1 hsome
  have hchange := step_change h.batch ht
  have hpos : 0 < s.owners c := by
    rcases mem_behind hfn with hfn | ⟨-, hfn⟩
    · exact h.owned fn (mem_of_mem_queued hfn) c hc
    · exact owners_of_resumed hfn hc
  have hzero : t.owners c = 0 := hchange.lose c (hpos.trans_le hle) hle
  refine ⟨t, ht, ?_⟩
  rcases mem_behind hfn with hqueue | ⟨rfl, hresumed⟩
  · refine .inl ⟨fn, ?_, c, hc, hchange.accepted (h.accepted c hpos), hzero⟩
    rcases step_fns ht with hfns | ⟨new, rfl, -⟩
    · rwa [hfns]
    · -- to post drops nothing
      have hdrops : s.drops c (.post new) = 0 := rfl
      omega
  · refine .inr fun hown => ?_
    have := hown t ht fn hresumed c hc
    omega

theorem Lost.step (h : Lost s) (hb : s.part = .poll → s.batch = []) (hown : s.Owned e)
    (ht : s.step e = some t) : Lost t := by
  obtain ⟨fn, hfn, c, hc, hacc, hzero⟩ := h
  have hchange := step_change hb ht
  refine ⟨fn, ?_, c, hc, hchange.accepted hacc, ?_⟩
  · rcases step_fns ht with hfns | ⟨new, -, hfns, -⟩
    · rw [hfns]
      cases e with
      | front =>
        simp only [ServerLoop.step, bodyStep] at ht
        split_ifs at ht with hcall
        split at ht
        case h_2 => cases ht
        case h_1 head fns hpart hqueue =>
          rw [hqueue] at hfn
          rcases List.mem_cons.1 hfn with rfl | hfn
          · -- the function is called now
            have := hown hpart (by simpa using hcall) fn (by simp [hqueue]) c hc
            omega
          · simpa [queued, hqueue] using hfn
      | _ => exact hfn
    · rw [hfns]
      exact List.mem_append_left _ hfn
  · -- nobody gets a reference to what has been destroyed
    by_contra hpos
    rcases hchange.new c (by omega) with hpos | hnew
    · omega
    · exact hnew.1 hacc

/-- A function that has lost its connection is called without one, if it is called at all. -/
theorem not_meets_of_lost {es : List (ServerLoopStep ι)} :
    ∀ {s : ServerLoop ι}, Lost s → (s.part = .poll → s.batch = []) →
      run ServerLoop.step s es = some t → t.fns = [] → ¬ Meets ServerLoop.step Owned s es := by
  induction es with
  | nil =>
    rintro s ⟨fn, hfn, -⟩ - hrun hdone -
    cases hrun
    rw [hdone] at hfn
    cases hfn
  | cons e es ih =>
    rintro s hlost hb hrun hdone ⟨hown, hmeets⟩
    obtain ⟨u, hu, hrun⟩ := run_cons_eq_some.1 hrun
    exact ih (hlost.step hb hown hu) ((step_change hb hu).batch hb) hrun hdone (hmeets u hu)

/-! ## Runs -/

/-- A run that has called everything that has been posted. -/
theorem Live.meets_held {es : List (ServerLoopStep ι)} :
    ∀ {s : ServerLoop ι}, Live s → run ServerLoop.step s es = some t → t.fns = [] →
      Meets ServerLoop.step Owned s es → Meets ServerLoop.step Held s es := by
  induction es with
  | nil => exact fun _ _ _ _ => trivial
  | cons e es ih =>
    rintro s hlive hrun hdone ⟨hown, hmeets⟩
    obtain ⟨u, hu, hrun⟩ := run_cons_eq_some.1 hrun
    have hheld : s.Held e := by
      by_contra hheld
      -- the function that is lost here is called later in the run, since the queue is empty then
      obtain ⟨v, hv, hlost⟩ := lost_of_not_held hlive hheld
      rw [hu] at hv
      cases hv
      have hub := (step_change hlive.batch hu).batch hlive.batch
      exact not_meets_of_lost (hlost.resolve_right (not_not_intro hown)) hub hrun hdone
        (hmeets u hu)
    refine ⟨hheld, fun v hv => ?_⟩
    rw [hu] at hv
    cases hv
    exact ih (hlive.step hheld hu) hrun hdone (hmeets u hu)

/-- **Every function that is called has its connection, to its end**, if no step drops the last
reference while one is in the queue or in `OnClose`; and in a run that has called all of them, only
then. -/
theorem posted_owned (es : List (ServerLoopStep ι)) :
    (Meets ServerLoop.step Held {} es → Meets ServerLoop.step Owned ({} : ServerLoop ι) es) ∧
      ∀ t : ServerLoop ι, run ServerLoop.step {} es = some t → t.fns = [] →
        Meets ServerLoop.step Owned {} es → Meets ServerLoop.step Held {} es := by
  constructor
  · intro h
    exact h.imp_of_inv Live (fun s e hs hheld => hs.meets_owned hheld)
      (fun s e t hs hheld ht => hs.step hheld ht) live_init
  · intro t hrun hdone hown
    exact live_init.meets_held hrun hdone hown

/-- Another thread sends and drops its reference between `RunFuctions` and `OnTimer`, which
closes the connection. -/
theorem posted_not_owned : ¬ ∀ es : List (ServerLoopStep Unit),
    Meets ServerLoop.step Owned ({} : ServerLoop Unit) es := by
  intro h
  obtain ⟨es, t, ht, hpart, hcall, hfns, hzero⟩ : ∃ es t,
      run ServerLoop.step ({} : ServerLoop Unit) es = some t ∧ t.part = .runFuctions ∧
        t.calling = false ∧ t.fns = [.send ()] ∧ t.owners () = 0 :=
    ⟨[.poll [], .handleOther, .accept (), .share (), .leave, .ret, .runFuctions, .onTimer,
        .post (.send ()), .drop (), .timer, .close (), .leave, .ret, .next,
        .poll [], .runFuctions], _, rfl, rfl, rfl, rfl, rfl⟩
  have hown := (h (es ++ [.front])).append_right ht
  have hpos := hown.1 hpart hcall (.send ()) (by rw [hfns]; rfl) () rfl
  omega

/-- Another thread calls `ForceClose` and drops its reference. The function finds its connection,
and gives the last reference away to `closeCb_`. -/
theorem closing_not_owned : ∃ es t, run ServerLoop.step ({} : ServerLoop Unit) es = some t ∧
    t.resumed = some (.forceClose ()) ∧ ¬ t.Owned .leave := by
  refine ⟨[.poll [], .handleOther, .accept (), .share (), .leave, .ret, .post (.forceClose ()),
    .drop (), .runFuctions, .front], _, rfl, rfl, ?_⟩
  intro hown
  exact absurd (hown _ rfl (.forceClose ()) rfl () rfl) (by decide)

end ServerLoop

end HttpNest
