import HttpNest.Spec.PipeEvent

/-!
# Wake-ups through the pipe

`PipeEvent::OnRead` takes eight bytes for a notification, however many posts it stands for.
So the pipe can run full, and from then on a read gives no room back before a page has been
read to its end: a post finds the pipe full though its last notification has been handled. Whether
its write wakes the loop up all the same is up to the kernel.

* `wakeups_kept_iff`: wake-ups are kept exactly by the runs in which no post writes in vain
  while the loop waits, whatever the kernel notifies of.
* `wakeups_kept_of_every`, `wakeups_kept_of_single`: that never happens where every write is a
  notification, nor where every write that is done is one and the pages are of one record.
-/

namespace HttpNest

open EventRun

variable {F : Type*} {K : PipeKernel} {s s' : WakeLoop F}

namespace WakeLoop

/-- No post is under way while the functions are run, and a post has pushed its function. -/
structure Wakeful (s : WakeLoop F) : Prop where
  exclusive : s.phase = .running → s.posting = false
  queued : s.posting = true → s.fns ≠ []
  woken : s.Woken

theorem wakeful_start : Wakeful ({} : WakeLoop F) where
  exclusive h := by cases h
  queued h := by cases h
  woken _ _ h := absurd rfl h

/-- Behind a write there are unread bytes: its own, or those that leave no room. -/
theorem unread_pos_of_write (K : PipeKernel) (p : Pipe) :
    0 < ((p.write K.slots K.page).getD p).unread := by
  cases hw : p.write K.slots K.page with
  | some q =>
    have hq := Pipe.unread_write hw
    show 0 < q.unread
    omega
  | none => exact K.unread_pos_of_not_room (Pipe.write_eq_none.1 hw)

/-- **What one step preserves.** -/
theorem step_wakeful {e : WakeStep F} (h : Wakeful s) (hC : s.WriteHeard K e)
    (hs : s.step K e = some s') : Wakeful s' := by
  cases e with
  | push fn =>
    simp only [step] at hs
    split_ifs at hs with hfree
    cases hs
    refine ⟨fun hrun => absurd hrun hfree.2, fun _ => by simp, ?_⟩
    intro _ hpost
    cases hpost
  | write =>
    simp only [step] at hs
    split_ifs at hs with hpost
    cases hs
    refine ⟨fun _ => rfl, fun hp => (by cases hp), ?_⟩
    refine fun hphase _ _ => ⟨?_, unread_pos_of_write K _⟩
    -- the loop waits, so the write is heard or an earlier notification is there
    rcases hC hpost with hheard | hpending | hbusy
    · simp [hheard]
    · simp [hpending]
    · exact absurd hphase hbusy
  | poll =>
    simp only [step] at hs
    split_ifs at hs
    cases hs
    exact ⟨fun hrun => (by cases hrun), h.queued, fun hwait => (by cases hwait)⟩
  | onRead =>
    simp only [step] at hs
    split_ifs at hs
    cases hs
    exact ⟨fun hrun => (by cases hrun), h.queued, fun hwait => (by cases hwait)⟩
  | lock =>
    simp only [step] at hs
    split_ifs at hs with hfree
    cases hs
    exact ⟨fun _ => hfree.2, h.queued, fun hwait => (by cases hwait)⟩
  | runFront =>
    simp only [step] at hs
    split at hs
    case h_2 => cases hs
    case h_1 fn fns hphase hfns =>
      cases hs
      -- no post is under way while the lock is held
      have hpost := h.exclusive hphase
      refine ⟨h.exclusive, fun hp => ?_, fun hwait => ?_⟩
      · rw [hpost] at hp
        cases hp
      · rw [hphase] at hwait
        cases hwait
  | unlock =>
    simp only [step] at hs
    split_ifs at hs with hdone
    cases hs
    exact ⟨fun hrun => (by cases hrun), h.queued, fun _ _ hfns => absurd hdone.2 hfns⟩

/-- A post that is not heard leaves the loop waiting without a notification. -/
theorem not_woken_of_unheard {e : WakeStep F} (h : Wakeful s) (hC : ¬ s.WriteHeard K e) :
    ∃ s', s.step K e = some s' ∧ ¬ s'.Woken := by
  cases e with
  | write =>
    simp only [WriteHeard, not_forall, not_or, not_not] at hC
    obtain ⟨hpost, hheard, hpending, hphase⟩ := hC
    refine ⟨_, if_pos hpost, fun hwoken => ?_⟩
    have hnotified : (s.pending || K.notifies s.pipe) = true :=
      (hwoken hphase rfl (h.queued hpost)).1
    rcases Bool.or_eq_true_iff.1 hnotified with h | h
    · exact hpending h
    · exact hheard h
  | _ => exact absurd trivial hC

/-- **No wake-up is lost exactly if no post writes unheard while the loop waits with its
notification taken.** -/
theorem wakeups_kept_iff (K : PipeKernel) (es : List (WakeStep F)) :
    Passes (step K) Woken {} es ↔ Meets (step K) (WriteHeard K) {} es :=
  passes_iff_meets Wakeful (fun _ h => h.woken) (fun _ _ _ h hC hs => step_wakeful h hC hs)
    (fun _ _ h hC => not_woken_of_unheard h hC) wakeful_start

/-- A run in which every write is heard passes no state that has lost a wake-up. -/
theorem woken_of_heard {es : List (WakeStep F)} (h : Meets (step K) (WriteHeard K) {} es) :
    Passes (step K) Woken {} es :=
  passes_of_meets Wakeful (fun _ h => h.woken) (fun _ _ _ h hC hs => step_wakeful h hC hs)
    wakeful_start h

/-- Where every write is a notification, no wake-up is lost. -/
theorem wakeups_kept_of_every (hK : ∀ p, K.notifies p = true) (es : List (WakeStep F)) :
    Passes (step K) Woken {} es := by
  refine woken_of_heard (meets_of_inv (fun _ => True) ?_ (fun _ _ _ _ _ => trivial) trivial)
  intro s e _
  cases e with
  | write => exact fun _ => .inl (hK _)
  | _ => trivial

example (es : List (WakeStep F)) : Passes (step .onWrite) Woken {} es :=
  wakeups_kept_of_every (fun _ => rfl) es

/-! ## Pages of one record -/

/-- A write that is done is a notification. -/
def HearsData (K : PipeKernel) : Prop := ∀ p : Pipe, p.Room K.slots K.page → K.notifies p = true

/-- Without pages, a notification that has been handled has made room for a write. -/
structure Roomy (K : PipeKernel) (s : WakeLoop F) : Prop where
  room : s.phase ≠ .handling true → s.pending = true ∨ s.pipe.unread < K.slots
  unread_le : s.pipe.unread ≤ K.slots

theorem Roomy.heard (hpage : K.page = 1) (hK : HearsData K) {e : WakeStep F} (h : Roomy K s) :
    s.WriteHeard K e := by
  cases e with
  | write =>
    intro _
    by_cases hphase : s.phase = .waiting
    · rcases h.room (by rw [hphase]; exact nofun) with hpending | hroom
      · exact .inr (.inl hpending)
      · exact .inl (hK _ (by rw [hpage]; exact Pipe.room_iff_unread_lt.2 hroom))
    · exact .inr (.inr hphase)
  | _ => trivial

/-- A write fills at most the room there is. -/
theorem unread_write_le (hpage : K.page = 1) {p : Pipe} (h : p.unread ≤ K.slots) :
    ((p.write K.slots K.page).getD p).unread ≤ K.slots := by
  cases hw : p.write K.slots K.page with
  | none => exact h
  | some q =>
    -- a write that is done had room for a record
    have hroom : p.Room K.slots K.page := by
      by_contra hroom
      rw [Pipe.write_eq_none.2 hroom] at hw
      cases hw
    rw [hpage, Pipe.room_iff_unread_lt] at hroom
    have hq := Pipe.unread_write hw
    show q.unread ≤ K.slots
    omega

/-- The room comes back with the read, and is there until a write sets the notification. -/
theorem step_roomy (hpage : K.page = 1) (hK : HearsData K) {e : WakeStep F} (h : Roomy K s)
    (hs : s.step K e = some s') : Roomy K s' := by
  cases e with
  | push fn =>
    simp only [step] at hs
    split_ifs at hs
    cases hs
    exact ⟨h.room, h.unread_le⟩
  | write =>
    simp only [step] at hs
    split_ifs at hs
    cases hs
    refine ⟨fun hphase => ?_, unread_write_le hpage h.unread_le⟩
    rcases h.room hphase with hpending | hroom
    · exact .inl (by simp [hpending])
    · have hheard : K.notifies s.pipe = true :=
        hK _ (by rw [hpage]; exact Pipe.room_iff_unread_lt.2 hroom)
      exact .inl (by simp [hheard])
  | poll =>
    simp only [step] at hs
    split_ifs at hs with hphase
    cases hs
    refine ⟨fun hne => .inr ?_, h.unread_le⟩
    rcases h.room (by rw [hphase]; exact nofun) with hpending | hroom
    · -- then the pipe is empty, as `OnRead` is not to be called
      have hslots := K.slots_pos
      have hempty : ¬ 0 < s.pipe.unread := fun hpos => hne (by simp [hpending, hpos])
      show s.pipe.unread < K.slots
      omega
    · exact hroom
  | onRead =>
    simp only [step] at hs
    split_ifs at hs
    cases hs
    -- with one record a page the read gives one back
    have hslots := K.slots_pos
    have hread := s.pipe.unread_read
    have hle := h.unread_le
    have hlt : s.pipe.read.unread < K.slots := by omega
    exact ⟨fun _ => .inr hlt, hlt.le⟩
  | lock =>
    simp only [step] at hs
    split_ifs at hs with hfree
    cases hs
    exact ⟨fun _ => h.room (by rw [hfree.1]; exact nofun), h.unread_le⟩
  | runFront =>
    simp only [step] at hs
    split at hs <;> cases hs
    exact ⟨h.room, h.unread_le⟩
  | unlock =>
    simp only [step] at hs
    split_ifs at hs with hdone
    cases hs
    exact ⟨fun _ => h.room (by rw [hdone.1]; exact nofun), h.unread_le⟩

/-- In a pipe that gives room back with every read no wake-up is lost. -/
theorem wakeups_kept_of_single (hpage : K.page = 1) (hK : HearsData K)
    (es : List (WakeStep F)) : Passes (step K) Woken {} es := by
  have hstart : Roomy K ({} : WakeLoop F) := ⟨fun _ => .inr K.slots_pos, Nat.zero_le _⟩
  exact woken_of_heard (meets_of_inv (Roomy K) (fun _ _ h => h.heard hpage hK)
    (fun _ _ _ h hs => step_roomy hpage hK h hs) hstart)

/-! ## A full pipe -/

/-- The same function posted `n` times. -/
def posts (fn : F) (n : ℕ) : List (WakeStep F) := (List.replicate n [.push fn, .write]).flatten

/-- As many posts as there is room for, while nobody reads. -/
theorem posts_run (hK : HearsData K) (fn : F) : ∀ {n : ℕ} {s : WakeLoop F}, s.posting = false →
    s.phase ≠ .running → s.pipe.written + n ≤ (s.pipe.taken / K.page + K.slots) * K.page → ∃ t,
      run (step K) s (posts fn n) = some t ∧ t.posting = false ∧ t.phase = s.phase ∧
      t.fns = s.fns ++ List.replicate n fn ∧ t.pipe.taken = s.pipe.taken ∧
      t.pipe.written = s.pipe.written + n ∧ (0 < n → t.pending = true) := by
  intro n
  induction n with
  | zero =>
    intro s hpost _ _
    exact ⟨s, rfl, hpost, rfl, by simp, rfl, rfl, fun h => absurd h (lt_irrefl 0)⟩
  | succ n ih =>
    intro s hpost hphase hroom
    have hplace : s.pipe.Room K.slots K.page := by
      unfold Pipe.Room
      omega
    have hw : s.pipe.write K.slots K.page =
        some ⟨s.pipe.written + 1, s.pipe.taken, Nat.le_succ_of_le s.pipe.le⟩ := if_pos hplace
    set u : WakeLoop F := { s with
      fns := s.fns ++ [fn], posting := false, pending := true
      pipe := ⟨s.pipe.written + 1, s.pipe.taken, Nat.le_succ_of_le s.pipe.le⟩ } with hu
    have hrun : run (step K) s [.push fn, .write] = some u := by
      simp [run_cons, step, hpost, hphase, hw, hK _ hplace, hu]
    obtain ⟨t, ht, hpost', hphase', hfns, htaken, hwritten, hpending⟩ :=
      ih (s := u) rfl hphase
        (show s.pipe.written + 1 + n ≤ (s.pipe.taken / K.page + K.slots) * K.page by omega)
    refine ⟨t, run_append.2 ⟨u, hrun, ht⟩, hpost', hphase', ?_, htaken, ?_, fun _ => ?_⟩
    · rw [hfns, List.replicate_succ]
      simp [hu]
    · rw [hwritten]
      simp only [hu]
      omega
    · rcases n.eq_zero_or_pos with rfl | hn
      · cases ht
        rfl
      · exact hpending hn

/-- `RunFuctions` empties the queue. -/
theorem runFronts_run : ∀ {n : ℕ} {s : WakeLoop F}, s.phase = .running → s.fns.length = n →
    run (step K) s (List.replicate n .runFront) = some { s with fns := [] } := by
  intro n
  induction n with
  | zero =>
    intro s _ hlen
    rw [List.length_eq_zero_iff] at hlen
    rw [← hlen]
    rfl
  | succ n ih =>
    intro s hphase hlen
    obtain ⟨fn, fns, hfns⟩ := List.exists_cons_of_length_eq_add_one hlen
    have hstep : s.step K .runFront = some { s with fns := fns } := by
      simp [step, hphase, hfns]
    have hrest := ih (s := { s with fns := fns }) hphase (by simpa [hfns] using hlen)
    rw [List.replicate_succ, run_cons, hstep, Option.bind_some, hrest]

theorem hearsData_onData : HearsData .onData := fun _ h => decide_eq_true h

/-- A full pipe, one notification handled, and one more post: on a kernel that keeps to what a
watcher is promised, 8192 functions posted before an `epoll_wait` and one after it. -/
theorem wakeup_lost : ¬ ∀ es : List (WakeStep Unit), Passes (step .onData) Woken {} es := by
  intro h
  have hroom : ({} : WakeLoop Unit).pipe.written + 8192 ≤
      (({} : WakeLoop Unit).pipe.taken / 512 + 16) * 512 := by decide
  obtain ⟨t, ht, hpost, hphase, hfns, htaken, hwritten, hpending⟩ :=
    posts_run hearsData_onData () rfl (by decide) hroom
  have hlen : t.fns.length = 8192 := by
    rw [hfns, List.nil_append, List.length_replicate]
  have hunread : 0 < t.pipe.unread := by
    unfold Pipe.unread
    rw [htaken, hwritten]
    decide
  -- `epoll_wait`, `OnRead` and the drain; then the post that is refused
  set u : WakeLoop Unit := { t with
    pending := false, phase := .running, pipe := t.pipe.read } with hu
  have hhandle : run (step .onData) t [.poll, .onRead, .lock] = some u := by
    simp [run_cons, step, hphase, hpost, hpending, hunread, hu]
  have hdrain : run (step .onData) u (List.replicate 8192 .runFront) = some { u with fns := [] } :=
    runFronts_run rfl hlen
  have hroom : ¬ (t.pipe.read).Room 16 512 := by
    simp [Pipe.Room, Pipe.read, htaken, hwritten]
  have hfull : (t.pipe.read).write 16 512 = none := Pipe.write_eq_none.2 hroom
  have hlast : run (step .onData) { u with fns := [] } [.unlock, .push (), .write] =
      some { u with fns := [()], phase := .waiting } := by
    simp [run_cons, step, hu, hpost, hfull, hroom, PipeKernel.onData]
  have hrun := run_append.2 ⟨t, ht, run_append.2 ⟨u, hhandle, run_append.2 ⟨_, hdrain, hlast⟩⟩⟩
  have hwoken := h _ _ _ (by rw [List.take_length]; exact hrun)
  cases (hwoken rfl hpost (by simp)).1

/-- A kernel that only notifies of the first write to an empty pipe loses a wake-up as soon as two
posts have been one notification. -/
theorem wakeup_lost_onEmpty :
    ¬ ∀ es : List (WakeStep Unit), Passes (step .onEmpty) Woken {} es := by
  intro h
  have hrun : run (step .onEmpty) {} [.push (), .write, .push (), .write, .poll, .onRead, .lock,
      .runFront, .runFront, .unlock, .push (), .write] =
        some ({ fns := [()], pipe := ⟨3, 1, by decide⟩ } : WakeLoop Unit) := rfl
  have hwoken := h _ _ _ (by rw [List.take_length]; exact hrun)
  cases (hwoken rfl rfl (by simp)).1

end WakeLoop

end HttpNest
