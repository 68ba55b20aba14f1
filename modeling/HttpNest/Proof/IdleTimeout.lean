import HttpNest.Proof.SecondsWheel

/-!
# `OnTimeout` comes when the connection has been idle for its time

With a maximal idle time below a minute the references to the connection's entry stay in the
seconds wheel. While the connection is open, all of them are released by
`lastActive + maxIdleTime`, and one of them not before: its entry is `DueAt` that tick, and the
destructor runs in it (`idle_timeout`).
-/

namespace HttpNest

open EventRun TimingWheel

namespace IdleRun

variable {c d : IdleRun}

/-- The tick in which the connection times out if it stays idle. -/
def limit (c : IdleRun) : ℕ := c.lastActive + c.maxIdleTime.toNat

/-- Before the call of `EnableCheckIdleTimeout`, while the entry is held, and behind its
destruction. -/
inductive Phase (c : IdleRun) : Prop
  | off : c.enabled = false → c.timeouts = [] → c.isClosed = false →
    c.wheel.owns timeoutEntry = false → Phase c
  | armed : c.enabled = true → c.timeouts = [] → c.isClosed = false →
    1 ≤ c.maxIdleTime.toNat → c.maxIdleTime.toNat ≤ 59 → c.lastActive ≤ c.wheel.ticks →
    DueAt timeoutEntry c.wheel c.limit → Phase c
  | fired : c.enabled = true → c.timeouts = [c.limit] → c.isClosed = true →
    c.limit ≤ c.wheel.ticks → c.wheel.owns timeoutEntry = false → Phase c

/-- The invariant of a connection with its wheel. -/
structure Timed (c : IdleRun) : Prop where
  seated : Seated timeoutEntry c.wheel
  phase : Phase c

theorem timed_new : Timed {} := ⟨seated_new, .off rfl rfl rfl (new_owns timeoutEntry)⟩

/-- **The entry is inserted anew** in a connection that is active, and everything before is
released earlier. -/
theorem insert_timed (hseated : Seated timeoutEntry c.wheel) (henabled : c.enabled = true)
    (htimeouts : c.timeouts = []) (hopen : c.isClosed = false) (h1 : 1 ≤ c.maxIdleTime.toNat)
    (h59 : c.maxIdleTime.toNat ≤ 59) (hactive : c.lastActive = c.wheel.ticks)
    (hearly : ∀ i, HeldAt c.wheel.wheel timeoutEntry i → c.wheel.ticks + i + 1 ≤ c.limit)
    (hd : c.insert = some d) : Timed d := by
  have hlimit : c.limit = c.wheel.ticks + c.maxIdleTime.toNat := by
    unfold limit
    rw [hactive]
  obtain ⟨w, hw, hseated', hticks, hdue⟩ := DueAt.insert_self hseated hearly h1 h59 hlimit
  rw [IdleRun.insert, hw] at hd
  cases hd
  exact ⟨hseated', .armed henabled htimeouts hopen h1 h59 (hactive.trans hticks.symm).le hdue⟩

theorem Timed.enable (h : Timed c) {maxTime : BitVec 32} (h1 : 1 ≤ maxTime.toNat)
    (h59 : maxTime.toNat ≤ 59) (hd : c.step (.enableCheckIdleTimeout maxTime) = some d) :
    Timed d := by
  simp only [step] at hd
  cases h.phase with
  -- a second call returns at once
  | armed he _ _ _ _ _ _ | fired he _ _ _ _ =>
    rw [he] at hd
    cases hd
  | off he htimeouts hopen hno =>
    rw [he] at hd
    refine insert_timed (c := { c with
        enabled := true
        maxIdleTime := maxTime
        lastActive := c.wheel.ticks }) h.seated rfl htimeouts hopen h1 h59 rfl (fun i hi => ?_) hd
    -- no reference of the entry is in a slot before the first insertion
    have hown : c.wheel.owns timeoutEntry = true := h.seated.owns_iff.2 (.inl ⟨i, hi⟩)
    rw [hno] at hown
    cases hown

/-- Reading and writing extend the life of the entry while it is held. -/
theorem Timed.active (h : Timed c) (hd : c.active = some d) : Timed d := by
  unfold IdleRun.active extendLife at hd
  cases h.phase with
  | off he htimeouts hopen hno =>
    rw [hopen, hno] at hd
    cases hd
    exact ⟨h.seated, .off he htimeouts rfl hno⟩
  | fired he htimeouts hclosed hle hno =>
    rw [hclosed] at hd
    cases hd
    exact h
  | armed he htimeouts hopen h1 h59 hle hdue =>
    have hown : c.wheel.owns timeoutEntry = true := hdue.owns h.seated
    rw [hopen, hown] at hd
    -- its references lie below the limit of the activity before
    refine insert_timed (c := { c with lastActive := c.wheel.ticks, isClosed := false }) h.seated he
      htimeouts rfl h1 h59 rfl (fun i hi => ?_) hd
    have hlt : c.wheel.ticks + i + 1 ≤ c.lastActive + c.maxIdleTime.toNat := hdue.early i hi
    show c.wheel.ticks + i + 1 ≤ c.wheel.ticks + c.maxIdleTime.toNat
    omega

/-- **A step by others**: the entry is kept, or destroyed at the limit. -/
theorem Timed.wheelStep (h : Timed c) {e : WheelEvent}
    (he : ∀ delay, e ≠ .insert delay timeoutEntry) (hd : c.wheelStep e = some d) : Timed d := by
  obtain ⟨w, hw, rfl⟩ := Option.map_eq_some_iff.1 hd
  obtain ⟨hseated, hshift⟩ := step_shift h.seated he hw
  have hticks : c.wheel.ticks ≤ w.ticks := hshift.ticks_le
  -- without a reference none is dropped
  have hnone : c.wheel.owns timeoutEntry = false → w.owns timeoutEntry = false ∧
      (if c.wheel.owns timeoutEntry ∧ ¬ w.owns timeoutEntry then { c with wheel := w }.onTimeout
        else { c with wheel := w }) = { c with wheel := w } := by
    intro hno
    refine ⟨?_, if_neg (by simp [hno])⟩
    rw [← Bool.not_eq_true] at hno ⊢
    exact fun hown => hno (hshift.owns h.seated hseated hown)
  cases h.phase with
  | off henabled htimeouts hopen hno =>
    obtain ⟨hno', heq⟩ := hnone hno
    rw [heq]
    exact ⟨hseated, .off henabled htimeouts hopen hno'⟩
  | fired henabled htimeouts hclosed hle hno =>
    obtain ⟨hno', heq⟩ := hnone hno
    rw [heq]
    exact ⟨hseated, .fired henabled htimeouts hclosed (hle.trans hticks) hno'⟩
  | armed henabled htimeouts hopen h1 h59 hle hdue =>
    have hown := hdue.owns h.seated
    -- the step keeps the entry, or drops its last reference in the tick of the limit
    rcases hdue.shift hseated hshift with hdue' | ⟨hno, hlimit⟩
    · rw [if_neg (by simp [hdue'.owns hseated])]
      exact ⟨hseated, .armed henabled htimeouts hopen h1 h59 (hle.trans hticks) hdue'⟩
    · rw [if_pos ⟨hown, by simp [hno]⟩]
      refine ⟨hseated, .fired henabled ?_ rfl hlimit.ge hno⟩
      show c.timeouts ++ [w.ticks] = [c.limit]
      rw [htimeouts, hlimit, List.nil_append]

theorem Timed.step (h : Timed c) {e : IdleEvent} (he : e.Short) (hd : c.step e = some d) :
    Timed d := by
  cases e with
  | enableCheckIdleTimeout maxTime => exact h.enable he.1 he.2 hd
  | onRead | onWrite => exact h.active hd
  | other e =>
    cases e with
    | insert delay entry =>
      obtain ⟨hne, hd⟩ := Option.ite_none_left_eq_some.1 hd
      exact h.wheelStep (fun delay' he => hne (by cases he; rfl)) hd
    | onTimer now | drop i | popUp => exact h.wheelStep (fun _ he => by cases he) hd

/-- `OnTimeout` is called at most once. It is called in the tick that is `maxIdleTime` ticks
behind the last activity, which between two calls of `OnTimer` is known to have happened or not. -/
structure Punctual (c : IdleRun) : Prop where
  once : c.timeouts.length ≤ 1
  sound : ∀ n ∈ c.timeouts, n = c.lastActive + c.maxIdleTime.toNat
  during : c.wheel.Idle → ∀ n, n ∈ c.timeouts ↔
    c.enabled = true ∧ n = c.lastActive + c.maxIdleTime.toNat ∧ n ≤ c.wheel.ticks

theorem Timed.punctual (h : Timed c) : Punctual c := by
  cases h.phase with
  | off henabled htimeouts hopen hno =>
    refine ⟨by simp [htimeouts], by simp [htimeouts], fun _ n => ?_⟩
    simp [htimeouts, henabled]
  | armed henabled htimeouts hopen h1 h59 hle hdue =>
    refine ⟨by simp [htimeouts], by simp [htimeouts], fun hidle n => ?_⟩
    -- an idle wheel has dropped what it released, so the limit lies ahead
    have hlt : c.wheel.ticks < c.lastActive + c.maxIdleTime.toNat := hdue.lt_of_idle hidle
    rw [htimeouts]
    refine iff_of_false List.not_mem_nil ?_
    rintro ⟨-, rfl, hn⟩
    omega
  | fired henabled htimeouts hclosed hle hno =>
    unfold limit at htimeouts hle
    refine ⟨by simp [htimeouts], by simp [htimeouts], fun _ n => ?_⟩
    rw [htimeouts, List.mem_singleton, henabled]
    constructor
    · rintro rfl
      exact ⟨rfl, rfl, hle⟩
    · exact fun hn => hn.2.1

/-- **A connection times out exactly in the tick that is its maximal idle time behind its last
activity**, and once, in every run of ticks, reads, writes and other insertions. -/
theorem idle_timeout {es : List IdleEvent} (hes : ∀ e ∈ es, e.Short)
    (h : run IdleRun.step {} es = some c) : Punctual c :=
  (run_inv_of_meets Timed (fun _ _ _ hc he hd => hc.step he hd) timed_new (meets_of_forall hes)
    h).punctual

/-- A second of idle time, and the tick that ends it. -/
def oneSecond : List IdleEvent :=
  [.enableCheckIdleTimeout 1, .onRead, .other (.onTimer 1), .other (.onTimer 1001),
    .other (.drop 0)]

theorem idle_timeout_second : (∀ e ∈ oneSecond, e.Short) ∧
    ∃ c, run IdleRun.step {} oneSecond = some c ∧ c.timeouts = [1] ∧ Punctual c := by
  have hes : ∀ e ∈ oneSecond, e.Short := by
    intro e he
    fin_cases he
    · exact ⟨by decide, by decide⟩
    all_goals trivial
  have hrun : (run IdleRun.step {} oneSecond).map IdleRun.timeouts = some [1] := by decide +kernel
  obtain ⟨c, hc, htimeouts⟩ := Option.map_eq_some_iff.1 hrun
  exact ⟨hes, c, hc, htimeouts, idle_timeout hes hc⟩

end IdleRun

end HttpNest
