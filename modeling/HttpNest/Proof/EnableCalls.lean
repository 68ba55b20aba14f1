import HttpNest.Proof.References
import HttpNest.Spec.EnableCalls

/-!
# Which limit governs

Only the entry of the last call of `EnableCheckIdleTimeout` is inserted anew by activity. An entry
of an earlier call is destroyed when it is due, and closes the connection in that tick, whatever
limit has been set since.

So the connection is not timed out early if, at each call and each activity, what the wheel holds of
the earlier calls is not due before the new limit is over (`Outlives`): in such a run every entry
is held until the limit is over (`HeldUntil`, `last_limit_governs`).
-/

namespace HttpNest

open EventRun TimingWheel

variable {w w' : WheelRun} {entry e i : ℕ}

/-- The wheel holds the entry until tick `limit`. -/
def HeldUntil (w : WheelRun) (entry limit : ℕ) : Prop :=
  limit ≤ w.ticks ∨ ∃ i, HeldAt w.wheel entry i ∧ limit ≤ w.ticks + i + 1

variable {limit : ℕ}

/-- A reference that has gone has lasted. -/
theorem HeldUntil.le_of_not_owns (h : HeldUntil w entry limit) (hs : Seated entry w)
    (hno : w.owns entry = false) : limit ≤ w.ticks := by
  rcases h with hle | ⟨i, hi, -⟩
  · exact hle
  · have hown := hs.owns_iff.2 (.inl ⟨i, hi⟩)
    rw [hno] at hown
    cases hown

/-- **A step by others lets the entry last.** -/
theorem HeldUntil.shift (h : HeldUntil w entry limit) (hshift : Shift entry w w') :
    HeldUntil w' entry limit := by
  rcases h with hle | ⟨i, hi, hle⟩
  · exact .inl (hle.trans hshift.ticks_le)
  cases hshift with
  | still hticks hat _ | drop hticks hat _ =>
    refine .inr ⟨i, (hat i).2 hi, ?_⟩
    rwa [hticks]
  | tick _ hticks hat _ =>
    rcases i with _ | i
    · exact .inl (by omega)
    · exact .inr ⟨i, (hat i).2 hi, by omega⟩

/-- An insertion of another entry is a step by others. -/
theorem Seated.insert_shift (h : Seated entry w) {delay : BitVec 32} (hne : e ≠ entry)
    (hw : w.insert delay e = some w') : Seated entry w' ∧ Shift entry w w' :=
  step_shift h (e := .insert delay e) (fun _ heq => hne (WheelEvent.insert.inj heq).2) hw

theorem ownEntry_inj {i j : ℕ} (h : ownEntry i = ownEntry j) : i = j := by
  unfold ownEntry at h
  omega

theorem foreignEntry_ne (entry i : ℕ) : foreignEntry entry ≠ ownEntry i := by
  unfold foreignEntry ownEntry
  omega

namespace EnableRun

variable {s t : EnableRun}

/-- If the wheel holds the entry, then in a slot that is due in `limit` ticks or later. -/
def Outlives (s : EnableRun) (limit : BitVec 32) (i : ℕ) : Prop :=
  s.wheel.owns (ownEntry i) = true →
    ∃ slot ∈ (s.wheel.wheel.wheels .kTimingTypeSecond).drop (limit.toNat - 1),
      .user (ownEntry i) ∈ slot

/-- At a call or an activity of the open connection, the entries of earlier calls outlive the
limit. -/
def EarlierOutlive (s : EnableRun) : EnableEvent → Prop
  | .enableCheckIdleTimeout maxTime => s.isClosed = false → ∀ i < s.made, s.Outlives maxTime i
  | .onRead | .onWrite => s.isClosed = false → ∀ i < s.made - 1, s.Outlives s.maxIdleTime i
  | .onClose | .insertEntry _ _ | .onTimer _ | .drop _ | .popUp => True

instance (s : EnableRun) (limit : BitVec 32) (i : ℕ) : Decidable (s.Outlives limit i) :=
  inferInstanceAs (Decidable (_ → _))

instance (s : EnableRun) : (e : EnableEvent) → Decidable (s.EarlierOutlive e)
  | .enableCheckIdleTimeout _ | .onRead | .onWrite => inferInstanceAs (Decidable (_ → _))
  | .onClose | .insertEntry _ _ | .onTimer _ | .drop _ | .popUp => isTrue trivial

/-- Such an entry lasts until the limit is over. -/
theorem Outlives.heldAt {maxTime : BitVec 32} (h : s.Outlives maxTime i)
    (hown : s.wheel.owns (ownEntry i) = true) :
    ∃ j, HeldAt s.wheel.wheel (ownEntry i) j ∧ maxTime.toNat ≤ j + 1 := by
  obtain ⟨slot, hslot, hmem⟩ := h hown
  obtain ⟨j, hj⟩ := List.getElem?_of_mem hslot
  rw [List.getElem?_drop] at hj
  exact ⟨_, ⟨slot, hj, hmem⟩, by omega⟩

/-- The references to the connection's entries are in the seconds wheel, and it has not been timed
out early. -/
structure Placed (s : EnableRun) : Prop where
  seated : ∀ i, Seated (ownEntry i) s.wheel
  fresh : ∀ i, s.made ≤ i → s.wheel.owns (ownEntry i) = false
  short : 1 ≤ s.maxIdleTime.toNat ∧ s.maxIdleTime.toNat ≤ 59
  closes : ∀ c ∈ s.closes, c.lastActive + c.maxIdleTime.toNat ≤ c.tick

/-- The invariant of a connection whose earlier entries outlive its limits. -/
structure Governed (s : EnableRun) : Prop extends Placed s where
  lasts : s.isClosed = false → ∀ i < s.made, s.wheel.owns (ownEntry i) = true →
    HeldUntil s.wheel (ownEntry i) (s.lastActive + s.maxIdleTime.toNat)

theorem governed_new : Governed {} := by
  refine ⟨⟨fun _ => seated_new, fun i _ => new_owns _, by decide, fun c hc => ?_⟩, ?_⟩
  · cases hc
  · intro _ i hi
    exact absurd hi (Nat.not_lt_zero i)

/-- **A step of the wheel by others** leaves the entries that it does not drop. -/
theorem Governed.shift (h : Governed s)
    (hshift : ∀ i, Seated (ownEntry i) w ∧ Shift (ownEntry i) s.wheel w) :
    Governed { s with wheel := w } := by
  have howns : ∀ i, w.owns (ownEntry i) = true → s.wheel.owns (ownEntry i) = true :=
    fun i hown => (hshift i).2.owns (h.seated i) (hshift i).1 hown
  refine ⟨⟨fun i => (hshift i).1, ?_, h.short, h.closes⟩, ?_⟩
  · intro i hi
    have hno := h.fresh i hi
    rw [← Bool.not_eq_true] at hno ⊢
    exact fun hown => hno (howns i hown)
  · intro hopen i hi hown
    exact (h.lasts hopen i hi (howns i hown)).shift (hshift i).2

/-- **An entry is inserted for the limit from now on.** -/
theorem Placed.insert (h : Placed s) (hi : i < s.made) (hactive : s.lastActive = s.wheel.ticks)
    (hearlier : s.isClosed = false → ∀ j < s.made, j ≠ i → s.Outlives s.maxIdleTime j) :
    ∃ w, s.wheel.insert s.maxIdleTime (ownEntry i) = some w ∧ w.owns (ownEntry i) = true ∧
      Governed { s with wheel := w } := by
  obtain ⟨h1, h59⟩ := h.short
  obtain ⟨w, hw, hseated, hticks, -, hat⟩ := (h.seated i).insert_self h1 h59
  have hlast : HeldAt w.wheel (ownEntry i) (s.maxIdleTime.toNat - 1) := (hat _).2 (.inr (by omega))
  have hother : ∀ j, j ≠ i → Seated (ownEntry j) w ∧ Shift (ownEntry j) s.wheel w :=
    fun j hj => (h.seated j).insert_shift (fun heq => hj (ownEntry_inj heq).symm) hw
  refine ⟨w, hw, hseated.owns_iff.2 (.inl ⟨_, hlast⟩), ⟨?_, ?_, h.short, h.closes⟩, ?_⟩
  · intro j
    by_cases hj : j = i
    · rw [hj]
      exact hseated
    · exact (hother j hj).1
  · intro j hj
    have hne : j ≠ i := (lt_of_lt_of_le hi hj).ne'
    have hno := h.fresh j hj
    rw [← Bool.not_eq_true] at hno ⊢
    exact fun hown => hno ((hother j hne).2.owns (h.seated j) (hother j hne).1 hown)
  · intro hopen j hj hown
    by_cases hji : j = i
    -- the entry itself is due at the end of the limit
    · subst hji
      refine .inr ⟨_, hlast, ?_⟩
      simp only
      omega
    · have hown' := (hother j hji).2.owns (h.seated j) (hother j hji).1 hown
      obtain ⟨k, hk, hle⟩ := (hearlier hopen j hj hji).heldAt hown'
      refine HeldUntil.shift (w := s.wheel) (.inr ⟨k, hk, ?_⟩) (hother j hji).2
      simp only
      omega

theorem Governed.enable (h : Governed s) {maxTime : BitVec 32} (h1 : 1 ≤ maxTime.toNat)
    (h59 : maxTime.toNat ≤ 59) (hearlier : s.EarlierOutlive (.enableCheckIdleTimeout maxTime))
    (ht : s.enableCheckIdleTimeout maxTime = some t) : Governed t := by
  have hplaced : Placed { s with
      made := s.made + 1, maxIdleTime := maxTime, lastActive := s.wheel.ticks } :=
    ⟨h.seated, fun i hi => h.fresh i (Nat.le_of_succ_le hi), ⟨h1, h59⟩, h.closes⟩
  obtain ⟨w, hw, hown, hgoverned⟩ := hplaced.insert (i := s.made) (Nat.lt_succ_self _) rfl
    fun hopen j hj hne => hearlier hopen j (by simp only at hj; omega)
  simp only at hw hgoverned
  unfold EnableRun.enableCheckIdleTimeout at ht
  rw [hw, Option.map_some] at ht
  unfold release at ht
  simp only [hown, if_true] at ht
  cases ht
  exact hgoverned

/-- Activity inserts the entry of the last call. -/
theorem Governed.active (h : Governed s) (hearlier : s.EarlierOutlive .onRead)
    (ht : s.active = some t) : Governed t := by
  unfold EnableRun.active at ht
  by_cases hclosed : s.isClosed = true
  · rw [if_pos hclosed] at ht
    cases ht
    exact h
  rw [if_neg hclosed] at ht
  rw [Bool.not_eq_true] at hclosed
  unfold extendLife at ht
  simp only at ht
  have hplaced : Placed { s with lastActive := s.wheel.ticks } :=
    ⟨h.seated, h.fresh, h.short, h.closes⟩
  by_cases hlock : 0 < s.made ∧ s.wheel.owns (ownEntry (s.made - 1)) = true
  · rw [if_pos hlock] at ht
    obtain ⟨w, hw, -, hgoverned⟩ := hplaced.insert (i := s.made - 1) (Nat.sub_lt hlock.1 one_pos)
      rfl fun hopen j hj hne => hearlier hopen j (by simp only at hj; omega)
    simp only at hw
    rw [hw, Option.map_some] at ht
    cases ht
    exact hgoverned
  · rw [if_neg hlock] at ht
    cases ht
    refine ⟨hplaced, ?_⟩
    intro hopen i hi hown
    simp only at hi hown
    -- what is held is an earlier entry
    have hne : i + 1 ≠ s.made := by
      rintro hmade
      rw [← hmade] at hlock
      exact hlock ⟨Nat.succ_pos i, hown⟩
    obtain ⟨k, hk, hle⟩ := Outlives.heldAt (hearlier hopen i (by omega)) hown
    refine .inr ⟨k, hk, ?_⟩
    simp only
    omega

/-- The last reference to an entry is gone: its limit is over. -/
theorem Governed.onTimeout (h : Governed s)
    (hover : s.isClosed = false → s.lastActive + s.maxIdleTime.toNat ≤ s.wheel.ticks) :
    Governed s.onTimeout := by
  unfold EnableRun.onTimeout
  by_cases hclosed : s.isClosed = true
  · rw [if_pos hclosed]
    exact h
  rw [if_neg hclosed]
  rw [Bool.not_eq_true] at hclosed
  refine ⟨⟨h.seated, h.fresh, h.short, ?_⟩, fun hopen => by cases hopen⟩
  intro c hc
  rcases List.mem_append.1 hc with hc | hc
  · exact h.closes c hc
  · rw [List.mem_singleton.1 hc]
    exact hover hclosed

theorem ownEntry_half (hodd : entry % 2 = 1) : ownEntry (entry / 2) = entry := by
  unfold ownEntry
  omega

theorem Governed.drop (h : Governed s) (ht : s.drop i = some t) : Governed t := by
  obtain ⟨p, hp, ht⟩ := Option.bind_eq_some_iff.1 ht
  obtain ⟨t', ht', rfl⟩ := Option.map_eq_some_iff.1 ht
  obtain ⟨w, hw, rfl⟩ := Option.map_eq_some_iff.1 ht'
  have hshift : ∀ i, Seated (ownEntry i) w ∧ Shift (ownEntry i) s.wheel w :=
    fun i => step_shift (h.seated i) (fun _ he => by cases he) hw
  have hgoverned := h.shift hshift
  rcases he : p.entry? with _ | entry
  · exact hgoverned
  simp only [release]
  by_cases hown : w.owns entry = true
  · rw [if_pos hown]
    exact hgoverned
  rw [if_neg hown]
  by_cases hmine : entry % 2 = 1 ∧ entry / 2 < s.made
  · rw [if_pos hmine]
    refine hgoverned.onTimeout ?_
    intro hopen
    have heq := ownEntry_half hmine.1
    -- the reference that is dropped has been one to this entry
    have hheld : s.wheel.owns (ownEntry (entry / 2)) = true := by
      rw [← Bool.not_eq_false, owns_eq_false_iff, heq]
      rintro ⟨-, hnil⟩
      exact refs_eq_nil_iff.1 hnil p (List.mem_of_getElem? hp) he
    have hlasts := (h.lasts hopen _ hmine.2 hheld).shift (hshift _).2
    rw [Bool.not_eq_true] at hown
    exact hlasts.le_of_not_owns (hshift _).1 (by rw [heq]; exact hown)
  · rw [if_neg hmine]
    exact hgoverned

theorem Governed.wheelStep (h : Governed s) {e : WheelEvent}
    (he : ∀ delay i, e ≠ .insert delay (ownEntry i)) (ht : s.wheelStep e = some t) :
    Governed t := by
  obtain ⟨w, hw, rfl⟩ := Option.map_eq_some_iff.1 ht
  exact h.shift fun i => step_shift (h.seated i) (fun delay => he delay i) hw

theorem Governed.step (h : Governed s) {e : EnableEvent} (he : e.Short)
    (hearlier : s.EarlierOutlive e) (ht : s.step e = some t) : Governed t := by
  cases e with
  | enableCheckIdleTimeout maxTime => exact h.enable he.1 he.2 hearlier ht
  | onRead => exact h.active hearlier ht
  | onWrite => exact h.active hearlier ht
  | onClose =>
    cases ht
    exact ⟨⟨h.seated, h.fresh, h.short, h.closes⟩, fun hopen => by cases hopen⟩
  | insertEntry delay entry =>
    refine h.wheelStep (e := .insert delay (foreignEntry entry)) ?_ ht
    intro delay' i heq
    exact foreignEntry_ne entry i (WheelEvent.insert.inj heq).2
  | onTimer now => exact h.wheelStep (e := .onTimer now) (fun _ _ he => by cases he) ht
  | drop i => exact h.drop ht
  | popUp => exact h.wheelStep (e := .popUp) (fun _ _ he => by cases he) ht

/-- **The last limit governs** a connection in whose run, at each call of `EnableCheckIdleTimeout`
and each activity while it is open, every entry of an earlier call that is still held is not due
before the limit is over: it is not timed out before the limit has passed since the last call or
activity. -/
theorem last_limit_governs {es : List EnableEvent} (hes : ∀ e ∈ es, e.Short)
    (hearlier : Meets EnableRun.step EarlierOutlive {} es) (h : run EnableRun.step {} es = some s) :
    ∀ c ∈ s.closes, c.lastActive + c.maxIdleTime.toNat ≤ c.tick :=
  (run_inv_of_meets Governed (fun _ _ _ hs he ht => hs.step he.2 he.1 ht) governed_new
    (hearlier.and (meets_of_forall hes)) h).closes

/-- A limit of three seconds, and behind a tick one of one second, which an activity prolongs. -/
def threeThenOne : List EnableEvent :=
  [.enableCheckIdleTimeout 3, .onTimer 1, .onTimer 1001, .enableCheckIdleTimeout 1, .onRead,
    .onTimer 2001, .drop 0]

theorem last_limit_governs_three : ∃ s, run EnableRun.step {} threeThenOne = some s ∧
    s.closes = [⟨2, 1, 1⟩] ∧ ∀ c ∈ s.closes, c.lastActive + c.maxIdleTime.toNat ≤ c.tick := by
  have hes : ∀ e ∈ threeThenOne, e.Short := by
    intro e he
    fin_cases he
    · exact ⟨by decide, by decide⟩
    · trivial
    · trivial
    · exact ⟨by decide, by decide⟩
    all_goals trivial
  have hrun : (run EnableRun.step {} threeThenOne).map EnableRun.closes = some [⟨2, 1, 1⟩] := by
    decide +kernel
  obtain ⟨s, hs, hcloses⟩ := Option.map_eq_some_iff.1 hrun
  exact ⟨s, hs, hcloses, last_limit_governs hes (by decide +kernel) hs⟩

/-- A limit of three seconds, and at once one of thirty. -/
def threeThenThirty : List EnableEvent :=
  [.enableCheckIdleTimeout 3, .enableCheckIdleTimeout 30, .onTimer 1, .onTimer 1001, .onTimer 2001,
    .onTimer 3001, .drop 0]

/-- The connection is timed out behind three seconds. -/
theorem earlier_limit_governs : ¬ ∀ (es : List EnableEvent) (s : EnableRun),
    (∀ e ∈ es, e.Short) → run EnableRun.step {} es = some s →
      ∀ c ∈ s.closes, c.lastActive + c.maxIdleTime.toNat ≤ c.tick := by
  intro h
  have hes : ∀ e ∈ threeThenThirty, e.Short := by
    intro e he
    fin_cases he
    · exact ⟨by decide, by decide⟩
    · exact ⟨by decide, by decide⟩
    all_goals trivial
  have hrun : (run EnableRun.step {} threeThenThirty).map EnableRun.closes = some [⟨3, 0, 30⟩] := by
    decide +kernel
  obtain ⟨s, hs, hcloses⟩ := Option.map_eq_some_iff.1 hrun
  have hlate := h _ s hes hs ⟨3, 0, 30⟩ (by rw [hcloses]; exact List.mem_singleton_self _)
  revert hlate
  decide

end EnableRun

end HttpNest
