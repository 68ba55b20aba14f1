import HttpNest.Proof.References
import HttpNest.Proof.Timers

/-!
# An entry that goes through the minute wheel

A delay from a minute to an hour puts a closure into the minute wheel, which holds the entry and
its remaining seconds. The closure is released in the full minute that its slot counts, and puts
the entry into the seconds wheel; where no seconds remain this insertion is undefined.

`Way` says how far the entry has come, and `Way.step` that every step but an insertion of the entry
itself goes on with it: the entry is destroyed in the remaining seconds behind the full minute, and
in no other tick.
-/

namespace HttpNest

open EventRun TimingWheel

variable {w w' : TimingWheel} {s t : WheelRun} {entry second k n i : ℕ}

/-- The wheels have the number of slots that the constructor gives them. -/
def TimingWheel.size : TimingType → ℕ
  | .kTimingTypeSecond => 60
  | .kTimingTypeMinute => 60
  | .kTimingTypeHour => 24
  | .kTimingTypeDay => 30

def Slotted (s : WheelRun) : Prop := ∀ type, (s.wheel.wheels type).length = size type

theorem slotted_new : Slotted {} := by
  intro type
  cases type <;> rfl

theorem Slotted.step (h : Slotted s) {e : WheelEvent} (hs : s.step e = some t) : Slotted t :=
  fun type => (length_step hs type).trans (h type)

theorem Slotted.insert (h : Slotted s) {delay : BitVec 32} (hs : s.insert delay entry = some t) :
    Slotted t :=
  h.step (e := .insert delay entry) hs

/-- A tick that pops the minute wheel, for the `k`-th time. -/
structure MinuteTick (k n : ℕ) : Prop where
  count : minutes n = k
  pos : 0 < n
  full : n % 2 ^ 64 % 60 = 0

theorem MinuteTick.unique {n' : ℕ} (h : MinuteTick k n) (h' : MinuteTick k n') : n = n' := by
  have hcount := h.count.trans h'.count.symm
  have hfull := h.full
  have hfull' := h'.full
  have hpos := h.pos
  have hpos' := h'.pos
  unfold minutes at hcount
  omega

/-! ## Insertions -/

/-- Nothing can be inserted without a delay. -/
theorem insertEntry_zero (h : (w.wheels .kTimingTypeSecond).length = 60) :
    w.insertEntry 0 entry = none := by
  have hlarge : ¬ ((0 : BitVec 32) - 1).toNat < (w.wheels .kTimingTypeSecond).length := by
    rw [h]
    decide
  unfold TimingWheel.insertEntry insertSecondEntry emplaceAt
  rw [if_pos (by decide), if_neg hlarge]

/-- A delay from a minute to an hour puts a closure into the minute wheel. -/
theorem insertEntry_minutes {delay : BitVec 32} (h60 : 60 ≤ delay.toNat)
    (h3600 : delay.toNat < 3600) : w.insertEntry delay entry = w.emplaceAt .kTimingTypeMinute
      (delay.toNat / 60 - 1) (.callback (delay.toNat % 60) entry) := by
  have hminute : kTimingMinute = 60 := rfl
  have hhour : kTimingHour = 3600 := rfl
  unfold TimingWheel.insertEntry
  rw [if_neg (by omega), if_pos (by omega)]
  rfl

theorem refs_cons_self (slot : WheelEntry) :
    WheelEntry.refs (.callback second entry :: slot) entry =
      .callback second entry :: slot.refs entry :=
  List.filter_cons_of_pos (decide_eq_true rfl)

/-- Without references the entry can be put into the seconds wheel. -/
theorem seated_of_refs (hs : Slotted s) (hwheels : ∀ type i, s.wheel.refsAt entry type i = [])
    (hreleased : s.released.refs entry = []) (hnext : s.next ≠ some .kTimingTypeSecond) :
    Seated entry s := by
  refine ⟨hs .kTimingTypeSecond, ?_, ?_, hnext⟩
  · intro type slot hslot p hp he
    exact absurd he (refsAt_eq_nil_iff.1 hwheels type slot hslot p hp)
  · intro p hp he
    exact absurd he (refs_eq_nil_iff.1 hreleased p hp)

theorem Counted.next_ne (h : Counted s) : s.next ≠ some .kTimingTypeSecond := by
  rcases h.next with hn | ⟨hn, -⟩ <;> rw [hn] <;> decide

/-! ## The way of an entry -/

/-- The closure of the entry is in the minute wheel and goes when this is popped for the `k`-th
time; or it is being dropped then; or the entry is in the seconds wheel. -/
inductive Way (entry second k : ℕ) (s : WheelRun) : Prop
  | minute (j : ℕ) : s.pops .kTimingTypeMinute + j + 1 = k →
    (∀ type i, s.wheel.refsAt entry type i =
      if type = .kTimingTypeMinute ∧ i = j then [.callback second entry] else []) →
    s.released.refs entry = [] → Way entry second k s
  | released : MinuteTick k s.ticks → (∀ type i, s.wheel.refsAt entry type i = []) →
    s.released.refs entry = [.callback second entry] → Way entry second k s
  | seconds (n : ℕ) : MinuteTick k n → 1 ≤ second → Seated entry s →
    DueAt entry s (n + second) → Way entry second k s

theorem Way.owns (h : Way entry second k s) : s.owns entry = true := by
  rw [← Bool.not_eq_false, owns_eq_false_iff]
  rintro ⟨hwheels, hreleased⟩
  cases h with
  | minute j _ hat _ =>
    have hnil := hwheels .kTimingTypeMinute j
    rw [hat, if_pos ⟨rfl, rfl⟩] at hnil
    cases hnil
  | released _ _ hrel =>
    rw [hreleased] at hrel
    cases hrel
  | seconds n _ _ hseated hdue =>
    have hown := hdue.owns hseated
    rw [owns_eq_false_iff.2 ⟨hwheels, hreleased⟩] at hown
    cases hown

/-- **The way starts in the slot of the minutes.** -/
theorem insert_way (hs : Slotted s) (hno : s.owns entry = false) {delay : BitVec 32}
    (h60 : 60 ≤ delay.toNat) (h3600 : delay.toNat < 3600) : ∃ t, s.insert delay entry = some t ∧
      t.ticks = s.ticks ∧
        Way entry (delay.toNat % 60) (s.pops .kTimingTypeMinute + delay.toNat / 60) t := by
  obtain ⟨hwheels, hreleased⟩ := owns_eq_false_iff.1 hno
  obtain ⟨w, hw⟩ : ∃ w, s.wheel.emplaceAt .kTimingTypeMinute (delay.toNat / 60 - 1)
      (.callback (delay.toNat % 60) entry) = some w := by
    have hlen : (s.wheel.wheels .kTimingTypeMinute).length = 60 := hs .kTimingTypeMinute
    unfold TimingWheel.emplaceAt
    rw [if_pos (by omega)]
    exact ⟨_, rfl⟩
  have hinsert : s.insert delay entry = some { s with
      wheel := w
      accepted := if Supported delay then (delay, entry) :: s.accepted else s.accepted } := by
    rw [WheelRun.insert, insertEntry_minutes h60 h3600, hw]
    rfl
  refine ⟨_, hinsert, rfl, .minute (delay.toNat / 60 - 1) ?_ ?_ hreleased⟩
  · simp only
    omega
  · intro type i
    have hnil := hwheels type i
    unfold refsAt at hnil ⊢
    rw [getD_emplaceAt hw]
    by_cases hslot : type = .kTimingTypeMinute ∧ i = delay.toNat / 60 - 1
    · obtain ⟨rfl, rfl⟩ := hslot
      rw [if_pos ⟨rfl, rfl⟩, if_pos ⟨rfl, rfl⟩]
      refine (refs_cons_self _).trans ?_
      rw [hnil]
    · rw [if_neg hslot, if_neg hslot, hnil]

/-- A closure has its place in the minute wheel, and moves up when this is popped. -/
theorem minute_step {j : ℕ} (hc : Counted s) (hk : s.pops .kTimingTypeMinute + j + 1 = k)
    (hwheels : ∀ type i, s.wheel.refsAt entry type i =
      if type = .kTimingTypeMinute ∧ i = j then [.callback second entry] else [])
    (hreleased : s.released.refs entry = []) (h : Carried entry s t) : Way entry second k t := by
  cases h with
  | still hsame hrel hticks hnext hpops =>
    refine .minute j (by rw [hpops]; exact hk) ?_ (hrel.trans hreleased)
    intro type i
    rw [hsame, hwheels]
  | tick _ _ hpops hpop =>
    refine .minute j (by rw [hpops]; exact hk) ?_ ?_
    · intro type i
      by_cases htype : type = .kTimingTypeSecond
      · subst htype
        rw [hpop.self, hwheels, if_neg (by simp), if_neg (by simp)]
      · rw [hpop.other type htype, hwheels]
    · rw [hpop.released, hwheels, if_neg (by simp)]
  | pop hrel hnext hticks _ hself hpop =>
    have hcount := hc.pops
    rcases hc.next with hno | ⟨hminute, hpos, hfull⟩
    · rw [hnext] at hno
      cases hno
    obtain rfl : _ = TimingType.kTimingTypeMinute := Option.some.inj (hnext.symm.trans hminute)
    rw [hminute, if_pos rfl] at hcount
    have hother : ∀ type, type ≠ .kTimingTypeMinute → ∀ i, t.wheel.refsAt entry type i = [] := by
      intro type htype i
      rw [hpop.other type htype, hwheels, if_neg fun hc => htype hc.1]
    rcases j with _ | j
    -- the first slot is released
    · refine .released ⟨by rw [hticks]; omega, by rw [hticks]; exact hpos,
        by rw [hticks]; exact hfull⟩ ?_ (by rw [hpop.released, hwheels, if_pos ⟨rfl, rfl⟩])
      intro type i
      by_cases htype : type = .kTimingTypeMinute
      · subst htype
        rw [hpop.self, hwheels, if_neg (by simp)]
      · exact hother type htype i
    · refine .minute j (by omega) ?_ (by rw [hpop.released, hwheels, if_neg (by simp)])
      intro type i
      by_cases htype : type = .kTimingTypeMinute
      · subst htype
        rw [hpop.self, hwheels]
        simp only [Nat.succ_inj]
      · rw [hother type htype, if_neg fun hc => htype hc.1]

/-- The only reference to an entry is dropped. -/
theorem refs_eraseIdx_self {slot : WheelEntry} (h : slot.refs entry = [.callback second entry])
    (hi : slot[i]? = some (.callback second entry)) :
    WheelEntry.refs (slot.eraseIdx i) entry = [] := by
  obtain ⟨hlt, hget⟩ := List.getElem?_eq_some_iff.1 hi
  have hsplit : slot = slot.take i ++ .callback second entry :: slot.drop (i + 1) := by
    rw [← hget]
    simp
  rw [hsplit, refs_append, refs_cons_self, List.append_eq_singleton_iff] at h
  rw [List.eraseIdx_eq_take_drop_succ, refs_append]
  rcases h with ⟨hleft, hright⟩ | ⟨-, hright⟩
  · rw [hleft, (List.cons.inj hright).2, List.nil_append]
  · cases hright

/-- **The closure puts the entry into the seconds wheel**, if a second remains. -/
theorem enter_seconds (hs : Slotted s) (hc : Counted s) (h59 : second ≤ 59)
    (hn : MinuteTick k s.ticks) (hwheels : ∀ type i, s.wheel.refsAt entry type i = [])
    (hreleased : s.released.refs entry = [.callback second entry])
    (hi : s.released[i]? = some (.callback second entry)) :
    (1 ≤ second → (s.step (.drop i)).isSome) ∧
      ∀ t, s.step (.drop i) = some t → Way entry second k t := by
  have hdelay : (BitVec.ofNat 32 second).toNat = second := by
    rw [BitVec.toNat_ofNat, Nat.mod_eq_of_lt (by omega)]
  have hseated : Seated entry { s with released := s.released.eraseIdx i } :=
    seated_of_refs hs hwheels (refs_eraseIdx_self hreleased hi) hc.next_ne
  -- the seconds wheel does not hold the entry yet
  have hearly : ∀ j, HeldAt s.wheel entry j → s.ticks + j + 1 ≤ s.ticks + second := by
    rintro j ⟨slot, hslot, hmem⟩
    exact absurd rfl (refsAt_eq_nil_iff.1 hwheels _ slot (List.mem_of_getElem? hslot) _ hmem)
  have hstep : s.step (.drop i) =
      { s with released := s.released.eraseIdx i }.insert (BitVec.ofNat 32 second) entry := by
    simp only [WheelRun.step]
    rw [hi]
  rw [hstep]
  rcases Nat.eq_zero_or_pos second with rfl | hone
  · have hnone : { s with released := s.released.eraseIdx i }.insert (BitVec.ofNat 32 0) entry =
        none := by
      unfold WheelRun.insert
      rw [Option.map_eq_none_iff]
      exact insertEntry_zero (hs .kTimingTypeSecond)
    rw [hnone]
    exact ⟨fun h => absurd h (by decide), fun t ht => by cases ht⟩
  · have hlimit : s.ticks + second = s.ticks + (BitVec.ofNat 32 second).toNat := by rw [hdelay]
    obtain ⟨t, ht, hseated', hticks, hdue⟩ := DueAt.insert_self hseated hearly
      (by rw [hdelay]; exact hone) (by rw [hdelay]; exact h59) hlimit
    rw [ht]
    refine ⟨fun _ => rfl, ?_⟩
    intro t' ht'
    cases ht'
    exact .seconds s.ticks hn hone hseated' hdue

/-- **Every step goes on with the way of the entry**, to the tick in which its last reference is
dropped. -/
theorem Way.step (h : Way entry second k s) (hs : Slotted s) (hc : Counted s)
    (h59 : second ≤ 59) {e : WheelEvent} (hinsert : ∀ delay, e ≠ .insert delay entry)
    (ht : s.step e = some t) : Way entry second k t ∨
      t.owns entry = false ∧ ∃ n, MinuteTick k n ∧ 1 ≤ second ∧ t.ticks = n + second := by
  cases h with
  | minute j hk hwheels hreleased =>
    refine .inl (minute_step hc hk hwheels hreleased (step_carried hinsert ?_ ht))
    intro i p _ hp
    exact refs_eq_nil_iff.1 hreleased p (List.mem_of_getElem? hp)
  | released hn hwheels hreleased =>
    by_cases hdrop : ∃ i p, e = .drop i ∧ s.released[i]? = some p ∧ p.entry? = some entry
    · obtain ⟨i, p, rfl, hp, he⟩ := hdrop
      have hmem : p ∈ s.released.refs entry := mem_refs.2 ⟨List.mem_of_getElem? hp, he⟩
      rw [hreleased, List.mem_singleton] at hmem
      subst hmem
      exact .inl ((enter_seconds hs hc h59 hn hwheels hreleased hp).2 t ht)
    · have hcarried := step_carried hinsert
        (fun i p he hp hentry => hdrop ⟨i, p, he, hp, hentry⟩) ht
      -- no wheel is popped while the closure is being dropped
      have hne : s.released ≠ [] := by
        intro hnil
        rw [hnil, refs_nil] at hreleased
        cases hreleased
      cases hcarried with
      | still hsame hrel hticks _ _ =>
        exact .inl (.released (by rw [hticks]; exact hn) (fun type i => (hsame type i).trans
          (hwheels type i)) (hrel.trans hreleased))
      | tick hnil _ _ _ => exact absurd hnil hne
      | pop hnil _ _ _ _ _ => exact absurd hnil hne
  | seconds n hn hone hseated hdue =>
    obtain ⟨hseated', hshift⟩ := step_shift hseated hinsert ht
    rcases hdue.shift hseated' hshift with hdue' | ⟨hno, hlimit⟩
    · exact .inl (.seconds n hn hone hseated' hdue')
    · exact .inr ⟨hno, n, hn, hone, hlimit⟩

/-- While the entry is on its way, the remaining seconds are not over. -/
theorem Way.not_over (h : Way entry second k s) (hc : Counted s) (hn : MinuteTick k n)
    (hone : 1 ≤ second) :
    ¬ (n + second < s.ticks ∨ n + second = s.ticks ∧ s.Idle) := by
  intro hover
  have hle : n + second ≤ s.ticks := by
    rcases hover with hlt | ⟨heq, -⟩
    · exact hlt.le
    · exact heq.le
  cases h with
  | minute j hk _ _ =>
    have hcount := hc.pops
    have hmono : minutes n ≤ minutes s.ticks := by
      unfold minutes
      omega
    rw [hn.count] at hmono
    -- the minute wheel is popped for the `k`-th time in this tick
    rcases hc.next with hno | ⟨hminute, hpos, hfull⟩
    · rw [hno, if_neg (by decide)] at hcount
      omega
    · rw [hminute, if_pos rfl] at hcount
      have := hn.unique ⟨by omega, hpos, hfull⟩
      omega
  | released hn' _ _ =>
    have := hn.unique hn'
    omega
  | seconds n' hn' _ hseated hdue =>
    rw [← hn.unique hn'] at hdue
    rcases hover with hlt | ⟨heq, hidle⟩
    · have := hdue.le
      omega
    · have := hdue.lt_of_idle hidle
      omega

end HttpNest
