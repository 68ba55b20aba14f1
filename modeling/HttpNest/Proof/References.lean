import HttpNest.Proof.SecondsWheel

/-!
# The references to an entry

`refsAt` lists the references to an entry in a slot, of any wheel. A step that neither inserts the
entry nor drops a reference to it leaves them in their slots, or moves them up by one slot in the
wheel that it pops (`Carried`, `step_carried`). In particular an entry without references gets none
(`step_not_owns`).

`minutes` counts the multiples of a minute that `tick_` passes, up to its overflow: in every run
the minute wheel has been popped so often (`Counted`).
-/

namespace HttpNest

open EventRun TimingWheel

/-- The references to an entry in a slot. -/
def WheelEntry.refs (slot : WheelEntry) (entry : ℕ) : List EntryPtr :=
  slot.filter fun p => p.entry? = some entry

/-- The references to an entry in slot `i` of a wheel. -/
def TimingWheel.refsAt (w : TimingWheel) (entry : ℕ) (type : TimingType) (i : ℕ) :
    List EntryPtr :=
  ((w.wheels type).getD i []).refs entry

variable {w w' : TimingWheel} {s t : WheelRun} {entry i j : ℕ} {p : EntryPtr}

theorem refs_nil : WheelEntry.refs [] entry = [] := rfl

theorem refs_append (slot slot' : WheelEntry) :
    WheelEntry.refs (slot ++ slot') entry = slot.refs entry ++ slot'.refs entry :=
  List.filter_append ..

theorem refs_cons (hp : p.entry? ≠ some entry) (slot : WheelEntry) :
    WheelEntry.refs (p :: slot) entry = slot.refs entry :=
  List.filter_cons_of_neg (by simpa using hp)

theorem mem_refs {slot : WheelEntry} :
    p ∈ slot.refs entry ↔ p ∈ slot ∧ p.entry? = some entry := by
  unfold WheelEntry.refs
  rw [List.mem_filter, decide_eq_true_iff]

/-! ## Who owns an entry -/

theorem refsAt_eq_nil_iff : (∀ type i, w.refsAt entry type i = []) ↔
    ∀ type, ∀ slot ∈ w.wheels type, ∀ p ∈ slot, p.entry? ≠ some entry := by
  constructor
  · intro h type slot hslot p hp he
    obtain ⟨i, hi⟩ := List.getElem?_of_mem hslot
    have hmem : p ∈ w.refsAt entry type i := by
      unfold refsAt
      rw [List.getD_eq_getElem?_getD, hi]
      exact mem_refs.2 ⟨hp, he⟩
    rw [h type i] at hmem
    cases hmem
  · intro h type i
    unfold refsAt
    rw [List.eq_nil_iff_forall_not_mem]
    intro p hp
    obtain ⟨hp, he⟩ := mem_refs.1 hp
    rw [List.getD_eq_getElem?_getD] at hp
    rcases hi : (w.wheels type)[i]? with _ | slot <;> rw [hi] at hp
    · cases hp
    · exact h type slot (List.mem_of_getElem? hi) p hp he

theorem refs_eq_nil_iff {slot : WheelEntry} :
    slot.refs entry = [] ↔ ∀ p ∈ slot, p.entry? ≠ some entry := by
  unfold WheelEntry.refs
  rw [List.filter_eq_nil_iff]
  simp

/-- An entry is not owned where there is no reference to it. -/
theorem owns_eq_false_iff : s.owns entry = false ↔
    (∀ type i, s.wheel.refsAt entry type i = []) ∧ s.released.refs entry = [] := by
  rw [refsAt_eq_nil_iff, refs_eq_nil_iff]
  unfold WheelRun.owns
  rw [Bool.or_eq_false_iff, List.any_eq_false, List.any_eq_false]
  refine and_congr ⟨?_, ?_⟩ (by simp)
  · intro h type slot hslot p hp he
    refine h type (by cases type <;> decide) ?_
    exact List.any_eq_true.2 ⟨slot, hslot, List.any_eq_true.2 ⟨p, hp, decide_eq_true he⟩⟩
  · intro h type _ hany
    obtain ⟨slot, hslot, hany⟩ := List.any_eq_true.1 hany
    obtain ⟨p, hp, he⟩ := List.any_eq_true.1 hany
    exact h type slot hslot p hp (of_decide_eq_true he)

/-! ## Insertions -/

/-- A reference to another entry. -/
theorem refs_emplace (hp : p.entry? ≠ some entry) (slot : WheelEntry) :
    (slot.emplace p).refs entry = slot.refs entry := by
  have hinsert : WheelEntry.refs (List.insert p slot) entry = slot.refs entry := by
    by_cases hmem : p ∈ slot
    · rw [List.insert_of_mem hmem]
    · rw [List.insert_of_not_mem hmem, refs_cons hp]
  cases p with
  | null | user e => exact hinsert
  | callback second e => exact refs_cons hp slot

/-- What an insertion does to the slots. -/
theorem getD_emplaceAt {type type' : TimingType} (h : w.emplaceAt type i p = some w') :
    (w'.wheels type').getD j [] = if type' = type ∧ j = i then
      WheelEntry.emplace ((w.wheels type).getD i []) p else (w.wheels type').getD j [] := by
  obtain ⟨hi, -, heq⟩ := emplaceAt_eq h
  rw [heq]
  by_cases htype : type' = type
  · subst htype
    rw [Function.update_self, List.getD_eq_getElem?_getD, List.getElem?_modify]
    by_cases hij : i = j
    · subst hij
      rw [if_pos ⟨rfl, rfl⟩, List.getElem?_eq_getElem hi, List.getD_eq_getElem _ _ hi]
      simp
    · rw [if_neg fun hc => hij hc.2.symm, List.getD_eq_getElem?_getD]
      simp [hij]
  · rw [Function.update_of_ne htype, if_neg fun hc => htype hc.1]

theorem refsAt_emplaceAt {type : TimingType} (h : w.emplaceAt type i p = some w')
    (hp : p.entry? ≠ some entry) (type' : TimingType) (j : ℕ) :
    w'.refsAt entry type' j = w.refsAt entry type' j := by
  unfold refsAt
  rw [getD_emplaceAt h]
  by_cases hslot : type' = type ∧ j = i
  · obtain ⟨rfl, rfl⟩ := hslot
    rw [if_pos ⟨rfl, rfl⟩, refs_emplace hp]
  · rw [if_neg hslot]

/-- An insertion of another entry. -/
theorem refsAt_insertEntry {delay : BitVec 32} {e : ℕ} (h : w.insertEntry delay e = some w')
    (he : e ≠ entry) (type : TimingType) (i : ℕ) :
    w'.refsAt entry type i = w.refsAt entry type i := by
  rcases insertEntry_cases h with ⟨type', j, p, hp, hentry, -⟩ | ⟨-, rfl⟩
  · exact refsAt_emplaceAt hp (fun hp => he (hentry _ hp).symm) type i
  · rfl

/-! ## Steps -/

/-- A wheel has been popped: its first slot is released, and the others move up. -/
structure Popped (entry : ℕ) (type : TimingType) (s t : WheelRun) : Prop where
  released : t.released.refs entry = s.wheel.refsAt entry type 0
  self : ∀ i, t.wheel.refsAt entry type i = s.wheel.refsAt entry type (i + 1)
  other : ∀ type', type' ≠ type → ∀ i,
    t.wheel.refsAt entry type' i = s.wheel.refsAt entry type' i

theorem pop_popped {type : TimingType} {next : Option TimingType} (h : s.pop type next = some t) :
    Popped entry type s t := by
  obtain ⟨rest, hfront, hw⟩ := popUp_front (pop_eq h).1
  refine ⟨?_, fun i => ?_, fun type' hne i => ?_⟩
  · unfold refsAt
    rw [hfront, List.getD_cons_zero]
  · unfold refsAt
    rw [hfront, hw, List.getD_cons_succ]
    simp only [Function.update_self]
    rcases lt_or_ge i rest.length with hi | hi
    · rw [List.getD_append _ _ _ _ hi]
    · -- the slot at the end is new
      rw [List.getD_append_right _ _ _ _ hi, List.getD_eq_default _ _ hi]
      rcases i - rest.length with _ | k <;> rfl
  · unfold refsAt
    rw [hw]
    simp only [Function.update_of_ne hne]

/-- What a step does that neither inserts the entry nor drops a reference to it: nothing; or it
pops the seconds, or the next wheel. -/
inductive Carried (entry : ℕ) (s t : WheelRun) : Prop
  | still : (∀ type i, t.wheel.refsAt entry type i = s.wheel.refsAt entry type i) →
    t.released.refs entry = s.released.refs entry → t.ticks = s.ticks → t.next = s.next →
    t.pops = s.pops → Carried entry s t
  | tick : s.released = [] → t.ticks = s.ticks + 1 →
    t.pops .kTimingTypeMinute = s.pops .kTimingTypeMinute → Popped entry .kTimingTypeSecond s t →
    Carried entry s t
  | pop {type : TimingType} : s.released = [] → s.next = some type → t.ticks = s.ticks →
    t.next = none → t.pops type = s.pops type + 1 → Popped entry type s t → Carried entry s t

theorem insert_carried {delay : BitVec 32} {e : ℕ} (h : s.insert delay e = some t)
    (he : e ≠ entry) : Carried entry s t := by
  obtain ⟨w, hw, rfl⟩ := Option.map_eq_some_iff.1 h
  exact .still (refsAt_insertEntry hw he) rfl rfl rfl rfl

/-- Another reference is dropped. -/
theorem refs_eraseIdx {slot : WheelEntry} (hp : slot[i]? = some p) (he : p.entry? ≠ some entry) :
    WheelEntry.refs (slot.eraseIdx i) entry = slot.refs entry := by
  obtain ⟨hi, rfl⟩ := List.getElem?_eq_some_iff.1 hp
  have hsplit : slot = slot.take i ++ slot[i] :: slot.drop (i + 1) := by simp
  conv_rhs => rw [hsplit]
  rw [List.eraseIdx_eq_take_drop_succ, refs_append, refs_append, refs_cons he]

/-- **A step that does not concern the entry carries its references along.** -/
theorem step_carried {e : WheelEvent} (hinsert : ∀ delay, e ≠ .insert delay entry)
    (hdrop : ∀ i p, e = .drop i → s.released[i]? = some p → p.entry? ≠ some entry)
    (h : s.step e = some t) : Carried entry s t := by
  cases e with
  | insert delay e => exact insert_carried h fun he => hinsert delay (by rw [he])
  | onTimer now =>
    obtain ⟨hidle, ⟨ts, rfl⟩ | h⟩ := WheelRun.step_onTimer h
    · exact .still (fun _ _ => rfl) rfl rfl rfl rfl
    · have hpop : Popped entry .kTimingTypeSecond _ t := pop_popped h
      obtain ⟨-, -, hticks, -, -, hpops⟩ := pop_eq h
      exact .tick hidle.1 hticks (hpops _ (by decide)) ⟨hpop.released, hpop.self, hpop.other⟩
  | popUp =>
    obtain ⟨type, hnil, hn, h⟩ := WheelRun.step_popUp h
    obtain ⟨-, hnext, hticks, -, hself, -⟩ := pop_eq h
    exact .pop hnil hn hticks hnext hself (pop_popped h)
  | drop i =>
    obtain ⟨p, hp, hcases⟩ := WheelRun.step_drop h
    have hrefs : WheelEntry.refs (s.released.eraseIdx i) entry = s.released.refs entry :=
      refs_eraseIdx hp (hdrop i p rfl hp)
    rcases hcases with ⟨-, rfl⟩ | ⟨second, e, rfl, h⟩
    · exact .still (fun _ _ => rfl) hrefs rfl rfl rfl
    · -- the closure inserts its own entry
      have he : e ≠ entry := by
        rintro rfl
        exact hdrop i _ rfl hp rfl
      obtain ⟨w, hw, rfl⟩ := Option.map_eq_some_iff.1 h
      exact .still (refsAt_insertEntry hw he) hrefs rfl rfl rfl

/-- Such a step leaves an owner. -/
theorem Carried.owns (h : Carried entry s t) (hs : s.owns entry = true) : t.owns entry = true := by
  by_contra hno
  rw [Bool.not_eq_true, owns_eq_false_iff] at hno
  obtain ⟨hwheels, hreleased⟩ := hno
  -- what is popped has been in the slot before, or is released
  have hpopped : ∀ type, s.released = [] → Popped entry type s t → s.owns entry = false := by
    intro type hnil hpop
    refine owns_eq_false_iff.2 ⟨fun type' i => ?_, by rw [hnil, refs_nil]⟩
    by_cases htype : type' = type
    · subst htype
      rcases i with _ | i
      · exact hpop.released.symm.trans hreleased
      · exact (hpop.self i).symm.trans (hwheels _ _)
    · exact (hpop.other type' htype i).symm.trans (hwheels _ _)
  have hnone : s.owns entry = false := by
    cases h with
    | still hsame hrel _ _ _ =>
      exact owns_eq_false_iff.2 ⟨fun type i => (hsame type i).symm.trans (hwheels type i),
        hrel.symm.trans hreleased⟩
    | tick hnil _ _ hpop => exact hpopped _ hnil hpop
    | pop hnil _ _ _ _ hpop => exact hpopped _ hnil hpop
  rw [hs] at hnone
  cases hnone

/-- **Nobody makes a reference without a reference**, but an insertion. -/
theorem step_not_owns {e : WheelEvent} (hinsert : ∀ delay, e ≠ .insert delay entry)
    (hs : s.owns entry = false) (h : s.step e = some t) : t.owns entry = false := by
  rw [owns_eq_false_iff] at hs ⊢
  obtain ⟨hwheels, hreleased⟩ := hs
  have hcarried : Carried entry s t := by
    refine step_carried hinsert (fun i p _ hp he => ?_) h
    have hmem : p ∈ s.released.refs entry := mem_refs.2 ⟨List.mem_of_getElem? hp, he⟩
    rw [hreleased] at hmem
    cases hmem
  have hpopped : ∀ type, Popped entry type s t →
      (∀ type i, t.wheel.refsAt entry type i = []) ∧ t.released.refs entry = [] := by
    intro type hpop
    refine ⟨fun type' i => ?_, hpop.released.trans (hwheels _ _)⟩
    by_cases htype : type' = type
    · subst htype
      exact (hpop.self i).trans (hwheels _ _)
    · exact (hpop.other type' htype i).trans (hwheels _ _)
  cases hcarried with
  | still hsame hrel _ _ _ =>
    exact ⟨fun type i => (hsame type i).trans (hwheels type i), hrel.trans hreleased⟩
  | tick _ _ _ hpop => exact hpopped _ hpop
  | pop _ _ _ _ _ hpop => exact hpopped _ hpop

/-! ## Counting minutes -/

/-- The number of multiples of a minute among the first `n` values of `tick_`, which starts anew
behind `2^64 - 1`. -/
def minutes (n : ℕ) : ℕ := n / 2 ^ 64 * (2 ^ 64 / 60 + 1) + n % 2 ^ 64 / 60

theorem minutes_succ (n : ℕ) :
    minutes (n + 1) = minutes n + if (n + 1) % 2 ^ 64 % 60 = 0 then 1 else 0 := by
  unfold minutes
  split_ifs <;> omega

/-- In a minute there is one of them, at least. -/
theorem minutes_add_le (n m : ℕ) : minutes n + m ≤ minutes (n + 60 * m) := by
  unfold minutes
  omega

/-- `tick_` counts the ticks, and the minute wheel has been popped in each full minute, or is
popped next. -/
structure Counted (s : WheelRun) : Prop where
  tick : s.wheel.tick = s.ticks % 2 ^ 64
  next : s.next = none ∨ s.next = some .kTimingTypeMinute ∧ 0 < s.ticks ∧ s.ticks % 2 ^ 64 % 60 = 0
  pops : s.pops .kTimingTypeMinute + (if s.next = some .kTimingTypeMinute then 1 else 0) =
    minutes s.ticks

theorem counted_new : Counted {} := ⟨rfl, .inl rfl, rfl⟩

theorem Counted.move (h : Counted s) (hs : s.Move t) : Counted t := by
  cases hs with
  | insert ps hs =>
    obtain ⟨w, hw, rfl⟩ := Option.map_eq_some_iff.1 hs
    exact ⟨(tick_insertEntry hw).trans h.tick, h.next, h.pops⟩
  | keep ps ts => exact ⟨h.tick, h.next, h.pops⟩
  | tick hidle hwheels htick hs =>
    obtain ⟨hpop, hnext, hticks, -, -, hpops⟩ := pop_eq hs
    simp only at hpop hticks hpops
    have hw := (popUp_eq hpop).1
    rw [htick, h.tick, Nat.mod_add_mod] at hw
    have hold := h.pops
    rw [hidle.2, if_neg (by decide), Nat.add_zero] at hold
    rw [nextWheel_eq, htick, h.tick, Nat.mod_add_mod] at hnext
    refine ⟨by rw [hw, hticks], ?_, ?_⟩
    · rw [hnext, hticks]
      split_ifs with h60
      · exact .inr ⟨rfl, Nat.succ_pos _, h60⟩
      · exact .inl rfl
    · rw [hpops _ (by decide), hold, hticks, minutes_succ, hnext]
      by_cases h60 : (s.ticks + 1) % 2 ^ 64 % 60 = 0
      · rw [if_pos h60, if_pos rfl, if_pos h60]
      · rw [if_neg h60, if_neg (by decide), if_neg h60]
  | pop hn hs =>
    obtain ⟨hpop, hnext, hticks, -, hself, -⟩ := pop_eq hs
    rcases h.next with hno | ⟨hminute, -, -⟩
    · rw [hn] at hno
      cases hno
    · cases hn.symm.trans hminute
      have hold := h.pops
      rw [hminute, if_pos rfl] at hold
      refine ⟨by rw [(popUp_eq hpop).1, h.tick, hticks], .inl hnext, ?_⟩
      rw [hself, hnext, if_neg (by decide), hticks, Nat.add_zero]
      exact hold

theorem Counted.insert (h : Counted s) {delay : BitVec 32} (hs : s.insert delay entry = some t) :
    Counted t :=
  h.move (.insert s.released hs)

theorem Counted.step (h : Counted s) {e : WheelEvent} (hs : s.step e = some t) : Counted t :=
  h.move (WheelRun.step_move hs)

end HttpNest
