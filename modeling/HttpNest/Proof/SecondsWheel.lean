import HttpNest.Proof.TimingWheel
import HttpNest.Spec.IdleTimeout

/-!
# An entry in the seconds wheel

`HeldAt w entry i` says that slot `i` of the seconds wheel holds a reference to the entry: it is
released by tick `i + 1` from now. A step of the wheel that does not insert the entry moves these
slots by one at a tick and leaves them alone otherwise (`Shift`, `step_shift`).

So an entry whose references are all released by some tick, and one of them not before
(`DueAt`), is destroyed in that tick and not earlier.
-/

namespace HttpNest

open TimingWheel

variable {w w' : TimingWheel} {s t : WheelRun} {entry i : ℕ}

/-- Slot `i` of the seconds wheel holds a reference to the entry. -/
def HeldAt (w : TimingWheel) (entry i : ℕ) : Prop :=
  ∃ slot, (w.wheels .kTimingTypeSecond)[i]? = some slot ∧ .user entry ∈ slot

/-- A reference to the entry is being dropped. -/
def Dropping (s : WheelRun) (entry : ℕ) : Prop := .user entry ∈ s.released

/-- A wheel is popped when nothing is being dropped. -/
theorem not_dropping (h : s.released = []) : ¬ Dropping s entry := by
  unfold Dropping
  rw [h]
  exact List.not_mem_nil

/-- References to the entry are in the seconds wheel or released, and there are 60 seconds. -/
structure Seated (entry : ℕ) (s : WheelRun) : Prop where
  seconds : (s.wheel.wheels .kTimingTypeSecond).length = 60
  wheels : ∀ type, ∀ slot ∈ s.wheel.wheels type, ∀ p ∈ slot, p.entry? = some entry →
    type = .kTimingTypeSecond ∧ p = .user entry
  released : ∀ p ∈ s.released, p.entry? = some entry → p = .user entry
  next : s.next ≠ some .kTimingTypeSecond

theorem seated_new : Seated entry {} := by
  have hempty : ∀ type, ∀ slot ∈ TimingWheel.new.wheels type, slot = [] := by
    intro type slot hslot
    cases type <;> exact (List.mem_replicate.1 hslot).2
  refine ⟨rfl, ?_, ?_, by decide⟩
  · intro type slot hslot p hp
    rw [hempty type slot hslot] at hp
    cases hp
  · intro p hp
    cases hp

/-- The pointer is held where there is a reference. -/
theorem Seated.owns_iff (h : Seated entry s) :
    s.owns entry = true ↔ (∃ i, HeldAt s.wheel entry i) ∨ Dropping s entry := by
  unfold WheelRun.owns
  rw [Bool.or_eq_true, List.any_eq_true, List.any_eq_true]
  refine or_congr ⟨?_, ?_⟩ ⟨?_, ?_⟩
  · rintro ⟨type, -, hany⟩
    obtain ⟨slot, hslot, hany⟩ := List.any_eq_true.1 hany
    obtain ⟨p, hp, he⟩ := List.any_eq_true.1 hany
    obtain ⟨rfl, rfl⟩ := h.wheels type slot hslot p hp (of_decide_eq_true he)
    obtain ⟨i, hi⟩ := List.getElem?_of_mem hslot
    exact ⟨i, slot, hi, hp⟩
  · rintro ⟨i, slot, hi, hp⟩
    exact ⟨.kTimingTypeSecond, List.mem_cons_self .., List.any_eq_true.2
      ⟨slot, List.mem_of_getElem? hi, List.any_eq_true.2 ⟨_, hp, decide_eq_true rfl⟩⟩⟩
  · rintro ⟨p, hp, he⟩
    rw [h.released p hp (of_decide_eq_true he)] at hp
    exact hp
  · intro hp
    exact ⟨_, hp, decide_eq_true rfl⟩

/-- A new wheel has no references. -/
theorem new_owns (entry : ℕ) : ({} : WheelRun).owns entry = false := by
  rw [← Bool.not_eq_true, seated_new.owns_iff, not_or]
  refine ⟨?_, List.not_mem_nil⟩
  rintro ⟨i, slot, hslot, hmem⟩
  rw [(List.mem_replicate.1 (List.mem_of_getElem? hslot)).2] at hmem
  cases hmem

/-! ## Insertions -/

/-- An insertion adds its pointer to one slot. -/
theorem heldAt_emplaceAt {type : TimingType} {j : ℕ} {p : EntryPtr}
    (h : w.emplaceAt type j p = some w') : HeldAt w' entry i ↔
      HeldAt w entry i ∨ type = .kTimingTypeSecond ∧ i = j ∧ p = .user entry := by
  obtain ⟨hj, -, heq⟩ := emplaceAt_eq h
  unfold HeldAt
  rw [heq]
  by_cases htype : type = .kTimingTypeSecond
  · subst htype
    rw [Function.update_self, List.getElem?_modify]
    by_cases hij : i = j
    · subst hij
      rw [List.getElem?_eq_getElem hj]
      simp [mem_emplace, or_comm, eq_comm]
    · simp [hij, Ne.symm hij]
  · rw [Function.update_of_ne (Ne.symm htype)]
    simp [htype]

/-- What a slot holds behind an insertion was there, or is the pointer. -/
theorem mem_of_emplaceAt {type type' : TimingType} {j : ℕ} {p q : EntryPtr} {slot : WheelEntry}
    (h : w.emplaceAt type j p = some w') (hslot : slot ∈ w'.wheels type') (hq : q ∈ slot) :
    (∃ slot ∈ w.wheels type', q ∈ slot) ∨ type' = type ∧ q = p := by
  obtain ⟨hj, -, heq⟩ := emplaceAt_eq h
  rw [heq] at hslot
  by_cases htype : type' = type
  · subst htype
    rw [Function.update_self] at hslot
    obtain ⟨k, hk, rfl⟩ := List.getElem_of_mem hslot
    rw [List.getElem_modify] at hq
    have hk' : k < (w.wheels type').length := by rwa [List.length_modify] at hk
    split_ifs at hq
    · rcases mem_emplace.1 hq with rfl | hq
      · exact .inr ⟨rfl, rfl⟩
      · exact .inl ⟨_, List.getElem_mem hk', hq⟩
    · exact .inl ⟨_, List.getElem_mem hk', hq⟩
  · rw [Function.update_of_ne htype] at hslot
    exact .inl ⟨slot, hslot, hq⟩

/-- An insertion leaves the number of slots. -/
theorem length_emplaceAt {type type' : TimingType} {j : ℕ} {p : EntryPtr}
    (h : w.emplaceAt type j p = some w') : (w'.wheels type').length = (w.wheels type').length := by
  obtain ⟨-, -, heq⟩ := emplaceAt_eq h
  rw [heq]
  by_cases htype : type' = type
  · subst htype
    rw [Function.update_self, List.length_modify]
  · rw [Function.update_of_ne htype]

theorem Seated.emplaceAt (h : Seated entry s) {type : TimingType} {j : ℕ} {p : EntryPtr}
    (hw : s.wheel.emplaceAt type j p = some w)
    (hp : p.entry? = some entry → type = .kTimingTypeSecond ∧ p = .user entry)
    (accepted : List (BitVec 32 × ℕ)) :
    Seated entry { s with wheel := w, accepted := accepted } := by
  refine ⟨(length_emplaceAt hw).trans h.seconds, ?_, h.released, h.next⟩
  intro type' slot hslot q hq he
  rcases mem_of_emplaceAt hw hslot hq with ⟨slot', hslot', hq'⟩ | ⟨rfl, rfl⟩
  · exact h.wheels type' slot' hslot' q hq' he
  · exact hp he

/-- An insertion for another entry leaves the references alone. -/
theorem Seated.insert_other (h : Seated entry s) {delay : BitVec 32} {e : ℕ} (hne : e ≠ entry)
    (ht : s.insert delay e = some t) : Seated entry t ∧ t.ticks = s.ticks ∧
      t.released = s.released ∧ ∀ i, HeldAt t.wheel entry i ↔ HeldAt s.wheel entry i := by
  obtain ⟨w, hw, rfl⟩ := Option.map_eq_some_iff.1 ht
  rcases insertEntry_cases hw with ⟨type, j, p, hp, hentry, -⟩ | ⟨-, rfl⟩
  · have hno : p.entry? ≠ some entry := fun he => hne (hentry _ he).symm
    refine ⟨h.emplaceAt hp (fun he => absurd he hno) _, rfl, rfl, ?_⟩
    intro i
    rw [heldAt_emplaceAt hp, or_iff_left]
    rintro ⟨-, -, rfl⟩
    exact hno rfl
  · exact ⟨⟨h.seconds, h.wheels, h.released, h.next⟩, rfl, rfl, fun _ => .rfl⟩

/-- A delay below a minute is an insertion into the slot of its second. -/
theorem insertEntry_seconds {delay : BitVec 32} (h1 : 1 ≤ delay.toNat) (h59 : delay.toNat ≤ 59) :
    w.insertEntry delay entry =
      w.emplaceAt .kTimingTypeSecond (delay.toNat - 1) (.user entry) := by
  have hslot : (delay - 1).toNat = delay.toNat - 1 := by bv_omega
  have hpos : ¬ delay ≤ 0 := by bv_omega
  have hshort : delay.toNat < kTimingMinute := by
    have : kTimingMinute = 60 := rfl
    omega
  rw [insertEntry, if_pos hshort, if_neg hpos, insertSecondEntry, hslot]

/-- **The entry goes into the slot of its delay.** -/
theorem Seated.insert_self (h : Seated entry s) {delay : BitVec 32} (h1 : 1 ≤ delay.toNat)
    (h59 : delay.toNat ≤ 59) : ∃ t, s.insert delay entry = some t ∧ Seated entry t ∧
      t.ticks = s.ticks ∧ t.released = s.released ∧
        ∀ i, HeldAt t.wheel entry i ↔ HeldAt s.wheel entry i ∨ i + 1 = delay.toNat := by
  have hinsert : s.wheel.insertEntry delay entry = s.wheel.emplaceAt .kTimingTypeSecond
      (delay.toNat - 1) (.user entry) := insertEntry_seconds h1 h59
  obtain ⟨w, hw⟩ : ∃ w, s.wheel.emplaceAt .kTimingTypeSecond (delay.toNat - 1)
      (.user entry) = some w := by
    unfold TimingWheel.emplaceAt
    rw [if_pos (by rw [h.seconds]; omega)]
    exact ⟨_, rfl⟩
  refine ⟨_, by rw [WheelRun.insert, hinsert, hw]; rfl, h.emplaceAt hw (fun _ => ⟨rfl, rfl⟩) _, rfl,
    rfl, ?_⟩
  intro i
  rw [heldAt_emplaceAt hw]
  simp only [true_and, and_true]
  refine or_congr_right ⟨fun h => ?_, fun h => ?_⟩ <;> omega

/-! ## Steps of the wheel -/

/-- What a step of the wheel does to the references: nothing; at a tick each slot is the next
one, and the first is released; or one is dropped. -/
inductive Shift (entry : ℕ) (s t : WheelRun) : Prop
  | still : t.ticks = s.ticks → (∀ i, HeldAt t.wheel entry i ↔ HeldAt s.wheel entry i) →
    (Dropping t entry ↔ Dropping s entry) → Shift entry s t
  | tick : ¬ Dropping s entry → t.ticks = s.ticks + 1 →
    (∀ i, HeldAt t.wheel entry i ↔ HeldAt s.wheel entry (i + 1)) →
    (Dropping t entry ↔ HeldAt s.wheel entry 0) → Shift entry s t
  | drop : t.ticks = s.ticks → (∀ i, HeldAt t.wheel entry i ↔ HeldAt s.wheel entry i) →
    Dropping s entry → Shift entry s t

/-- The seconds move up by one slot. -/
theorem Seated.pop_seconds (h : Seated entry s) {next : Option TimingType}
    (hnext : next ≠ some .kTimingTypeSecond) (hs : s.pop .kTimingTypeSecond next = some t) :
    Seated entry t ∧ (∀ i, HeldAt t.wheel entry i ↔ HeldAt s.wheel entry (i + 1)) ∧
      (Dropping t entry ↔ HeldAt s.wheel entry 0) := by
  obtain ⟨hpop, hn, -⟩ := pop_eq hs
  obtain ⟨rest, hfront, hw⟩ := popUp_front hpop
  have hwheels : t.wheel.wheels .kTimingTypeSecond = rest ++ [[]] := by
    rw [hw]
    simp only [Function.update_self]
  have hlen := h.seconds
  rw [hfront, List.length_cons] at hlen
  refine ⟨⟨?_, ?_, ?_, by rwa [hn]⟩, ?_, ?_⟩
  · rw [hwheels, List.length_append, List.length_singleton]
    exact hlen
  · intro type slot hslot p hp he
    by_cases htype : type = .kTimingTypeSecond
    · subst htype
      rw [hwheels, List.mem_append, List.mem_singleton] at hslot
      rcases hslot with hslot | rfl
      · exact h.wheels _ slot (by rw [hfront]; exact List.mem_cons_of_mem _ hslot) p hp he
      · cases hp
    · rw [hw] at hslot
      simp only [Function.update_of_ne htype] at hslot
      exact h.wheels type slot hslot p hp he
  · intro p hp he
    exact (h.wheels .kTimingTypeSecond t.released
      (by rw [hfront]; exact List.mem_cons_self ..) p hp he).2
  · intro i
    unfold HeldAt
    rw [hwheels, hfront, List.getElem?_cons_succ]
    rcases lt_or_ge i rest.length with hi | hi
    · rw [List.getElem?_append_left hi]
    · -- the slot at the end is new
      rw [List.getElem?_append_right hi, List.getElem?_eq_none hi]
      constructor
      · rintro ⟨slot, hslot, hmem⟩
        rw [List.mem_singleton.1 (List.mem_of_getElem? hslot)] at hmem
        cases hmem
      · rintro ⟨slot, hslot, -⟩
        cases hslot
  · unfold HeldAt Dropping
    rw [hfront]
    simp

/-- Another wheel has no reference to release. -/
theorem Seated.pop_other (h : Seated entry s) {type : TimingType}
    (htype : type ≠ .kTimingTypeSecond) (hs : s.pop type none = some t) :
    Seated entry t ∧ (∀ i, HeldAt t.wheel entry i ↔ HeldAt s.wheel entry i) ∧
      ¬ Dropping t entry := by
  obtain ⟨hpop, hn, -⟩ := pop_eq hs
  obtain ⟨rest, hfront, hw⟩ := popUp_front hpop
  have hseconds : t.wheel.wheels .kTimingTypeSecond = s.wheel.wheels .kTimingTypeSecond := by
    rw [hw]
    simp only [Function.update_of_ne (Ne.symm htype)]
  have hreleased : ∀ p ∈ t.released, p.entry? ≠ some entry := by
    intro p hp he
    exact htype (h.wheels type t.released (by rw [hfront]; exact List.mem_cons_self ..) p hp he).1
  refine ⟨⟨by rw [hseconds]; exact h.seconds, ?_, fun p hp he => absurd he (hreleased p hp),
    by rw [hn]; decide⟩, ?_, fun hr => hreleased _ hr rfl⟩
  · intro type' slot hslot p hp he
    by_cases htype' : type' = type
    · subst htype'
      rw [hw] at hslot
      simp only [Function.update_self] at hslot
      rw [List.mem_append, List.mem_singleton] at hslot
      rcases hslot with hslot | rfl
      · exact h.wheels _ slot (by rw [hfront]; exact List.mem_cons_of_mem _ hslot) p hp he
      · cases hp
    · rw [hw] at hslot
      simp only [Function.update_of_ne htype'] at hslot
      exact h.wheels type' slot hslot p hp he
  · intro i
    unfold HeldAt
    rw [hseconds]

/-- Dropping a reference leaves the slots alone, and the references of other entries. -/
theorem Seated.drop (h : Seated entry s) {i : ℕ} (ht : s.step (.drop i) = some t) :
    Seated entry t ∧ t.ticks = s.ticks ∧
      (∀ i, HeldAt t.wheel entry i ↔ HeldAt s.wheel entry i) ∧
      (s.released[i]? ≠ some (.user entry) → (Dropping t entry ↔ Dropping s entry)) := by
  have herase : ∀ p ∈ s.released.eraseIdx i, p ∈ s.released :=
    fun p hp => List.mem_of_mem_eraseIdx hp
  have hseated : Seated entry { s with released := s.released.eraseIdx i } :=
    ⟨h.seconds, h.wheels, fun p hp => h.released p (herase p hp), h.next⟩
  -- where another reference is dropped, that of the entry stays
  have hother : s.released[i]? ≠ some (.user entry) →
      (Dropping { s with released := s.released.eraseIdx i } entry ↔ Dropping s entry) := by
    intro hne
    refine ⟨herase _, ?_⟩
    intro hr
    obtain ⟨j, hj⟩ := List.getElem?_of_mem hr
    have hji : j ≠ i := by
      rintro rfl
      exact hne hj
    exact List.mem_eraseIdx_iff_getElem?.2 ⟨j, hji, hj⟩
  obtain ⟨p, hp, ⟨-, rfl⟩ | ⟨second, e, rfl, ht⟩⟩ := WheelRun.step_drop ht
  · exact ⟨hseated, rfl, fun _ => .rfl, hother⟩
  · -- a callback of another entry, which inserts it
    have he : e ≠ entry := by
      rintro rfl
      exact absurd (h.released _ (List.mem_of_getElem? hp) rfl) (by simp)
    obtain ⟨hseated', hticks, hreleased, hat⟩ := hseated.insert_other he ht
    refine ⟨hseated', hticks, hat, ?_⟩
    intro hne
    rw [← hother hne]
    unfold Dropping
    rw [hreleased]

theorem nextWheel_ne (tick : ℕ) : nextWheel tick ≠ some .kTimingTypeSecond := by
  rw [nextWheel_eq]
  split_ifs <;> decide

/-- **A step that does not insert the entry is such a shift.** -/
theorem step_shift (h : Seated entry s) {e : WheelEvent}
    (he : ∀ delay, e ≠ .insert delay entry) (ht : s.step e = some t) :
    Seated entry t ∧ Shift entry s t := by
  cases e with
  | insert delay e =>
    obtain ⟨hseated, hticks, hreleased, hat⟩ :=
      h.insert_other (fun hn => he delay (by rw [hn])) ht
    exact ⟨hseated, .still hticks hat (by unfold Dropping; rw [hreleased])⟩
  | drop i =>
    obtain ⟨hseated, hticks, hat, hother⟩ := h.drop ht
    by_cases hp : s.released[i]? = some (.user entry)
    · exact ⟨hseated, .drop hticks hat (List.mem_of_getElem? hp)⟩
    · exact ⟨hseated, .still hticks hat (hother hp)⟩
  | onTimer now =>
    obtain ⟨hidle, ⟨ts, rfl⟩ | ht⟩ := WheelRun.step_onTimer ht
    · exact ⟨⟨h.seconds, h.wheels, h.released, h.next⟩, .still rfl (fun _ => .rfl) .rfl⟩
    · have hseated : Seated entry { s with
          wheel := { s.wheel with lastTs := now, tick := (s.wheel.tick + 1) % 2 ^ 64 }
          ticks := s.ticks + 1 } := ⟨h.seconds, h.wheels, h.released, h.next⟩
      obtain ⟨hseated', hat, hreleased⟩ := hseated.pop_seconds (nextWheel_ne _) ht
      exact ⟨hseated', .tick (not_dropping hidle.1) (pop_eq ht).2.2.1 hat hreleased⟩
  | popUp =>
    obtain ⟨type, hnil, hn, ht⟩ := WheelRun.step_popUp ht
    -- the higher wheels hold references in slots of their own
    have htype : type ≠ .kTimingTypeSecond := by
      rintro rfl
      exact h.next hn
    obtain ⟨hseated, hat, hno⟩ := h.pop_other htype ht
    exact ⟨hseated, .still (pop_eq ht).2.2.1 hat (iff_of_false hno (not_dropping hnil))⟩

/-- Nobody else makes a reference. -/
theorem Shift.owns (h : Shift entry s t) (hs : Seated entry s) (ht : Seated entry t)
    (hown : t.owns entry = true) : s.owns entry = true := by
  rw [hs.owns_iff]
  rw [ht.owns_iff] at hown
  cases h with
  | still _ hat hr =>
    rcases hown with ⟨i, hi⟩ | hown
    · exact .inl ⟨i, (hat i).1 hi⟩
    · exact .inr (hr.1 hown)
  | tick _ _ hat hr =>
    rcases hown with ⟨i, hi⟩ | hown
    · exact .inl ⟨i + 1, (hat i).1 hi⟩
    · exact .inl ⟨0, hr.1 hown⟩
  | drop _ _ hr => exact .inr hr

theorem Shift.ticks_le (h : Shift entry s t) : s.ticks ≤ t.ticks := by
  cases h with
  | still ht _ _ | tick _ ht _ _ | drop ht _ _ => omega

/-! ## Until the last reference -/

/-- All references are released by `limit`, and one of them not before. -/
structure DueAt (entry : ℕ) (s : WheelRun) (limit : ℕ) : Prop where
  early : ∀ i, HeldAt s.wheel entry i → s.ticks + i + 1 ≤ limit
  last : s.ticks < limit ∧ HeldAt s.wheel entry (limit - s.ticks - 1) ∨
    s.ticks = limit ∧ Dropping s entry

variable {limit : ℕ}

theorem DueAt.owns (h : DueAt entry s limit) (hs : Seated entry s) : s.owns entry = true := by
  rw [hs.owns_iff]
  rcases h.last with ⟨-, hat⟩ | ⟨-, hr⟩
  · exact .inl ⟨_, hat⟩
  · exact .inr hr

/-- While the wheel is idle, the limit lies ahead. -/
theorem DueAt.lt_of_idle (h : DueAt entry s limit) (hidle : s.Idle) : s.ticks < limit := by
  rcases h.last with ⟨hlt, -⟩ | ⟨-, hr⟩
  · exact hlt
  · unfold Dropping at hr
    rw [hidle.1] at hr
    cases hr

theorem DueAt.le (h : DueAt entry s limit) : s.ticks ≤ limit := by
  rcases h.last with ⟨hlt, -⟩ | ⟨heq, -⟩
  · exact hlt.le
  · exact heq.le

/-- An entry is due by its only insertion. -/
theorem DueAt.insert_self (hs : Seated entry s) (hearly : ∀ i, HeldAt s.wheel entry i →
    s.ticks + i + 1 ≤ limit) {delay : BitVec 32} (h1 : 1 ≤ delay.toNat) (h59 : delay.toNat ≤ 59)
    (hlimit : limit = s.ticks + delay.toNat) : ∃ t, s.insert delay entry = some t ∧
      Seated entry t ∧ t.ticks = s.ticks ∧ DueAt entry t limit := by
  obtain ⟨t, ht, hseated, hticks, -, hat⟩ := hs.insert_self h1 h59
  refine ⟨t, ht, hseated, hticks, ?_, .inl ⟨by omega, (hat _).2 (.inr (by omega))⟩⟩
  intro i hi
  -- the earlier references go by the hypothesis, the new one in the last tick
  rcases (hat i).1 hi with hi | hi
  · have := hearly i hi
    omega
  · omega

/-- **A step that does not drop the entry keeps it.** -/
theorem DueAt.keep (h : DueAt entry s limit) (hshift : Shift entry s t)
    (hkeep : Dropping s entry → Dropping t entry) : DueAt entry t limit := by
  cases hshift with
  | still hticks hat hr =>
    refine ⟨?_, ?_⟩
    · intro i hi
      rw [hticks]
      exact h.early i ((hat i).1 hi)
    · rw [hticks, hat, hr]
      exact h.last
  | tick hno hticks hat hr =>
    obtain ⟨hlt, hlast⟩ := h.last.resolve_right fun hl => hno hl.2
    refine ⟨?_, ?_⟩
    · intro i hi
      have := h.early (i + 1) ((hat i).1 hi)
      omega
    · rcases Nat.lt_or_ge (s.ticks + 1) limit with hlt' | hge
      · refine .inl ⟨by omega, (hat _).2 ?_⟩
        have hslot : limit - t.ticks - 1 + 1 = limit - s.ticks - 1 := by omega
        rwa [hslot]
      · refine .inr ⟨by omega, hr.2 ?_⟩
        have hslot : limit - s.ticks - 1 = 0 := by omega
        rwa [hslot] at hlast
  | drop hticks hat hrel =>
    refine ⟨?_, ?_⟩
    · intro i hi
      have := h.early i ((hat i).1 hi)
      omega
    · rw [hticks, hat]
      exact h.last.imp_right fun hl => ⟨hl.1, hkeep hrel⟩

/-- **A step by others keeps the entry, or drops its last reference at the limit.** -/
theorem DueAt.shift (h : DueAt entry s limit) (ht : Seated entry t) (hshift : Shift entry s t) :
    DueAt entry t limit ∨ t.owns entry = false ∧ t.ticks = limit := by
  by_cases hkeep : Dropping s entry → Dropping t entry
  · exact .inl (h.keep hshift hkeep)
  rw [Classical.not_imp] at hkeep
  cases hshift with
  | still _ _ hr => exact absurd (hr.2 hkeep.1) hkeep.2
  | tick hno _ _ _ => exact absurd hkeep.1 hno
  | drop hticks hat hrel =>
    rcases h.last with ⟨hlt, hlast⟩ | ⟨heq, -⟩
    · refine .inl ⟨?_, .inl ⟨by omega, (hat _).2 (by rwa [hticks])⟩⟩
      intro i hi
      have := h.early i ((hat i).1 hi)
      omega
    · -- at the limit no slot is left
      refine .inr ⟨?_, by omega⟩
      rw [← Bool.not_eq_true, ht.owns_iff, not_or]
      refine ⟨?_, hkeep.2⟩
      rintro ⟨i, hi⟩
      have := h.early i ((hat i).1 hi)
      omega

end HttpNest
