import HttpNest.Lib.EventRun
import HttpNest.Spec.FileMgr

/-!
# When logs are rotated

A check compares minute, hour and day one by one with those of the check before. A log is rotated
when the field of its own unit has changed, which is not when the time in this unit has: an hour
later the minute can be the same, and a month later the day. `rotates_iff` says for which
sequences of readings every log is rotated as it should be.

A check that sees none of the three fields changed does not store the reading, so month and year
can be those of an earlier one. Where the own field always tells, this does not happen
(`onCheck_last`).
-/

namespace HttpNest

open EventRun

/-- The units that a log can be rotated by. -/
inductive RotateUnit
  | minute
  | hour
  | day
  deriving DecidableEq, Repr

namespace RotateUnit

def type : RotateUnit → RotateType
  | minute => .kRotateMinute
  | hour => .kRotateHour
  | day => .kRotateDay

/-- The field that `OnCheck` compares. -/
def field : RotateUnit → TimeFields → ℤ
  | minute, t => t.minute
  | hour, t => t.hour
  | day, t => t.day

/-- The time in this unit. -/
def truncate : RotateUnit → TimeFields → List ℤ
  | minute, t => [t.year, t.month, t.day, t.hour, t.minute]
  | hour, t => [t.year, t.month, t.day, t.hour]
  | day, t => [t.year, t.month, t.day]

/-- The change that is tested for a log of this unit. -/
def change : RotateUnit → Bool → Bool → Bool → Bool
  | minute, minuteChange, _, _ => minuteChange
  | hour, _, hourChange, _ => hourChange
  | day, _, _, dayChange => dayChange

def name : RotateUnit → TimeFields → Bytes → Bytes
  | minute => FileMgr.minutesName
  | hour => FileMgr.hoursName
  | day => FileMgr.daysName

end RotateUnit

/-- A check: what the clock says, and the logs as they are then. -/
structure LogCheck where
  now : LocalTime
  logs : LogTable

/-- `FileMgr`, and the reading of the last check. -/
structure CheckRun where
  mgr : FileMgr := {}
  previous : Option LocalTime := none

namespace CheckRun

def step (s : CheckRun) (c : LogCheck) : Option CheckRun :=
  some ⟨(s.mgr.onCheck c.now.fields c.logs).1, some c.now⟩

/-- The names that `FileLog::Rotate` of a log is called with in a check. -/
def names (s : CheckRun) (c : LogCheck) (path : Bytes) : List Bytes :=
  ((s.mgr.onCheck c.now.fields c.logs).2.filter (·.1 = path)).map Prod.snd

/-- Every log of this unit that is not empty is rotated once, to the name of the previous reading,
if that was in another minute, hour or day, and else not. -/
def RotatesRight (u : RotateUnit) (s : CheckRun) (c : LogCheck) : Prop :=
  ∀ previous, s.previous = some previous → ∀ path log, c.logs.lookup path = some log →
    log.rotateType = u.type → 0 < log.fileSize → s.names c path =
      if u.truncate c.now.fields = u.truncate previous.fields then []
      else [u.name previous.fields path]

end CheckRun

/-- The field of the unit tells that the time has changed. -/
def Notices (u : RotateUnit) (previous now : LocalTime) : Prop :=
  u.truncate now.fields ≠ u.truncate previous.fields →
    u.field now.fields ≠ u.field previous.fields

/-! ## One check -/

namespace FileMgr

variable {m : FileMgr} {u : RotateUnit} {now : TimeFields} {logs : LogTable} {path : Bytes}
  {log : FileLog}

/-- What the loop does with one log. -/
def rotateLog (m : FileMgr) (minuteChange hourChange dayChange : Bool)
    (log : (_ : Bytes) × FileLog) : List (Bytes × Bytes) :=
  (if minuteChange ∧ log.2.rotateType = .kRotateMinute then m.rotateMinutes log.1 log.2 else []) ++
  (if hourChange ∧ log.2.rotateType = .kRotateHour then m.rotateHours log.1 log.2 else []) ++
  (if dayChange ∧ log.2.rotateType = .kRotateDay then m.rotateDays log.1 log.2 else [])

theorem fst_of_mem_rotateLog {mc hc dc : Bool} {e : (_ : Bytes) × FileLog} {r : Bytes × Bytes}
    (h : r ∈ m.rotateLog mc hc dc e) : r.1 = e.1 := by
  have hone : ∀ {c : Prop} [Decidable c] {n : Bytes},
      r ∈ (if c then [(e.1, n)] else []) → r.1 = e.1 := by
    intro c _ n hr
    split_ifs at hr
    · rw [List.mem_singleton.1 hr]
    · cases hr
  have hguard : ∀ {c : Prop} [Decidable c] {l : List (Bytes × Bytes)},
      r ∈ (if c then l else []) → r ∈ l := by
    intro c _ l hr
    split_ifs at hr
    · exact hr
    · cases hr
  rw [rotateLog, List.mem_append, List.mem_append] at h
  rcases h with (h | h) | h
  · exact hone (hguard h)
  · exact hone (hguard h)
  · exact hone (hguard h)

/-- A log is in the table once. -/
theorem filter_flatMap {f : (_ : Bytes) × FileLog → List (Bytes × Bytes)}
    (hf : ∀ e, ∀ r ∈ f e, r.1 = e.1) {es : List ((_ : Bytes) × FileLog)} (hnd : es.NodupKeys)
    (hmem : ⟨path, log⟩ ∈ es) : (es.flatMap f).filter (·.1 = path) = f ⟨path, log⟩ := by
  have hnone : ∀ {es : List ((_ : Bytes) × FileLog)}, path ∉ es.keys →
      (es.flatMap f).filter (·.1 = path) = [] := by
    intro es hno
    refine List.filter_eq_nil_iff.2 fun r hr => ?_
    obtain ⟨e, he, hr⟩ := List.mem_flatMap.1 hr
    rw [decide_eq_true_eq, hf e r hr]
    rintro rfl
    exact hno (List.mem_keys_of_mem he)
  induction es with
  | nil => cases hmem
  | cons e es ih =>
    rw [List.nodupKeys_cons] at hnd
    rw [List.flatMap_cons, List.filter_append]
    rcases List.mem_cons.1 hmem with rfl | hmem
    · rw [hnone hnd.1, List.append_nil]
      refine List.filter_eq_self.2 fun r hr => ?_
      rw [decide_eq_true_eq]
      exact hf _ r hr
    · have hne : e.1 ≠ path := by
        intro he
        have hkey := List.mem_keys_of_mem hmem
        rw [← he] at hkey
        exact hnd.1 hkey
      have hhead : (f e).filter (·.1 = path) = [] := by
        refine List.filter_eq_nil_iff.2 fun r hr => ?_
        rw [decide_eq_true_eq, hf e r hr]
        exact hne
      rw [hhead, List.nil_append, ih hnd.2 hmem]

/-- Of the three tests of the loop, that of the log's own unit decides. -/
theorem rotateLog_eq {e : (_ : Bytes) × FileLog} (htype : e.2.rotateType = u.type)
    (hsize : 0 < e.2.fileSize) (mc hc dc : Bool) : m.rotateLog mc hc dc e =
      if u.change mc hc dc then [(e.1, u.name m.last e.1)] else [] := by
  unfold rotateLog rotateMinutes rotateHours rotateDays
  simp only [htype, if_pos hsize]
  cases u <;> simp only [RotateUnit.type, RotateUnit.change, RotateUnit.name, reduceCtorEq,
    and_false, and_true, if_false, List.nil_append, List.append_nil] <;> congr

/-- What a check calls `Rotate` with, for a log of a unit that is not empty. -/
theorem calls_eq (hday : m.last.day ≠ -1) (hlog : logs.lookup path = some log)
    (htype : log.rotateType = u.type) (hsize : 0 < log.fileSize) :
    (m.onCheck now logs).2.filter (·.1 = path) =
      if u.field now = u.field m.last then [] else [(path, u.name m.last path)] := by
  have hmem : ⟨path, log⟩ ∈ logs.entries := AList.mem_lookup_iff.1 hlog
  have hloop : ∀ mc hc dc, (m.rotateLogs mc hc dc logs).filter (·.1 = path) =
      m.rotateLog mc hc dc ⟨path, log⟩ := fun mc hc dc =>
    filter_flatMap (fun e r hr => fst_of_mem_rotateLog hr) logs.nodupKeys hmem
  have hchange : u.change (decide (m.last.minute ≠ now.minute)) (decide (m.last.hour ≠ now.hour))
      (decide (m.last.day ≠ now.day)) = true ↔ u.field m.last ≠ u.field now := by
    cases u <;> exact decide_eq_true_iff
  unfold onCheck
  simp only [if_neg hday]
  split_ifs with hsame hfield hfield
  · rfl
  · simp only [Bool.and_eq_true, Bool.not_eq_true', decide_eq_false_iff_not, not_not] at hsame
    obtain ⟨⟨hd, hh⟩, hm⟩ := hsame
    cases u with
    | minute => exact absurd hm.symm hfield
    | hour => exact absurd hh.symm hfield
    | day => exact absurd hd.symm hfield
  · rw [hloop, rotateLog_eq htype hsize, if_neg]
    rw [hchange]
    exact fun hne => hne hfield.symm
  · rw [hloop, rotateLog_eq htype hsize, if_pos]
    rw [hchange]
    exact fun heq => hfield heq.symm

/-- What is stored at the end of a check. -/
theorem onCheck_last (m : FileMgr) (now : TimeFields) (logs : LogTable) :
    (m.onCheck now logs).1.last = if m.last.day ≠ -1 ∧ m.last.day = now.day ∧
      m.last.hour = now.hour ∧ m.last.minute = now.minute then m.last else now := by
  unfold onCheck
  by_cases hday : m.last.day = -1
  · simp [hday]
  · simp only [if_neg hday]
    split_ifs with hsame hkeep hkeep
    · rfl
    · simp only [Bool.and_eq_true, Bool.not_eq_true', decide_eq_false_iff_not, not_not] at hsame
      exact absurd ⟨hday, hsame.1.1, hsame.1.2, hsame.2⟩ hkeep
    · obtain ⟨-, hd, hh, hm⟩ := hkeep
      simp [hd, hh, hm] at hsame
    · rfl

end FileMgr

/-! ## Sequences of checks -/

namespace CheckRun

variable {u : RotateUnit} {s t : CheckRun} {c : LogCheck} {previous now : LocalTime}

/-- The last check's reading is stored. -/
structure UpToDate (s : CheckRun) (previous : LocalTime) : Prop where
  reading : s.previous = some previous
  last : s.mgr.last = previous.fields

theorem UpToDate.day_ne (h : UpToDate s previous) : s.mgr.last.day ≠ -1 := by
  have hpos := previous.day_pos
  rw [h.last]
  omega

/-- A check whose fields are those of the stored reading leaves month and year as they are. -/
theorem UpToDate.next (h : UpToDate s previous) (hn : Notices u previous c.now)
    (ht : s.step c = some t) : UpToDate t c.now := by
  cases ht
  refine ⟨rfl, (FileMgr.onCheck_last _ _ _).trans ?_⟩
  split_ifs with hkeep
  · obtain ⟨-, hd, hh, hm⟩ := hkeep
    rw [h.last] at hd hh hm ⊢
    have hfield : u.field c.now.fields = u.field previous.fields := by
      cases u <;> simp [RotateUnit.field, hd, hh, hm]
    -- nothing has changed in this unit, so year and month have not
    have hsame : u.truncate c.now.fields = u.truncate previous.fields :=
      not_not.1 fun hne => hn hne hfield
    have hdate : c.now.fields.year = previous.fields.year ∧
        c.now.fields.month = previous.fields.month := by
      cases u <;> simp only [RotateUnit.truncate, List.cons.injEq] at hsame <;>
        exact ⟨hsame.1, hsame.2.1⟩
    obtain ⟨hy, hmo⟩ := hdate
    rcases hp : previous.fields with ⟨py, pmo, pd, ph, pm⟩
    rcases hc : c.now.fields with ⟨cy, cmo, cd, ch, cm⟩
    simp_all
  · rfl

theorem UpToDate.names (h : UpToDate s previous) {path : Bytes} {log : FileLog}
    (hlog : c.logs.lookup path = some log) (htype : log.rotateType = u.type)
    (hsize : 0 < log.fileSize) : s.names c path =
      if u.field c.now.fields = u.field previous.fields then []
      else [u.name previous.fields path] := by
  rw [CheckRun.names, FileMgr.calls_eq h.day_ne hlog htype hsize, h.last]
  split_ifs <;> rfl

/-- A table with one log. -/
def oneLog (u : RotateUnit) : LogTable := (∅ : LogTable).insert (ascii "a.log") ⟨u.type, 1⟩

theorem lookup_oneLog (u : RotateUnit) : (oneLog u).lookup (ascii "a.log") = some ⟨u.type, 1⟩ :=
  AList.lookup_insert _

/-- **One check rotates right**, whatever the logs are, exactly if the field tells. -/
theorem UpToDate.rotatesRight_iff (h : UpToDate s previous) (now : LocalTime) :
    (∀ logs, RotatesRight u s ⟨now, logs⟩) ↔ Notices u previous now := by
  have hsame : u.truncate now.fields = u.truncate previous.fields →
      u.field now.fields = u.field previous.fields := by
    intro heq
    cases u <;> simp only [RotateUnit.truncate, List.cons.injEq] at heq
    · exact heq.2.2.2.2.1
    · exact heq.2.2.2.1
    · exact heq.2.2.1
  constructor
  · intro hright hne hfield
    have hnames := hright (oneLog u) previous h.reading (ascii "a.log") ⟨u.type, 1⟩
      (lookup_oneLog u) rfl Int.one_pos
    rw [h.names (lookup_oneLog u) rfl Int.one_pos, if_pos hfield, if_neg hne] at hnames
    cases hnames
  · intro hn logs previous' hp path log hlog htype hsize
    rw [h.reading, Option.some.injEq] at hp
    subst hp
    rw [h.names hlog htype hsize]
    by_cases heq : u.truncate now.fields = u.truncate previous.fields
    · rw [if_pos heq, if_pos (hsame heq)]
    · rw [if_neg heq, if_neg (hn heq)]

/-- From a check on. -/
theorem UpToDate.meets_iff (rs : List LocalTime) : ∀ {s : CheckRun} {previous : LocalTime},
    UpToDate s previous → ((∀ cs : List LogCheck, cs.map (·.now) = rs →
      Meets step (RotatesRight u) s cs) ↔ (previous :: rs).IsChain (Notices u)) := by
  induction rs with
  | nil =>
    intro s previous _
    refine iff_of_true (fun cs hcs => ?_) (.singleton _)
    rw [List.map_eq_nil_iff.1 hcs]
    exact trivial
  | cons r rs ih =>
    intro s previous h
    rw [List.isChain_cons_cons]
    constructor
    · intro hall
      have hright : Notices u previous r := by
        refine (h.rotatesRight_iff r).1 fun logs => ?_
        have hcs : ((⟨r, logs⟩ : LogCheck) :: rs.map fun r => ⟨r, ∅⟩).map (·.now) = r :: rs := by
          rw [List.map_cons, List.map_map]
          exact congrArg (r :: ·) (List.map_id rs)
        exact (hall _ hcs).1
      have hnext : UpToDate ⟨(s.mgr.onCheck r.fields ∅).1, some r⟩ r :=
        h.next (c := ⟨r, ∅⟩) hright rfl
      refine ⟨hright, (ih hnext).1 fun cs hcs => ?_⟩
      refine (hall (⟨r, ∅⟩ :: cs) ?_).2 _ rfl
      rw [List.map_cons, hcs]
    · rintro ⟨hright, hchain⟩ cs hcs
      obtain ⟨c, cs, rfl⟩ := List.exists_cons_of_ne_nil (l := cs) (by rintro rfl; cases hcs)
      obtain ⟨rfl, htail⟩ := List.cons.inj hcs
      refine ⟨(h.rotatesRight_iff c.now).2 hright c.logs, fun t ht => ?_⟩
      exact (ih (h.next hright ht)).2 hchain cs htail

/-- **When logs are rotated as they should be**: for a sequence of readings, every log of a unit
is, whatever logs there are at each check, exactly if the field of the unit is another one at each
check at which the time in that unit is. -/
theorem rotates_iff (u : RotateUnit) (rs : List LocalTime) :
    (∀ cs : List LogCheck, cs.map (·.now) = rs → Meets step (RotatesRight u) {} cs) ↔
      rs.IsChain (Notices u) := by
  rcases rs with _ | ⟨r, rs⟩
  · refine iff_of_true (fun cs hcs => ?_) .nil
    rw [List.map_eq_nil_iff.1 hcs]
    exact trivial
  · have hfirst : ∀ logs, UpToDate ⟨(({} : FileMgr).onCheck r.fields logs).1, some r⟩ r := by
      refine fun logs => ⟨rfl, (FileMgr.onCheck_last _ _ _).trans (if_neg ?_)⟩
      exact fun hday => hday.1 rfl
    constructor
    · intro hall
      refine ((hfirst ∅).meets_iff rs).1 fun cs hcs => ?_
      refine (hall (⟨r, ∅⟩ :: cs) ?_).2 _ rfl
      rw [List.map_cons, hcs]
    · intro hchain cs hcs
      obtain ⟨c, cs, rfl⟩ := List.exists_cons_of_ne_nil (l := cs) (by rintro rfl; cases hcs)
      obtain ⟨rfl, htail⟩ := List.cons.inj hcs
      have hnone : RotatesRight u {} c := by
        intro previous hp
        cases hp
      refine ⟨hnone, fun t ht => ?_⟩
      cases ht
      exact ((hfirst c.logs).meets_iff rs).2 hchain cs htail

/-- A minute log is not rotated when the next check is an hour later. -/
theorem hour_missed : ¬ ∀ (u : RotateUnit) (cs : List LogCheck),
    Meets step (RotatesRight u) {} cs := by
  intro h
  have hright := ((h .minute [⟨⟨⟨2024, 5, 17, 10, 0⟩, by decide⟩, ∅⟩,
    ⟨⟨⟨2024, 5, 17, 11, 0⟩, by decide⟩, oneLog .minute⟩]).2 _ rfl).1
  have hnames := hright _ rfl (ascii "a.log") ⟨.kRotateMinute, 1⟩ (lookup_oneLog .minute) rfl
    (by decide)
  revert hnames
  decide +kernel

end CheckRun

end HttpNest
