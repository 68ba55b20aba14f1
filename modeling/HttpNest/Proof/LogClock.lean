import HttpNest.Proof.LogChecks
import HttpNest.Proof.LogNames
import HttpNest.Proof.LogRotation

/-!
# Which clocks lose logs

The name of an archive is the time of a check, cut off behind the unit of the log. For the times
that a clock can show, two names are the same only if these times are (`place_name_inj`), and none
is the log's own (`place_name_ne`). So whether bytes can be lost depends on the clock alone: on
whether two of the times at which the log's unit is seen to change are the same
(`clock_kept_iff`). They are not if the clock never goes back (`kept_of_forward`); at the end of
daylight saving time it does.
-/

namespace HttpNest

open CNumeral PathNames DirTree EventRun StringUtils FileMgr

/-! ## Names -/

/-- What a clock can show. -/
structure TimeFields.Valid (t : TimeFields) : Prop where
  year : 0 ≤ t.year
  month : 0 ≤ t.month ∧ t.month < 100
  day : 0 ≤ t.day ∧ t.day < 100
  hour : 0 ≤ t.hour ∧ t.hour < 100
  minute : 0 ≤ t.minute ∧ t.minute < 100

/-- Two digits. -/
theorem printZeros_two {z : ℤ} (h : 0 ≤ z ∧ z < 100) :
    (printZeros 2 z).length = 2 ∧ (decimal (printZeros 2 z) : ℤ) = z := by
  obtain ⟨n, rfl⟩ := Int.eq_ofNat_of_zero_le h.1
  have hall : ∀ n : ℕ, n < 100 → (printZeros 2 (n : ℤ)).length = 2 ∧
      decimal (printZeros 2 (n : ℤ)) = n := by decide +kernel
  obtain ⟨hlen, hval⟩ := hall n (by omega)
  exact ⟨hlen, congrArg _ hval⟩

theorem printZeros_two_inj {y z : ℤ} (hy : 0 ≤ y ∧ y < 100) (hz : 0 ≤ z ∧ z < 100)
    (h : printZeros 2 y = printZeros 2 z) : y = z := by
  rw [← (printZeros_two hy).2, h, (printZeros_two hz).2]

/-- What is printed behind the `_`. -/
def RotateUnit.text : RotateUnit → TimeFields → Bytes
  | .minute, t => (dayText t).tail ++ 84 :: (printZeros 2 t.hour ++ printZeros 2 t.minute)
  | .hour, t => (dayText t).tail ++ 84 :: printZeros 2 t.hour
  | .day, t => (dayText t).tail

variable {u : RotateUnit} {t t' : TimeFields} {path : Bytes} {D : Type*} {T : DirTree D}

theorem name_eq (u : RotateUnit) (t : TimeFields) (path : Bytes) :
    u.name t path = archiveName path (95 :: u.text t) ∧ Printed (u.text t) := by
  have hday := printed_dayText t
  have ht : TimeChar 84 := .inr (.inr (.inl rfl))
  cases u with
  | minute => exact ⟨rfl, hday.append (.cons ht ((printed_zeros 2 _).append (printed_zeros 2 _)))⟩
  | hour => exact ⟨rfl, hday.append (.cons ht (printed_zeros 2 _))⟩
  | day => exact ⟨rfl, hday⟩

theorem dayText_inj (h : t.Valid) (h' : t'.Valid) (heq : (dayText t).tail = (dayText t').tail) :
    t.year = t'.year ∧ t.month = t'.month ∧ t.day = t'.day := by
  have hlen : (45 :: (printZeros 2 t.month ++ 45 :: printZeros 2 t.day)).length =
      (45 :: (printZeros 2 t'.month ++ 45 :: printZeros 2 t'.day)).length := by
    simp [(printZeros_two h.month).1, (printZeros_two h'.month).1, (printZeros_two h.day).1,
      (printZeros_two h'.day).1]
  obtain ⟨hyear, hrest⟩ := List.append_inj' heq hlen
  obtain ⟨hmonth, hday⟩ := List.append_inj (List.cons.inj hrest).2
    ((printZeros_two h.month).1.trans (printZeros_two h'.month).1.symm)
  exact ⟨printBlanks_inj h.year h'.year hyear, printZeros_two_inj h.month h'.month hmonth,
    printZeros_two_inj h.day h'.day (List.cons.inj hday).2⟩

/-- **The text of a time tells it**, up to the unit. -/
theorem text_inj (h : t.Valid) (h' : t'.Valid) :
    u.text t = u.text t' ↔ u.truncate t = u.truncate t' := by
  have htwo := fun {z : ℤ} (hz : 0 ≤ z ∧ z < 100) => (printZeros_two hz).1
  constructor
  · intro heq
    cases u with
    | day =>
      obtain ⟨hy, hm, hd⟩ := dayText_inj h h' heq
      simp [RotateUnit.truncate, hy, hm, hd]
    | hour =>
      obtain ⟨hday, hrest⟩ := List.append_inj' heq (by simp [htwo h.hour, htwo h'.hour])
      obtain ⟨hy, hm, hd⟩ := dayText_inj h h' hday
      have hh := printZeros_two_inj h.hour h'.hour (List.cons.inj hrest).2
      simp [RotateUnit.truncate, hy, hm, hd, hh]
    | minute =>
      obtain ⟨hday, hrest⟩ := List.append_inj' heq
        (by simp [htwo h.hour, htwo h'.hour, htwo h.minute, htwo h'.minute])
      obtain ⟨hy, hm, hd⟩ := dayText_inj h h' hday
      obtain ⟨hhour, hminute⟩ := List.append_inj (List.cons.inj hrest).2
        ((htwo h.hour).trans (htwo h'.hour).symm)
      have hh := printZeros_two_inj h.hour h'.hour hhour
      have hmi := printZeros_two_inj h.minute h'.minute hminute
      simp [RotateUnit.truncate, hy, hm, hd, hh, hmi]
  · intro heq
    cases u <;> simp only [RotateUnit.truncate, List.cons.injEq, and_true] at heq <;>
      simp [RotateUnit.text, dayText, heq]

/-- The name of the log is where the path ends: there is no `/` in it. -/
def Named (path : Bytes) : Prop := 47 ∉ fileNameExt path ∧ base path ≠ []

/-- Where a log is rotated to. -/
theorem place_name (h : Named path) (u : RotateUnit) (t : TimeFields) :
    filePlace T (u.name t path) = (T.directory (filePath path ++ fileName path),
      stem path ++ (95 :: u.text t ++ 46 :: extension path)) := by
  obtain ⟨hname, hprinted⟩ := name_eq u t path
  obtain ⟨hdir, hbase⟩ := directory_archiveName (T := T) hprinted (slash_not_mem h.1).2
  rw [filePlace, hname, hdir, hbase]

/-- **Two times make the same archive only if they are in the same minute, hour or day.** -/
theorem place_name_inj (hp : Named path) (h : t.Valid) (h' : t'.Valid) :
    filePlace T (u.name t path) = filePlace T (u.name t' path) ↔ u.truncate t = u.truncate t' := by
  rw [place_name hp, place_name hp, Prod.mk.injEq, and_iff_right rfl, List.append_cancel_left_eq,
    List.append_cancel_right_eq, List.cons.injEq, and_iff_right rfl, text_inj h h']

theorem length_fileNameExt_le (path : Bytes) : (fileNameExt path).length ≤
    (fileName path).length + (extension path).length + 1 := by
  rcases fileName_cases path with ⟨a, b, hn, -, -, hf, he⟩ | ⟨-, hf, he⟩
  · rw [hn, hf, he, List.length_append, List.length_cons]
    omega
  · rw [hf, he, List.length_nil]
    omega

theorem length_base_le (h : Named path) :
    (base path).length ≤ (stem path).length + (extension path).length + 2 := by
  have hlen := length_fileNameExt_le path
  have hstem : (stem path).length = (base (filePath path)).length + (fileName path).length := by
    rw [stem, base_append (slash_not_mem h.1).1, List.length_append]
  by_cases hsep : ∃ c ∈ path, isSeparator c = true
  · obtain ⟨x, c, y, rfl, hc, hy⟩ := exists_last hsep
    obtain ⟨hpath, hext⟩ := filePath_append_cons hc hy x
    have hslash := h.1
    rw [hpath] at hstem
    rw [hext] at hlen hslash
    by_cases hnil : y = []
    · rw [if_pos hnil] at hlen hslash
      rw [base_of_not_mem hslash]
      omega
    · rw [if_neg hnil] at hlen hslash
      by_cases hc47 : c = 47
      · rw [hc47, base_append_cons hslash, ← hc47]
        omega
      · have hcy : 47 ∉ c :: y := by
          rw [List.mem_cons, not_or]
          exact ⟨Ne.symm hc47, hslash⟩
        rw [base_append hcy, List.length_append, List.length_cons]
        omega
  · simp only [not_exists, not_and, Bool.not_eq_true] at hsep
    have hext := (filePath_of_not_mem hsep).2
    have hslash := h.1
    rw [hext] at hlen hslash
    rw [base_of_not_mem hslash]
    omega

/-- **No archive has the log's own name.** -/
theorem place_name_ne (h : Named path) (u : RotateUnit) (t : TimeFields) :
    filePlace T (u.name t path) ≠ filePlace T path := by
  have htext : 0 < (u.text t).length := by
    cases u <;> simp [RotateUnit.text, dayText]
  have hle := length_base_le h
  intro heq
  rw [place_name h, filePlace, Prod.mk.injEq] at heq
  have hlen := congrArg List.length heq.2
  simp only [List.length_append, List.length_cons] at hlen
  omega

/-! ## The times of the rotations -/

/-- The time that is stored after a check. -/
def nextLast (last now : TimeFields) : TimeFields :=
  if last.day ≠ -1 ∧ last.day = now.day ∧ last.hour = now.hour ∧ last.minute = now.minute then last
  else now

/-- The times of the rotations of a log that is never empty, for what the clock says at the
checks. -/
def rotationTimes (u : RotateUnit) : TimeFields → List LocalTime → List TimeFields
  | _, [] => []
  | last, now :: rs =>
    (if last.day = -1 ∨ u.field now.fields = u.field last then [] else [last]) ++
      rotationTimes u (nextLast last now.fields) rs

/-- From the first check on. -/
def changeTimes (u : RotateUnit) (rs : List LocalTime) : List TimeFields := rotationTimes u {} rs

namespace CheckedLog

variable [DecidableEq D] {s s' : CheckedLog D} {now : LocalTime} {ok : Bool}

omit [DecidableEq D] in
/-- What a check calls `Rotate` with. -/
theorem calls_logs (u : RotateUnit) (path : Bytes) (s : CheckedLog D) (now : TimeFields) :
    (s.mgr.onCheck now (s.logs path u.type)).2 =
      if s.mgr.last.day = -1 ∨ u.field now = u.field s.mgr.last ∨ ¬ 0 < s.log.fileSize then []
      else [(path, u.name s.mgr.last path)] := by
  have hentries : (s.logs path u.type).entries = [⟨path, ⟨u.type, s.log.fileSize⟩⟩] := rfl
  by_cases hday : s.mgr.last.day = -1
  · rw [if_pos (.inl hday)]
    unfold onCheck
    simp [hday]
  by_cases hsize : 0 < s.log.fileSize
  · have hcalls : (s.mgr.onCheck now (s.logs path u.type)).2.filter (·.1 = path) =
        if u.field now = u.field s.mgr.last then [] else [(path, u.name s.mgr.last path)] :=
      calls_eq hday (AList.lookup_insert (∅ : LogTable)) rfl hsize
    have hall : ∀ r ∈ (s.mgr.onCheck now (s.logs path u.type)).2, r.1 = path := by
      intro r hr
      unfold onCheck at hr
      simp only [if_neg hday] at hr
      split_ifs at hr
      · cases hr
      · rw [rotateLogs, hentries, List.flatMap_singleton] at hr
        exact fst_of_mem_rotateLog hr
    have hfilter := List.filter_eq_self.2 fun r hr => decide_eq_true (hall r hr)
    rw [← hfilter]
    refine hcalls.trans ?_
    by_cases hfield : u.field now = u.field s.mgr.last
    · rw [if_pos hfield, if_pos (.inr (.inl hfield))]
    · rw [if_neg hfield, if_neg (by simp [hday, hfield, hsize])]
  · rw [if_pos (.inr (.inr hsize))]
    unfold onCheck
    simp only [if_neg hday]
    split_ifs
    · rfl
    · rw [rotateLogs, hentries, List.flatMap_singleton]
      simp [rotateMinutes, rotateHours, rotateDays, hsize]

/-- What a check has done. -/
theorem of_check (hs : s.step T path u.type (.check now ok) = some s') :
    s.log.stage = .idle ∧ s'.mgr.last = nextLast s.mgr.last now.fields ∧ (s'.log = s.log ∨
      (¬ (s.mgr.last.day = -1 ∨ u.field now.fields = u.field s.mgr.last)) ∧
        s.log.step (filePlace T path) (.rotate (filePlace T (u.name s.mgr.last path)) ok) =
          some s'.log) := by
  have hlast := onCheck_last s.mgr now.fields (s.logs path u.type)
  simp only [step] at hs
  by_cases hidle : s.log.stage = .idle
  swap
  · rw [if_neg hidle] at hs
    cases hs
  rw [if_pos hidle, calls_logs] at hs
  by_cases hno : s.mgr.last.day = -1 ∨ u.field now.fields = u.field s.mgr.last ∨
      ¬ 0 < s.log.fileSize
  · rw [if_pos hno] at hs
    cases hs
    exact ⟨hidle, hlast, .inl rfl⟩
  · rw [if_neg hno] at hs
    obtain ⟨log, hlog, hs'⟩ := Option.map_eq_some_iff.1 hs
    cases hs'
    exact ⟨hidle, hlast, .inr ⟨fun h => hno (h.imp_right .inl), hlog⟩⟩

/-- Only a renaming adds to the archives. -/
theorem archives_step {ν : Type*} [DecidableEq ν] {l l' : OpenLog ν} {filePath : ν}
    {e : LogEvent ν} (hs : l.step filePath e = some l') :
    l'.archives = l.archives ∨ ∃ file ok, e = .rotate file ok ∧
      l'.archives = l.archives ++ [file] := by
  cases e with
  | write msg taken =>
    cases hs
    exact .inl rfl
  | rotate file ok =>
    obtain ⟨-, -, rfl | ⟨-, fs, -, rfl⟩⟩ := OpenLog.of_rotate hs
    · exact .inl rfl
    · exact .inr ⟨file, ok, rfl, rfl⟩
  | reopen ok =>
    simp only [OpenLog.step] at hs
    split_ifs at hs <;> cases hs <;> exact .inl rfl
  | dup2 =>
    simp only [OpenLog.step] at hs
    split at hs
    · cases hs
      exact .inl rfl
    · cases hs
    · cases hs

/-- What another event has done. -/
theorem of_other {e : CheckEvent} (he : ∀ now ok, e ≠ .check now ok)
    (hs : s.step T path u.type e = some s') :
    s'.mgr = s.mgr ∧ (∀ es, readings (e :: es) = readings es) ∧
      ∃ ev, (∀ file ok, ev ≠ .rotate file ok) ∧
        s.log.step (filePlace T path) ev = some s'.log := by
  cases e with
  | check now ok => exact absurd rfl (he now ok)
  | write msg taken =>
    rw [step] at hs
    obtain ⟨log, hlog, rfl⟩ := Option.map_eq_some_iff.1 hs
    exact ⟨rfl, fun _ => rfl, _, fun _ _ => by simp, hlog⟩
  | reopen ok =>
    rw [step] at hs
    obtain ⟨log, hlog, rfl⟩ := Option.map_eq_some_iff.1 hs
    exact ⟨rfl, fun _ => rfl, _, fun _ _ => by simp, hlog⟩
  | dup2 =>
    rw [step] at hs
    obtain ⟨log, hlog, rfl⟩ := Option.map_eq_some_iff.1 hs
    exact ⟨rfl, fun _ => rfl, _, fun _ _ => by simp, hlog⟩

theorem check_or (e : CheckEvent) :
    (∃ now ok, e = .check now ok) ∨ ∀ now ok, e ≠ .check now ok := by
  cases e with
  | check now ok => exact .inl ⟨now, ok, rfl⟩
  | write _ _ | reopen _ | dup2 => exact .inr fun _ _ => by simp

/-- **The archives of a run are from the times at which the unit is seen to change.** -/
theorem archives_of_run {es : List CheckEvent} : ∀ {s t : CheckedLog D},
    run (step T path u.type) s es = some t → ∃ ns, t.log.archives = s.log.archives ++ ns ∧
      ns.Sublist ((rotationTimes u s.mgr.last (readings es)).map fun τ =>
        filePlace T (u.name τ path)) := by
  induction es with
  | nil =>
    intro s t h
    cases h
    exact ⟨[], (List.append_nil _).symm, List.nil_sublist _⟩
  | cons e es ih =>
    intro s t h
    obtain ⟨v, hv, h⟩ := run_cons_eq_some.1 h
    obtain ⟨ns, harchives, hsub⟩ := ih h
    rcases check_or e with ⟨now, ok, rfl⟩ | he
    · obtain ⟨-, hlast, hlog⟩ := of_check hv
      have htimes : rotationTimes u s.mgr.last (readings (.check now ok :: es)) =
          (if s.mgr.last.day = -1 ∨ u.field now.fields = u.field s.mgr.last then []
            else [s.mgr.last]) ++ rotationTimes u v.mgr.last (readings es) := by
        rw [hlast]
        rfl
      rw [htimes, List.map_append]
      rcases hlog with hsame | ⟨hchange, hrotate⟩
      · exact ⟨ns, by rw [harchives, hsame], hsub.trans (List.sublist_append_right _ _)⟩
      · rw [if_neg hchange]
        rcases archives_step hrotate with hsame | ⟨file, ok', heq, hadd⟩
        · exact ⟨ns, by rw [harchives, hsame], hsub.trans (List.sublist_append_right _ _)⟩
        · cases heq
          exact ⟨_ :: ns, by rw [harchives, hadd, List.append_assoc]; rfl, hsub.cons_cons _⟩
    · obtain ⟨hmgr, hreadings, ev, hev, hlog⟩ := of_other he hv
      rw [hmgr] at hsub
      rw [hreadings]
      rcases archives_step hlog with hsame | ⟨file, ok, heq, -⟩
      · exact ⟨ns, by rw [harchives, hsame], hsub⟩
      · exact absurd heq (hev file ok)

/-- What has been written is in its pieces, in every run. -/
theorem holds_of_run (hp : Named path) {fs : FileSystem (Option D × Bytes) UInt8}
    {es : List CheckEvent} {t : CheckedLog D} (h : run (step T path u.type)
      { log := OpenLog.start fs (filePlace T path) } es = some t) :
    ∃ ps tail, OpenLog.Holds (filePlace T path) t.log ps tail := by
  refine run_inv (fun s : CheckedLog D => ∃ ps tail, OpenLog.Holds (filePlace T path) s.log ps tail)
    (fun s e s' ⟨ps, tail, hs⟩ hv => ?_) ⟨_, _, .start fs (filePlace T path)⟩ h
  rcases check_or e with ⟨now, ok, rfl⟩ | he
  · obtain ⟨-, -, hsame | ⟨-, hrotate⟩⟩ := of_check hv
    · exact ⟨ps, tail, hsame ▸ hs⟩
    · refine hs.step (fun file ok' heq => ?_) hrotate
      cases heq
      exact place_name_ne hp u _
  · obtain ⟨-, -, ev, hev, hlog⟩ := of_other he hv
    exact hs.step (fun file ok heq => absurd heq (hev file ok)) hlog

/-- A check that calls nothing. -/
theorem check_of_nil {type : RotateType} {s : CheckedLog D} {now : LocalTime} (ok : Bool)
    (hidle : s.log.stage = .idle)
    (h : (s.mgr.onCheck now.fields (s.logs path type)).2 = []) :
    step T path type s (.check now ok) =
      some { s with mgr := (s.mgr.onCheck now.fields (s.logs path type)).1 } := by
  simp only [step, if_pos hidle, h]

/-- A check that rotates the log. -/
theorem check_of_cons {type : RotateType} {s : CheckedLog D} {now : LocalTime} (ok : Bool)
    {name file : Bytes} {calls : List (Bytes × Bytes)} (hidle : s.log.stage = .idle)
    (h : (s.mgr.onCheck now.fields (s.logs path type)).2 = (name, file) :: calls) :
    step T path type s (.check now ok) =
      (s.log.step (filePlace T path) (.rotate (filePlace T file) ok)).map
        fun log => ⟨(s.mgr.onCheck now.fields (s.logs path type)).1, log⟩ := by
  simp only [step, if_pos hidle, h]

/-- A log that is written to between the checks is rotated at all of these times. -/
theorem exists_run (u : RotateUnit) (path : Bytes) (rs : List LocalTime) :
    ∀ {s : CheckedLog D}, s.log.stage = .idle →
      s.log.fs.entry (filePlace T path) = some s.log.file →
      ∃ es t, readings es = rs ∧ run (step T path u.type) s es = some t ∧
        t.log.archives = s.log.archives ++
          (rotationTimes u s.mgr.last rs).map fun τ => filePlace T (u.name τ path) := by
  induction rs with
  | nil => exact fun {s} _ _ => ⟨[], s, rfl, rfl, (List.append_nil _).symm⟩
  | cons now rs ih =>
    intro s hidle hentry
    set v : CheckedLog D := { s with log := { s.log with
      fs := s.log.fs.append s.log.file [0], written := s.log.written ++ [0] } } with hv
    have hsize : 0 < v.log.fileSize := by simp [hv, OpenLog.fileSize]
    have hidle' : v.log.stage = .idle := hidle
    have hcalls := calls_logs u path v now.fields
    have hlast := onCheck_last v.mgr now.fields (v.logs path u.type)
    have hwrite : step T path u.type s (.write [0] 1) = some v := rfl
    by_cases hno : s.mgr.last.day = -1 ∨ u.field now.fields = u.field s.mgr.last
    · rw [if_pos (hno.imp_right .inl)] at hcalls
      have hcheck := check_of_nil (T := T) true hidle' hcalls
      obtain ⟨es, t, hreadings, hrun, harchives⟩ := ih (s := { v with
        mgr := (v.mgr.onCheck now.fields (v.logs path u.type)).1 }) hidle hentry
      refine ⟨.write [0] 1 :: .check now true :: es, t, ?_, ?_, ?_⟩
      · rw [← hreadings]
        rfl
      · rw [run_cons_eq_some]
        refine ⟨v, hwrite, ?_⟩
        rw [run_cons_eq_some]
        exact ⟨_, hcheck, hrun⟩
      · rw [harchives, hlast, rotationTimes, if_pos hno]
        rfl
    · have hyes : ¬ (v.mgr.last.day = -1 ∨ u.field now.fields = u.field v.mgr.last ∨
          ¬ 0 < v.log.fileSize) := by
        rintro (h | h | h)
        · exact hno (.inl h)
        · exact hno (.inr h)
        · exact h hsize
      rw [if_neg hyes] at hcalls
      have hcheck := check_of_cons (T := T) true hidle' hcalls
      -- the renaming, the `open` and `dup2`
      set name := filePlace T (u.name s.mgr.last path) with hname
      obtain ⟨fs, hfs⟩ := Option.isSome_iff_exists.1
        (FileSystem.rename_isSome v.log.fs name hentry)
      have hrotate : v.log.step (filePlace T path) (.rotate name true) =
          some { v.log with
            fs := fs, stage := .renamed, archives := v.log.archives ++ [name] } := by
        rw [OpenLog.step, if_pos ⟨hidle, hsize⟩, hfs]
        rfl
      have hcheck' := hcheck.trans (congrArg (Option.map fun log =>
        (⟨(v.mgr.onCheck now.fields (v.logs path u.type)).1, log⟩ : CheckedLog D)) hrotate)
      obtain ⟨es, t, hreadings, hrun, harchives⟩ := ih (s := {
        mgr := (v.mgr.onCheck now.fields (v.logs path u.type)).1
        log := { v.log with
          fs := (fs.openFile (filePlace T path)).1, file := (fs.openFile (filePlace T path)).2
          stage := .idle, archives := v.log.archives ++ [name] } }) rfl
        (FileSystem.entry_openFile fs (filePlace T path))
      refine ⟨.write [0] 1 :: .check now true :: .reopen true :: .dup2 :: es, t, ?_, ?_, ?_⟩
      · rw [← hreadings]
        rfl
      · rw [run_cons_eq_some]
        refine ⟨v, hwrite, ?_⟩
        rw [run_cons_eq_some]
        refine ⟨_, hcheck', ?_⟩
        rw [run_cons_eq_some]
        refine ⟨_, rfl, ?_⟩
        rw [run_cons_eq_some]
        exact ⟨_, rfl, hrun⟩
      · rw [harchives, hlast, rotationTimes, if_neg hno, List.append_assoc]
        rfl

end CheckedLog

/-! ## The clock -/

theorem of_mem_rotationTimes {rs : List LocalTime} : ∀ {last : TimeFields},
    t ∈ rotationTimes u last rs → last.day ≠ -1 ∧ t = last ∨ ∃ r ∈ rs, t = r.fields := by
  induction rs with
  | nil => exact fun h => (by cases h)
  | cons now rs ih =>
    intro last h
    rw [rotationTimes, List.mem_append] at h
    rcases h with h | h
    · split_ifs at h with hno
      · cases h
      · exact .inl ⟨fun hday => hno (.inl hday), List.mem_singleton.1 h⟩
    · rcases ih h with ⟨-, rfl⟩ | ⟨r, hr, rfl⟩
      · unfold nextLast
        split_ifs with hkeep
        · exact .inl ⟨hkeep.1, rfl⟩
        · exact .inr ⟨now, List.mem_cons_self .., rfl⟩
      · exact .inr ⟨r, List.mem_cons_of_mem _ hr, rfl⟩

/-- The times are those of readings. -/
theorem valid_of_mem_changeTimes {rs : List LocalTime} (hvalid : ∀ r ∈ rs, r.fields.Valid)
    (h : t ∈ changeTimes u rs) : t.Valid := by
  rcases of_mem_rotationTimes h with ⟨hday, -⟩ | ⟨r, hr, rfl⟩
  · exact absurd rfl hday
  · exact hvalid r hr

/-- The names of two rotations are the same exactly if the times in them are. -/
theorem nodup_places_iff (u : RotateUnit) (hp : Named path) {rs : List LocalTime}
    (hvalid : ∀ r ∈ rs, r.fields.Valid) :
    ((changeTimes u rs).map fun τ => filePlace T (u.name τ path)).Nodup ↔
      ((changeTimes u rs).map u.truncate).Nodup := by
  rw [List.Nodup, List.Nodup, List.pairwise_map, List.pairwise_map]
  refine List.Pairwise.iff_of_mem fun {τ τ'} hτ hτ' => not_congr ?_
  exact place_name_inj hp (valid_of_mem_changeTimes hvalid hτ) (valid_of_mem_changeTimes hvalid hτ')

/-- Rotations at different times lose nothing. -/
theorem kept_of_nodup [DecidableEq D] (u : RotateUnit) (hp : Named path)
    {fs : FileSystem (Option D × Bytes) UInt8} {es : List CheckEvent} {t : CheckedLog D}
    (hvalid : ∀ r ∈ CheckedLog.readings es, r.fields.Valid)
    (hnodup : ((changeTimes u (CheckedLog.readings es)).map u.truncate).Nodup)
    (hrun : run (CheckedLog.step T path u.type)
      { log := OpenLog.start fs (filePlace T path) } es = some t) :
    t.log.held = t.log.written := by
  obtain ⟨ps, tail, hholds⟩ := CheckedLog.holds_of_run hp hrun
  obtain ⟨ns, harchives, hsub⟩ := CheckedLog.archives_of_run hrun
  refine hholds.kept_iff.2 ?_
  rw [harchives]
  exact hsub.nodup ((nodup_places_iff u hp hvalid).2 hnodup)

/-- **Which clocks lose nothing of a log**: those for which all times at which its unit is seen to
change are different, whatever is written between the checks and whatever fails. -/
theorem clock_kept_iff [DecidableEq D] (T : DirTree D) (u : RotateUnit) (hp : Named path)
    (fs : FileSystem (Option D × Bytes) UInt8) {rs : List LocalTime}
    (hvalid : ∀ r ∈ rs, r.fields.Valid) :
    (∀ es t, CheckedLog.readings es = rs → run (CheckedLog.step T path u.type)
        { log := OpenLog.start fs (filePlace T path) } es = some t → t.log.held = t.log.written) ↔
      ((changeTimes u rs).map u.truncate).Nodup := by
  constructor
  · intro h
    rw [← nodup_places_iff u hp hvalid]
    obtain ⟨es, t, hreadings, hrun, harchives⟩ := CheckedLog.exists_run (T := T) u path rs
      (s := { log := OpenLog.start fs (filePlace T path) }) rfl
      (FileSystem.entry_openFile fs (filePlace T path))
    obtain ⟨ps, tail, hholds⟩ := CheckedLog.holds_of_run hp hrun
    have hnodup := hholds.kept_iff.1 (h es t hreadings hrun)
    rw [harchives] at hnodup
    exact hnodup
  · rintro hnodup es t rfl hrun
    exact kept_of_nodup u hp hvalid hnodup hrun

/-- Five checks, the fourth at the time of the first. -/
def backReadings : List LocalTime :=
  [⟨⟨2024, 10, 27, 2, 0⟩, by decide⟩, ⟨⟨2024, 10, 27, 2, 1⟩, by decide⟩,
    ⟨⟨2024, 10, 27, 2, 59⟩, by decide⟩, ⟨⟨2024, 10, 27, 2, 0⟩, by decide⟩,
    ⟨⟨2024, 10, 27, 2, 1⟩, by decide⟩]

/-- The hour from two to three comes twice: what was written in the first is replaced. -/
theorem clock_loses : ¬ ∀ es t, CheckedLog.readings es = backReadings →
    run (CheckedLog.step logsTree (ascii "app.log") .kRotateMinute)
      { log := OpenLog.start .empty (filePlace logsTree (ascii "app.log")) } es = some t →
        t.log.held = t.log.written := by
  intro h
  have hvalid : ∀ r ∈ backReadings, r.fields.Valid := by
    intro r hr
    simp only [backReadings, List.mem_cons, List.not_mem_nil, or_false] at hr
    rcases hr with rfl | rfl | rfl | rfl | rfl <;> exact ⟨by decide, by decide, by decide,
      by decide, by decide⟩
  have hnamed : Named (ascii "app.log") := ⟨by decide +kernel, by decide +kernel⟩
  have hnodup := (clock_kept_iff logsTree .minute hnamed .empty hvalid).1 h
  revert hnodup
  decide +kernel

/-- The times between which a clock that goes forward is cut are in order. -/
theorem pairwise_rotationTimes {rs : List LocalTime} : ∀ {last : TimeFields},
    (u.truncate last :: rs.map fun r => u.truncate r.fields).IsChain (· ≤ ·) →
      ((rotationTimes u last rs).map u.truncate).Pairwise (· < ·) ∧
        ∀ τ ∈ rotationTimes u last rs, u.truncate last ≤ u.truncate τ := by
  induction rs with
  | nil => exact fun _ => ⟨List.Pairwise.nil, fun _ h => (by cases h)⟩
  | cons now rs ih =>
    intro last h
    rw [List.map_cons, List.isChain_cons_cons] at h
    obtain ⟨hle, hchain⟩ := h
    -- the stored time is the old one or the new one
    have hnext : (u.truncate (nextLast last now.fields) ::
        rs.map fun r => u.truncate r.fields).IsChain (· ≤ ·) ∧
          u.truncate last ≤ u.truncate (nextLast last now.fields) := by
      unfold nextLast
      split_ifs with hkeep
      · refine ⟨?_, le_rfl⟩
        cases rs with
        | nil => exact .singleton _
        | cons r rs =>
          rw [List.map_cons, List.isChain_cons_cons] at hchain ⊢
          exact ⟨hle.trans hchain.1, hchain.2⟩
      · exact ⟨hchain, hle⟩
    obtain ⟨hpair, hge⟩ := ih hnext.1
    rw [rotationTimes]
    split_ifs with hno
    · rw [List.nil_append]
      exact ⟨hpair, fun τ hτ => hnext.2.trans (hge τ hτ)⟩
    · have hfield : u.field now.fields ≠ u.field last := fun heq => hno (.inr heq)
      have hnow : nextLast last now.fields = now.fields := by
        refine if_neg fun hkeep => hfield ?_
        cases u
        · exact hkeep.2.2.2.symm
        · exact hkeep.2.2.1.symm
        · exact hkeep.2.1.symm
      have hne : u.truncate last ≠ u.truncate now.fields := by
        intro heq
        refine hfield ?_
        cases u <;> simp only [RotateUnit.truncate, List.cons.injEq] at heq
        · exact heq.2.2.2.2.1.symm
        · exact heq.2.2.2.1.symm
        · exact heq.2.2.1.symm
      have hlt : ∀ τ ∈ rotationTimes u (nextLast last now.fields) rs,
          u.truncate last < u.truncate τ := by
        intro τ hτ
        have hτ' := hge τ hτ
        rw [hnow] at hτ'
        exact (lt_of_le_of_ne hle hne).trans_le hτ'
      rw [List.singleton_append, List.map_cons, List.pairwise_cons]
      refine ⟨⟨fun x hx => ?_, hpair⟩, fun τ hτ => ?_⟩
      · obtain ⟨τ, hτ, rfl⟩ := List.mem_map.1 hx
        exact hlt τ hτ
      · rcases List.mem_cons.1 hτ with rfl | hτ
        · exact le_rfl
        · exact (hlt τ hτ).le

/-- **A clock that never goes back loses nothing.** -/
theorem kept_of_forward [DecidableEq D] (T : DirTree D) (u : RotateUnit) (hp : Named path)
    (fs : FileSystem (Option D × Bytes) UInt8) {es : List CheckEvent} {t : CheckedLog D}
    (hvalid : ∀ r ∈ CheckedLog.readings es, r.fields.Valid)
    (hforward : ((CheckedLog.readings es).map fun r => u.truncate r.fields).IsChain (· ≤ ·))
    (hrun : run (CheckedLog.step T path u.type)
      { log := OpenLog.start fs (filePlace T path) } es = some t) :
    t.log.held = t.log.written := by
  refine kept_of_nodup u hp hvalid ?_ hrun
  cases hrs : CheckedLog.readings es with
  | nil => exact List.nodup_nil
  | cons r rs =>
    rw [hrs] at hforward
    exact (pairwise_rotationTimes hforward).1.imp ne_of_lt

/-- Two lines, and a change of the minute between them. -/
def twoMinutes : List CheckEvent :=
  [.check ⟨⟨2024, 5, 17, 10, 0⟩, by decide⟩ true, .write [65, 10] 2,
    .check ⟨⟨2024, 5, 17, 10, 1⟩, by decide⟩ true, .write [66, 10] 2, .reopen true, .dup2]

theorem kept_two_minutes : ∃ t, run (CheckedLog.step logsTree (ascii "app.log") .kRotateMinute)
    { log := OpenLog.start .empty (filePlace logsTree (ascii "app.log")) } twoMinutes = some t ∧
      t.log.held = t.log.written := by
  obtain ⟨t, ht⟩ := Option.isSome_iff_exists.1 (show (run
    (CheckedLog.step logsTree (ascii "app.log") .kRotateMinute)
    { log := OpenLog.start .empty (filePlace logsTree (ascii "app.log")) } twoMinutes).isSome by
      decide +kernel)
  have hnamed : Named (ascii "app.log") := ⟨by decide +kernel, by decide +kernel⟩
  refine ⟨t, ht, kept_of_forward logsTree .minute hnamed .empty ?_ ?_ ht⟩
  · intro r hr
    simp only [CheckedLog.readings, twoMinutes, List.filterMap_cons, List.filterMap_nil,
      List.mem_cons, List.not_mem_nil, or_false] at hr
    rcases hr with rfl | rfl <;> exact ⟨by decide, by decide, by decide, by decide, by decide⟩
  · decide +kernel

end HttpNest
