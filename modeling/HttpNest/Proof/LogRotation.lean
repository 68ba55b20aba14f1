import HttpNest.Lib.Progress
import HttpNest.Spec.FileLog

/-!
# What is found of a log

Bytes are written to a log at any time, also between the steps of a rotation. `Holds` is the
invariant: what has been written is cut into pieces, one for each renaming and the rest; the bytes
of a piece are where it has been renamed to, unless that name has been used again. So nothing is
lost exactly if all archives have different names (`archives_kept_iff`), whatever fails.

A rotation that cannot open the log again is the last one: from then on there is no file to rename,
and all bytes go to the archive (`rotates_again_iff`).
-/

namespace HttpNest

open Assignments EventRun FileSystem

namespace OpenLog

variable {ν : Type*} {filePath new : ν} {s s' t : OpenLog ν} {e : LogEvent ν}
  {es : List (LogEvent ν)} {ps qs : List (ν × Bytes)} {fs : FileSystem ν UInt8} {tail : Bytes}

/-- The log is not renamed to its own name. -/
def Renames (filePath : ν) (e : LogEvent ν) : Prop :=
  ∀ file ok, e = .rotate file ok → file ≠ filePath

/-- The file that is written to is the archive `n`, and `ps` ends in its piece. -/
structure Moved (s : OpenLog ν) (ps : List (ν × Bytes)) (n : ν) : Prop where
  last : ∃ qs, ps = qs ++ [(n, s.fs.content s.file)]
  entry : s.fs.entry n = some s.file

theorem Moved.mem (h : Moved s ps new) (harchives : s.archives = ps.map Prod.fst) :
    new ∈ s.archives := by
  obtain ⟨qs, hqs⟩ := h.last
  rw [harchives, hqs, List.map_append]
  exact List.mem_append_right _ (List.mem_singleton_self _)

/-- The file that is written to has the name of the last archive. -/
def LastArchive (s : OpenLog ν) : Prop := ∃ n ∈ s.archives.getLast?, s.fs.entry n = some s.file

theorem Moved.lastArchive {n : ν} (h : Moved s ps n) (harchives : s.archives = ps.map Prod.fst) :
    LastArchive s := by
  obtain ⟨qs, hqs⟩ := h.last
  refine ⟨n, ?_, h.entry⟩
  rw [harchives, hqs]
  simp

/-- Where the bytes behind the last renaming go, and which those are that are in no archive. -/
inductive Place (filePath : ν) (s : OpenLog ν) (ps : List (ν × Bytes)) : Bytes → Prop
  | named : s.stage = .idle → s.fs.entry filePath = some s.file →
    Place filePath s ps (s.fs.content s.file)
  | renamed {n : ν} : Moved s ps n → s.stage = .renamed → s.fs.entry filePath = none →
    Place filePath s ps []
  | reopened {n : ν} {i : ℕ} : Moved s ps n → s.stage = .reopened i →
    s.fs.entry filePath = some i → s.fs.content i = [] → Place filePath s ps []
  | cut {n : ν} : Moved s ps n → s.stage = .idle → s.fs.entry filePath = none →
    Place filePath s ps []

variable [DecidableEq ν]

/-- `ps` are the pieces, and `tail` is the rest. -/
structure Holds (filePath : ν) (s : OpenLog ν) (ps : List (ν × Bytes)) (tail : Bytes) : Prop where
  archives : s.archives = ps.map Prod.fst
  written : s.written = ps.flatMap Prod.snd ++ tail
  kept : ∀ n ∈ s.archives, s.fs.read n = lastValue ps n
  nonempty : ∀ p ∈ ps, p.2 ≠ []
  own : filePath ∉ s.archives
  place : Place filePath s ps tail

theorem Holds.start (fs : FileSystem ν UInt8) (filePath : ν) :
    Holds filePath (start fs filePath) [] (start fs filePath).written where
  archives := rfl
  written := rfl
  kept _ h := (by cases h)
  nonempty _ h := (by cases h)
  own := List.not_mem_nil
  place := .named rfl (entry_openFile fs filePath)

/-! ## One step -/

/-- An archive is not the file under the log's name. -/
theorem Holds.entry_ne (h : Holds filePath s ps tail) {n : ν} (hn : n ∈ s.archives) {i : ℕ}
    (hi : s.fs.entry filePath = some i) : s.fs.entry n ≠ some i := by
  intro hn'
  exact h.own (s.fs.inj _ _ _ hn' hi ▸ hn)

/-- A write to the archive makes its piece longer. -/
theorem Holds.write_moved (h : Holds filePath s ps []) {n : ν} (hm : Moved s ps n)
    (hs : s.step filePath e = some s') {msg : Bytes} {taken : ℕ} (he : e = .write msg taken) :
    ∃ qs, Moved s' qs n ∧ s'.archives = qs.map Prod.fst ∧ s'.written = qs.flatMap Prod.snd ∧
      (∀ m ∈ s'.archives, s'.fs.read m = lastValue qs m) ∧ ∀ p ∈ qs, p.2 ≠ [] := by
  subst he
  cases hs
  obtain ⟨qs, hqs⟩ := hm.last
  refine ⟨qs ++ [(n, s.fs.content s.file ++ msg.take taken)], ⟨⟨qs, ?_⟩, hm.entry⟩, ?_, ?_, ?_, ?_⟩
  · simp
  · rw [h.archives, hqs]
    simp
  · rw [h.written, hqs]
    simp
  · intro m hmem
    by_cases hmn : m = n
    · rw [hmn, read_append_self hm.entry, lastValue_append, lastValue_self]
      rfl
    · have hne : s.fs.entry m ≠ some s.file := fun hm' => hmn (s.fs.inj _ _ _ hm' hm.entry)
      have hother : ∀ xs : Bytes, lastValue [(n, xs)] m = none := by
        intro xs
        rw [lastValue_cons, if_neg (by simpa using hmn)]
        rfl
      rw [read_append_of_ne hne, h.kept m hmem, hqs, lastValue_append, lastValue_append, hother,
        hother]
  · intro p hp
    rcases List.mem_append.1 hp with hp | hp
    · exact h.nonempty p (hqs ▸ List.mem_append_left _ hp)
    · have hne := h.nonempty (n, s.fs.content s.file) (hqs ▸ by simp)
      rw [List.mem_singleton.1 hp]
      exact List.append_ne_nil_of_left_ne_nil hne _

theorem Holds.write (h : Holds filePath s ps tail) {msg : Bytes} {taken : ℕ}
    (hs : s.step filePath (.write msg taken) = some s') :
    ∃ qs tail', Holds filePath s' qs tail' := by
  cases h.place with
  | named hstage hentry =>
    cases hs
    refine ⟨ps, _, h.archives, ?_, fun n hn => ?_, h.nonempty, h.own, .named hstage hentry⟩
    · show s.written ++ _ = _
      rw [h.written, content_append_self, List.append_assoc]
    · rw [read_append_of_ne (h.entry_ne hn hentry)]
      exact h.kept n hn
  | renamed hm hstage hentry =>
    obtain ⟨qs, hm', harchives, hwritten, hkept, hne⟩ := h.write_moved hm hs rfl
    cases hs
    exact ⟨qs, [], harchives, by rw [hwritten, List.append_nil], hkept, hne, h.own,
      .renamed hm' hstage hentry⟩
  | @reopened n i hm hstage hentry hcontent =>
    obtain ⟨qs, hm', harchives, hwritten, hkept, hne⟩ := h.write_moved hm hs rfl
    -- the new file is another one
    have hfile : i ≠ s.file := by
      rintro rfl
      exact h.entry_ne (hm.mem h.archives) hentry hm.entry
    cases hs
    exact ⟨qs, [], harchives, by rw [hwritten, List.append_nil], hkept, hne, h.own,
      .reopened hm' hstage hentry ((Function.update_of_ne hfile _ _).trans hcontent)⟩
  | cut hm hstage hentry =>
    obtain ⟨qs, hm', harchives, hwritten, hkept, hne⟩ := h.write_moved hm hs rfl
    cases hs
    exact ⟨qs, [], harchives, by rw [hwritten, List.append_nil], hkept, hne, h.own,
      .cut hm' hstage hentry⟩

/-- What a call of `Rotate` does first. -/
theorem of_rotate {ok : Bool} (hs : s.step filePath (.rotate new ok) = some s') :
    s.stage = .idle ∧ s.fs.content s.file ≠ [] ∧ (s' = s ∨ ok = true ∧ ∃ fs,
      s.fs.rename filePath new = some fs ∧
        s' = { s with fs := fs, stage := .renamed, archives := s.archives ++ [new] }) := by
  simp only [step] at hs
  by_cases hguard : s.stage = .idle ∧ 0 < s.fileSize
  swap
  · rw [if_neg hguard] at hs
    cases hs
  rw [if_pos hguard] at hs
  obtain ⟨hidle, hsize⟩ := hguard
  have hne : s.fs.content s.file ≠ [] := by
    intro hnil
    rw [fileSize, hnil] at hsize
    cases hsize
  refine ⟨hidle, hne, ?_⟩
  cases hr : s.fs.rename filePath new with
  | none =>
    rw [hr] at hs
    cases hs
    exact .inl rfl
  | some fs =>
    rw [hr] at hs
    cases ok with
    | false =>
      cases hs
      exact .inl rfl
    | true =>
      cases hs
      exact .inr ⟨rfl, fs, rfl, rfl⟩

theorem Holds.rotate (h : Holds filePath s ps tail) {ok : Bool} (hnew : new ≠ filePath)
    (hs : s.step filePath (.rotate new ok) = some s') :
    ∃ qs tail', Holds filePath s' qs tail' := by
  obtain ⟨hidle, hne, rfl | ⟨-, fs, hfs, rfl⟩⟩ := of_rotate hs
  · exact ⟨ps, tail, h⟩
  obtain ⟨i, hi, hentry, hcontent⟩ := rename_eq_some hfs
  cases h.place with
  | renamed _ hstage _ => rw [hidle] at hstage; cases hstage
  | reopened _ hstage _ _ => rw [hidle] at hstage; cases hstage
  | cut _ _ hnone => rw [hi] at hnone; cases hnone
  | named _ hname =>
    -- the bytes so far are the archive's
    obtain rfl : i = s.file := Option.some.inj (hi.symm.trans hname)
    have hread : fs.read new = some (s.fs.content s.file) := by
      rw [read_rename_new hfs, FileSystem.read, hi, Option.map_some]
    refine ⟨ps ++ [(new, s.fs.content s.file)], [], ?_, ?_, fun n hn => ?_, fun p hp => ?_, ?_,
      .renamed (n := new) ⟨⟨ps, ?_⟩, ?_⟩ rfl ?_⟩
    · simp [h.archives]
    · simp [h.written]
    · show fs.read n = _
      rw [lastValue_append, lastValue_cons, lastValue_nil, Option.none_or]
      by_cases hn' : n = new
      · rw [hn', hread, if_pos (beq_self_eq_true _)]
        rfl
      · have hmem : n ∈ s.archives := by
          rcases List.mem_append.1 hn with hn | hn
          · exact hn
          · exact absurd (List.mem_singleton.1 hn) hn'
        have hown : n ≠ filePath := fun he => h.own (he ▸ hmem)
        rw [(read_rename_of_ne hfs hown hn').2, h.kept n hmem, if_neg (by simpa using hn')]
        rfl
    · rcases List.mem_append.1 hp with hp | hp
      · exact h.nonempty p hp
      · rw [List.mem_singleton.1 hp]
        exact hne
    · intro hmem
      rcases List.mem_append.1 hmem with hmem | hmem
      · exact h.own hmem
      · exact hnew (List.mem_singleton.1 hmem).symm
    · show _ = ps ++ [(new, fs.content s.file)]
      rw [hcontent]
    · show fs.entry new = some s.file
      rw [hentry, Function.update_self]
    · show fs.entry filePath = none
      rw [hentry, Function.update_of_ne hnew.symm, Function.update_self]

theorem Holds.reopen (h : Holds filePath s ps tail) {ok : Bool}
    (hs : s.step filePath (.reopen ok) = some s') : ∃ qs tail', Holds filePath s' qs tail' := by
  simp only [step] at hs
  split_ifs at hs with hstage hok
  · cases hs
    cases h.place with
    | named hidle _ => rw [hstage] at hidle; cases hidle
    | reopened _ hre _ _ => rw [hstage] at hre; cases hre
    | cut _ hidle _ => rw [hstage] at hidle; cases hidle
    | @renamed n hm _ hnone =>
      have hfile := s.fs.lt_next _ _ hm.entry
      have hne : ∀ n ∈ s.archives, n ≠ filePath := fun n hn he => h.own (he ▸ hn)
      have hcontent : (s.fs.openFile filePath).1.content s.file = s.fs.content s.file := by
        rw [openFile_of_none hnone]
        exact Function.update_of_ne (by omega) _ _
      refine ⟨ps, [], h.archives, h.written, fun n hn => ?_, h.nonempty, h.own,
        .reopened (n := n) ⟨?_, ?_⟩ rfl (entry_openFile s.fs filePath) ?_⟩
      · exact (read_openFile_of_ne (hne n hn)).2.trans (h.kept n hn)
      · show ∃ qs, ps = qs ++ [(n, (s.fs.openFile filePath).1.content s.file)]
        rw [hcontent]
        exact hm.last
      · exact (read_openFile_of_ne (hne _ (hm.mem h.archives))).1.trans hm.entry
      · show (s.fs.openFile filePath).1.content (s.fs.openFile filePath).2 = []
        rw [openFile_of_none hnone]
        exact Function.update_self ..
  · cases hs
    cases h.place with
    | named hidle _ => rw [hstage] at hidle; cases hidle
    | reopened _ hre _ _ => rw [hstage] at hre; cases hre
    | cut _ hidle _ => rw [hstage] at hidle; cases hidle
    | @renamed n hm _ hnone =>
      exact ⟨ps, [], h.archives, h.written, h.kept, h.nonempty, h.own,
        .cut (n := n) ⟨hm.last, hm.entry⟩ rfl hnone⟩

theorem Holds.dup2 (h : Holds filePath s ps tail) (hs : s.step filePath .dup2 = some s') :
    ∃ qs tail', Holds filePath s' qs tail' := by
  cases h.place with
  | named hstage _ => simp [step, hstage] at hs
  | renamed _ hstage _ => simp [step, hstage] at hs
  | cut _ hstage _ => simp [step, hstage] at hs
  | reopened hm hstage hentry hcontent =>
    simp only [step, hstage, Option.some.injEq] at hs
    subst hs
    refine ⟨ps, _, h.archives, ?_, h.kept, h.nonempty, h.own, .named rfl hentry⟩
    rw [hcontent]
    exact h.written

theorem Holds.step (h : Holds filePath s ps tail) (he : Renames filePath e)
    (hs : s.step filePath e = some s') : ∃ qs tail', Holds filePath s' qs tail' := by
  cases e with
  | write msg taken => exact h.write hs
  | rotate file ok => exact h.rotate (he file ok rfl) hs
  | reopen ok => exact h.reopen hs
  | dup2 => exact h.dup2 hs

/-! ## Runs -/

theorem holds_of_run (hnames : ∀ e ∈ es, Renames filePath e)
    (hrun : run (OpenLog.step filePath) (start fs filePath) es = some t) :
    ∃ ps tail, Holds filePath t ps tail :=
  run_inv_of_meets (fun s => ∃ ps tail, Holds filePath s ps tail)
    (fun _ _ _ ⟨_, _, h⟩ he hs => h.step he hs) ⟨_, _, .start fs filePath⟩
    (meets_of_forall hnames) hrun

theorem Holds.held_eq (h : Holds filePath s ps tail) : s.held = lastPieces ps ++ tail := by
  have hpieces : (s.archives.dedup.flatMap fun n => (s.fs.read n).getD []) = lastPieces ps := by
    rw [lastPieces, ← h.archives]
    refine List.flatMap_congr fun n hn => ?_
    rw [h.kept n (List.mem_dedup.1 hn)]
  have hmoved : ∀ {n : ν}, Moved s ps n →
      (s.archives.any fun n => s.fs.entry n = some s.file) = true := fun hm =>
    List.any_eq_true.2 ⟨_, hm.mem h.archives, decide_eq_true hm.entry⟩
  rw [held, hpieces]
  congr 1
  cases h.place with
  | named _ hentry =>
    rw [if_neg]
    rw [Bool.not_eq_true, List.any_eq_false]
    intro n hn
    rw [decide_eq_true_eq]
    exact h.entry_ne hn hentry
  | renamed hm _ _ => rw [if_pos (hmoved hm)]
  | reopened hm _ _ _ => rw [if_pos (hmoved hm)]
  | cut hm _ _ => rw [if_pos (hmoved hm)]

theorem Holds.kept_iff (h : Holds filePath s ps tail) :
    s.held = s.written ↔ s.archives.Nodup := by
  rw [h.held_eq, h.written, List.append_cancel_right_eq, h.archives]
  exact lastPieces_eq_iff h.nonempty

/-- **All that has been written is found, in order, exactly if no name has been used again.** -/
theorem archives_kept_iff (hnames : ∀ e ∈ es, Renames filePath e)
    (hrun : run (OpenLog.step filePath) (start fs filePath) es = some t) :
    t.held = t.written ↔ t.archives.Nodup := by
  obtain ⟨ps, tail, h⟩ := holds_of_run hnames hrun
  exact h.kept_iff

/-- Two rotations to the name `1`. -/
def reused : List (LogEvent ℕ) :=
  [.write [65] 1, .rotate 1 true, .reopen true, .dup2, .write [66] 1, .rotate 1 true]

/-- What was written before the first of them is lost. -/
theorem archives_kept_iff_reused : ∃ t, run (OpenLog.step 0) (start .empty 0) reused = some t ∧
    t.held ≠ t.written := by
  obtain ⟨t, ht⟩ := Option.isSome_iff_exists.1
    (show (run (OpenLog.step 0) (start .empty 0) reused).isSome by decide)
  have harchives : t.archives = [1, 1] := by
    cases ht
    rfl
  refine ⟨t, ht, fun h => ?_⟩
  have hnodup := (archives_kept_iff (by simp [Renames, reused]) ht).1 h
  rw [harchives] at hnodup
  exact absurd hnodup (by decide)

/-! ## A rotation that fails -/

/-- There is no file to rename, and no rotation is going on. -/
def Cut (filePath : ν) (s : OpenLog ν) : Prop :=
  s.stage = .idle ∧ s.fs.entry filePath = none

/-- **Nothing is rotated any more.** -/
theorem Cut.step (h : Cut filePath s) (hs : s.step filePath e = some s') :
    Cut filePath s' ∧ s'.archives = s.archives := by
  obtain ⟨hidle, hnone⟩ := h
  cases e with
  | write msg taken =>
    cases hs
    exact ⟨⟨hidle, hnone⟩, rfl⟩
  | rotate file ok =>
    obtain ⟨-, -, rfl | ⟨-, fs, hfs, -⟩⟩ := of_rotate hs
    · exact ⟨⟨hidle, hnone⟩, rfl⟩
    · rw [rename_eq_none file hnone] at hfs
      cases hfs
  | reopen ok => simp [OpenLog.step, hidle] at hs
  | dup2 => simp [OpenLog.step, hidle] at hs

theorem Cut.run (h : Cut filePath s) (hrun : run (OpenLog.step filePath) s es = some t) :
    Cut filePath t ∧ t.archives = s.archives :=
  run_inv (fun u => Cut filePath u ∧ u.archives = s.archives)
    (fun _ _ _ ⟨hu, hsame⟩ he => ⟨(hu.step he).1, (hu.step he).2.trans hsame⟩) ⟨h, rfl⟩ hrun

/-- **Only an `open` that fails cuts the log off from its name.** -/
theorem Holds.cut_iff (h : Holds filePath s ps tail) (he : Renames filePath e)
    (hs : s.step filePath e = some s') :
    ¬ Cut filePath s' ↔ ¬ Cut filePath s ∧ e ≠ .reopen false := by
  by_cases hcut : Cut filePath s
  · exact iff_of_false (not_not.2 (hcut.step hs).1) (fun hno => hno.1 hcut)
  cases e with
  | write msg taken =>
    cases hs
    exact iff_of_true hcut ⟨hcut, by simp⟩
  | rotate file ok =>
    refine iff_of_true ?_ ⟨hcut, by simp⟩
    obtain ⟨-, -, rfl | ⟨-, fs, -, rfl⟩⟩ := of_rotate hs
    · exact hcut
    · rintro ⟨hidle, -⟩
      cases hidle
  | reopen ok =>
    simp only [OpenLog.step] at hs
    split_ifs at hs with hstage hok
    · cases hs
      refine iff_of_true ?_ ⟨hcut, by simp [hok]⟩
      rintro ⟨hidle, -⟩
      cases hidle
    · cases hs
      refine iff_of_false (not_not.2 ⟨rfl, ?_⟩) (fun hno => hno.2 (by simpa using hok))
      cases h.place with
      | named hidle _ => rw [hstage] at hidle; cases hidle
      | reopened _ hre _ _ => rw [hstage] at hre; cases hre
      | cut _ hidle _ => rw [hstage] at hidle; cases hidle
      | renamed _ _ hnone => exact hnone
  | dup2 =>
    refine iff_of_true ?_ ⟨hcut, by simp⟩
    cases h.place with
    | named hstage _ => simp [OpenLog.step, hstage] at hs
    | renamed _ hstage _ => simp [OpenLog.step, hstage] at hs
    | cut _ hstage _ => simp [OpenLog.step, hstage] at hs
    | reopened _ hstage hentry _ =>
      simp only [OpenLog.step, hstage, Option.some.injEq] at hs
      subst hs
      rintro ⟨-, hnone⟩
      rw [hentry] at hnone
      cases hnone

/-- A log that has its name is rotated. -/
theorem Holds.exists_rotate (h : Holds filePath s ps tail) (hcut : ¬ Cut filePath s)
    (new : ν) (hnew : new ≠ filePath) : ∃ es t, (∀ e ∈ es, Renames filePath e) ∧
      EventRun.run (OpenLog.step filePath) s es = some t ∧ t.archives = s.archives ++ [new] := by
  -- from the log's own file: a byte, and the renaming
  have hnamed : ∀ {s : OpenLog ν}, s.stage = .idle → s.fs.entry filePath = some s.file →
      ∃ t, EventRun.run (OpenLog.step filePath) s [.write [0] 1, .rotate new true] = some t ∧
        t.archives = s.archives ++ [new] := by
    intro s hidle hentry
    obtain ⟨fs, hfs⟩ := Option.isSome_iff_exists.1
      (rename_isSome (s.fs.append s.file [0]) new hentry)
    have hsize : 0 < fileSize { s with
        fs := s.fs.append s.file [0], written := s.written ++ [0] } := by
      simp [fileSize]
    refine ⟨{ s with
      fs := fs, stage := .renamed, written := s.written ++ [0], archives := s.archives ++ [new] },
      ?_, rfl⟩
    rw [run_cons_eq_some]
    refine ⟨{ s with fs := s.fs.append s.file [0], written := s.written ++ [0] }, rfl, ?_⟩
    rw [run_cons_eq_some]
    refine ⟨_, ?_, rfl⟩
    simp only [OpenLog.step]
    rw [if_pos ⟨hidle, hsize⟩, hfs]
    rfl
  have hok : ∀ e : LogEvent ν, e ∈ [LogEvent.write [0] 1, .rotate new true] →
      Renames filePath e := by
    intro e he file ok heq
    subst heq
    simp only [List.mem_cons, reduceCtorEq, List.not_mem_nil, or_false, false_or,
      LogEvent.rotate.injEq] at he
    rw [he.1]
    exact hnew
  cases h.place with
  | named hidle hentry =>
    obtain ⟨t, ht, harchives⟩ := hnamed hidle hentry
    exact ⟨_, t, hok, ht, harchives⟩
  | cut _ hidle hnone => exact absurd ⟨hidle, hnone⟩ hcut
  | @reopened n i _ hstage hentry _ =>
    obtain ⟨t, ht, harchives⟩ := hnamed (s := { s with file := i, stage := .idle }) rfl hentry
    refine ⟨.dup2 :: [.write [0] 1, .rotate new true], t, ?_, ?_, harchives⟩
    · simpa [Renames] using hok
    · rw [run_cons_eq_some]
      exact ⟨_, by simp only [OpenLog.step, hstage], ht⟩
  | renamed _ hstage _ =>
    obtain ⟨t, ht, harchives⟩ := hnamed (s := { s with
      fs := (s.fs.openFile filePath).1, file := (s.fs.openFile filePath).2, stage := .idle })
      rfl (entry_openFile s.fs filePath)
    refine ⟨.reopen true :: .dup2 :: [.write [0] 1, .rotate new true], t, ?_, ?_, harchives⟩
    · simpa [Renames] using hok
    · rw [run_cons_eq_some]
      refine ⟨_, by simp only [OpenLog.step, if_pos hstage, if_true]; rfl, ?_⟩
      rw [run_cons_eq_some]
      exact ⟨_, rfl, ht⟩

theorem Holds.lastArchive (h : Holds filePath s ps tail) (hcut : Cut filePath s) :
    LastArchive s := by
  obtain ⟨hidle, hnone⟩ := hcut
  cases h.place with
  | named _ hentry => rw [hnone] at hentry; cases hentry
  | renamed hm _ _ => exact hm.lastArchive h.archives
  | reopened hm _ _ _ => exact hm.lastArchive h.archives
  | cut hm _ _ => exact hm.lastArchive h.archives

/-- **The log can be rotated again exactly if no `open` of a rotation has failed.** Else nothing
is rotated in whatever follows, and all bytes go to the last archive. -/
theorem rotates_again_iff (hnames : ∀ e ∈ es, Renames filePath e)
    (hrun : EventRun.run (OpenLog.step filePath) (start fs filePath) es = some t)
    (hnew : new ≠ filePath) :
    ((∃ es' u, (∀ e ∈ es', Renames filePath e) ∧
      EventRun.run (OpenLog.step filePath) t es' = some u ∧ u.archives = t.archives ++ [new]) ↔
        ∀ e ∈ es, e ≠ .reopen false) ∧
    ((∃ e ∈ es, e = .reopen false) → ∀ es' u, (∀ e ∈ es', Renames filePath e) →
      EventRun.run (OpenLog.step filePath) t es' = some u →
        u.archives = t.archives ∧ LastArchive u) := by
  obtain ⟨ps, tail, h⟩ := holds_of_run hnames hrun
  have hstart : ¬ Cut filePath (start fs filePath) := by
    rintro ⟨-, hnone⟩
    have hentry := entry_openFile fs filePath
    rw [show (fs.openFile filePath).1.entry filePath = none from hnone] at hentry
    cases hentry
  -- in every run from the start the log is cut off exactly if an `open` has failed
  have hlost : ¬ Cut filePath (start fs filePath) ∧
      Meets (OpenLog.step filePath) (fun _ e => e ≠ .reopen false) (start fs filePath) es ↔
        ¬ Cut filePath t := meets_iff_of_lost (E := fun _ => Renames filePath)
    (fun s => ∃ ps tail, Holds filePath s ps tail) (fun s => ¬ Cut filePath s)
    (fun _ _ _ ⟨_, _, h⟩ he hs => h.step he hs) (fun _ _ _ ⟨_, _, h⟩ he hs => h.cut_iff he hs)
    ⟨_, _, .start fs filePath⟩ (meets_of_forall hnames) hrun
  rw [and_iff_right hstart, meets_iff_forall (E := fun e => e ≠ .reopen false) hrun] at hlost
  constructor
  · rw [hlost]
    constructor
    · rintro ⟨es', u, -, hu, harchives⟩ hcut
      have hsame := (hcut.run hu).2
      rw [harchives] at hsame
      simp at hsame
    · exact fun hcut => h.exists_rotate hcut new hnew
  · rintro ⟨e, he, hfailed⟩ es' u hnames' hu
    have hcut : Cut filePath t := not_not.1 fun hno => hlost.2 hno e he hfailed
    obtain ⟨hcut', hsame⟩ := hcut.run hu
    obtain ⟨qs, tail', hu'⟩ := holds_of_run
      (fun e he => (List.mem_append.1 he).elim (hnames e) (hnames' e))
      (run_append.2 ⟨t, hrun, hu⟩)
    exact ⟨hsame, hu'.lastArchive hcut'⟩

/-- The `open` behind the first renaming fails. -/
theorem rotates_never : ∃ t, EventRun.run (OpenLog.step 0) (start .empty 0)
    [.write [65] 1, .rotate 1 true, .reopen false] = some t ∧
      (¬ ∃ es u, (∀ e ∈ es, Renames 0 e) ∧ EventRun.run (OpenLog.step 0) t es = some u ∧
        u.archives = t.archives ++ [2]) ∧
      ∀ es u, (∀ e ∈ es, Renames 0 e) → EventRun.run (OpenLog.step 0) t es = some u →
        u.archives = t.archives ∧ LastArchive u := by
  obtain ⟨t, ht⟩ := Option.isSome_iff_exists.1 (show (EventRun.run (OpenLog.step 0)
    (start .empty 0) [.write [65] 1, .rotate 1 true, .reopen false]).isSome by decide)
  obtain ⟨hagain, hnever⟩ := rotates_again_iff (by simp [Renames]) ht (show 2 ≠ 0 by decide)
  exact ⟨t, ht, fun h => hagain.1 h _ (by simp) rfl, hnever ⟨_, by simp, rfl⟩⟩

end OpenLog

end HttpNest
