import HttpNest.Spec.FileMgr

/-!
# Where logs are rotated to

`FilePath` has no separator at its end, and the name of an archive is put together without one:
`logs/app.log` is rotated to `logsapp_….log`. `keepsDirectory_iff` says which logs are rotated in
their directory, and `separate_iff` which pairs of logs are, and never to the same file.

Directories are those of the file system, with links or without: whether two paths lead to the same
one, and whether a component leads out of its directory, is up to a `DirTree`.

The time cannot make two names equal: what is printed of it has neither `_` nor `.`, so the last
`.` and the last `_` in front of it cut a name into the same parts (`tail_inj`).
-/

namespace HttpNest

open CNumeral PathNames DirTree

variable {p q a b d l m n s t x y w w' : Bytes} {c : UInt8} {D : Type*} {T : DirTree D}

/-! ## Paths -/

namespace StringUtils

theorem filePath_of_not_mem (h : ∀ c ∈ p, isSeparator c = false) :
    filePath p = ascii "./" ∧ fileNameExt p = p := by
  rw [filePath, fileNameExt, findLastOf_eq_none h]
  exact ⟨rfl, rfl⟩

theorem filePath_append_cons (hc : isSeparator c = true) (hy : ∀ c ∈ y, isSeparator c = false)
    (x : Bytes) : filePath (x ++ c :: y) = x ∧
      fileNameExt (x ++ c :: y) = if y = [] then x ++ c :: y else y := by
  have htake : (x ++ c :: y).take x.length = x := List.take_left
  have hdrop : (x ++ c :: y).drop (x.length + 1) = y := by simp
  rw [filePath, fileNameExt, findLastOf_append_cons hc hy]
  refine ⟨htake, ?_⟩
  simp only [hdrop, List.length_append, List.length_cons]
  by_cases hnil : y = []
  · rw [if_pos hnil, if_neg (by simp [hnil])]
  · have hpos := List.length_pos_iff.2 hnil
    rw [if_neg hnil, if_pos (by omega)]

theorem isDot_eq_false : isDot c = false ↔ c ≠ 46 := by simp [isDot]

/-- A name is cut at its last dot, unless that is in front or not there. -/
theorem fileName_cases (p : Bytes) :
    (∃ a b, fileNameExt p = a ++ 46 :: b ∧ 46 ∉ b ∧ a ≠ [] ∧ fileName p = a ∧ extension p = b) ∨
      46 ∉ (fileNameExt p).tail ∧ fileName p = fileNameExt p ∧ extension p = [] := by
  unfold fileName extension
  generalize fileNameExt p = n
  by_cases hdot : ∃ c ∈ n, isDot c = true
  · obtain ⟨a, c, b, rfl, hc, hb⟩ := exists_last hdot
    obtain rfl : c = 46 := beq_iff_eq.1 hc
    have hb' : 46 ∉ b := fun hm => isDot_eq_false.1 (hb 46 hm) rfl
    simp only [findLastOf_append_cons hc hb]
    by_cases ha : a = []
    · right
      rw [ha]
      exact ⟨hb', rfl, rfl⟩
    · left
      have hpos := List.length_pos_iff.2 ha
      have htake : (a ++ 46 :: b).take a.length = a := List.take_left
      have hdrop : (a ++ 46 :: b).drop (a.length + 1) = b := by simp
      refine ⟨a, b, rfl, hb', ha, ?_, ?_⟩
      · rw [if_pos (by omega), htake]
      · split_ifs with hlen
        · exact hdrop
        · simp only [List.length_append, List.length_cons, not_and, not_lt] at hlen
          have hzero : b.length = 0 := by
            have := hlen (by omega)
            omega
          exact (List.length_eq_zero_iff.1 hzero).symm
  · right
    simp only [not_exists, not_and, Bool.not_eq_true] at hdot
    simp only [findLastOf_eq_none hdot]
    exact ⟨fun hm => isDot_eq_false.1 (hdot 46 (List.mem_of_mem_tail hm)) rfl, trivial, trivial⟩

theorem dot_not_mem_extension (p : Bytes) : 46 ∉ extension p := by
  rcases fileName_cases p with ⟨a, b, -, hb, -, -, he⟩ | ⟨-, -, he⟩
  · rwa [he]
  · rw [he]
    exact List.not_mem_nil

/-- Nothing is added to the name. -/
theorem mem_of_mem_fileName (p : Bytes) (h : c ∈ fileName p ∨ c ∈ extension p) :
    c ∈ fileNameExt p := by
  rcases fileName_cases p with ⟨a, b, hn, -, -, hf, he⟩ | ⟨-, hf, he⟩
  · rw [hn]
    rcases h with h | h
    · exact List.mem_append_left _ (hf ▸ h)
    · exact List.mem_append_right _ (List.mem_cons_of_mem _ (he ▸ h))
  · rcases h with h | h
    · exact hf ▸ h
    · rw [he] at h
      cases h

end StringUtils

open StringUtils FileMgr

/-! ## The texts of a time -/

/-- What is printed behind the `_`. -/
def TimeChar (c : UInt8) : Prop := c = 32 ∨ c = 45 ∨ c = 84 ∨ (digit? 10 c).isSome

theorem TimeChar.ne (h : TimeChar c) : c ≠ 95 ∧ c ≠ 46 ∧ c ≠ 47 := by
  unfold TimeChar at h
  refine ⟨?_, ?_, ?_⟩ <;>
  · rintro rfl
    revert h
    decide

def Printed (w : Bytes) : Prop := ∀ c ∈ w, TimeChar c

theorem Printed.not_mem (h : Printed w) : 95 ∉ w ∧ 46 ∉ w ∧ 47 ∉ w :=
  ⟨fun hm => (h _ hm).ne.1 rfl, fun hm => (h _ hm).ne.2.1 rfl, fun hm => (h _ hm).ne.2.2 rfl⟩

theorem Printed.append (h : Printed w) (h' : Printed w') : Printed (w ++ w') := by
  intro c hc
  exact (List.mem_append.1 hc).elim (h c) (h' c)

theorem Printed.cons (hc : TimeChar c) (h : Printed w) : Printed (c :: w) := by
  intro c' hc'
  rcases List.mem_cons.1 hc' with rfl | hc'
  · exact hc
  · exact h c' hc'

theorem printed_blanks (width : ℕ) (z : ℤ) : Printed (printBlanks width z) := by
  intro c hc
  rcases of_mem_printBlanks hc with h | h | h
  · exact .inl h
  · exact .inr (.inl h)
  · exact .inr (.inr (.inr h))

theorem printed_zeros (width : ℕ) (z : ℤ) : Printed (printZeros width z) := by
  intro c hc
  rcases of_mem_printZeros hc with h | h
  · exact .inr (.inl h)
  · exact .inr (.inr (.inr h))

theorem printBlanks_inj {width : ℕ} {y z : ℤ} (hy : 0 ≤ y) (hz : 0 ≤ z)
    (h : printBlanks width y = printBlanks width z) : y = z := by
  -- the number is what the blanks are in front of
  have hcut : ∀ {z : ℤ}, 0 ≤ z → (printBlanks width z).dropWhile (· == 32) = decText z.natAbs := by
    intro z hz
    have hblanks : ∀ n : ℕ, (List.replicate n (32 : UInt8) ++ decText z.natAbs).dropWhile
        (· == 32) = (decText z.natAbs).dropWhile (· == 32) := by
      intro n
      induction n with
      | zero => rfl
      | succ n ih =>
        rw [List.replicate_succ, List.cons_append, List.dropWhile_cons_of_pos (by decide), ih]
    have hnone : (decText z.natAbs).dropWhile (· == 32) = decText z.natAbs := by
      have hdec := (decText_spec z.natAbs).1
      cases htext : decText z.natAbs with
      | nil => rfl
      | cons c s =>
        refine List.dropWhile_cons_of_neg ?_
        rw [beq_iff_eq]
        rintro rfl
        have hdigit := hdec 32 (by rw [htext]; exact List.mem_cons_self ..)
        revert hdigit
        decide
    rw [printBlanks, if_neg (by omega), hblanks, hnone]
  have htext := congrArg (List.dropWhile (· == 32)) h
  rw [hcut hy, hcut hz] at htext
  have hval := congrArg decimal htext
  rw [(decText_spec _).2, (decText_spec _).2] at hval
  omega

theorem printed_dayText (t : TimeFields) : Printed (dayText t).tail :=
  (printed_blanks 4 _).append (.cons (.inr (.inl rfl))
    ((printed_zeros 2 _).append (.cons (.inr (.inl rfl)) (printed_zeros 2 _))))

/-- The names that a log is rotated to. -/
def RotatesTo (p n : Bytes) : Prop :=
  ∃ t : TimeFields, n = daysName t p ∨ n = hoursName t p ∨ n = minutesName t p

/-- Every name has such a text behind the file name. -/
theorem RotatesTo.shape (h : RotatesTo p n) : ∃ w, Printed w ∧ n = archiveName p (95 :: w) := by
  obtain ⟨t, h⟩ := h
  have hday := printed_dayText t
  have ht : TimeChar 84 := .inr (.inr (.inl rfl))
  rcases h with h | h | h
  · exact ⟨_, hday, h⟩
  · exact ⟨_, hday.append (.cons ht (printed_zeros 2 _)), h⟩
  · exact ⟨_, hday.append (.cons ht ((printed_zeros 2 _).append (printed_zeros 2 _))), h⟩

theorem archiveName_eq (p w : Bytes) : archiveName p (95 :: w) =
    (filePath p ++ fileName p) ++ (95 :: w ++ 46 :: extension p) := by
  simp [archiveName]

/-- **The parts of a name can be told apart.** -/
theorem tail_inj {e e' : Bytes} (hw : Printed w) (hw' : Printed w') (he : 46 ∉ e) (he' : 46 ∉ e')
    (h : s ++ (95 :: w ++ 46 :: e) = t ++ (95 :: w' ++ 46 :: e')) : s = t ∧ e = e' := by
  have hdot : (s ++ 95 :: w) ++ 46 :: e = (t ++ 95 :: w') ++ 46 :: e' := by
    simpa using h
  obtain ⟨hfront, heq⟩ := append_cons_inj_last he he' hdot
  exact ⟨(append_cons_inj_last hw.not_mem.1 hw'.not_mem.1 hfront).1, heq⟩

/-! ## The directory of a name -/

/-- A path that a file can be opened at: the directory is there, and there is a name behind the
last `/`. -/
structure LogPath (T : DirTree D) where
  text : Bytes
  base_ne : base text ≠ []
  there : (T.directory text).isSome = true

/-- The last component of what stands in front of the time. -/
def stem (p : Bytes) : Bytes := base (filePath p ++ fileName p)

/-- A name without a `/` behind the time. -/
theorem directory_archiveName (hw : Printed w) (he : 47 ∉ extension p) :
    T.directory (archiveName p (95 :: w)) = T.directory (filePath p ++ fileName p) ∧
      base (archiveName p (95 :: w)) = stem p ++ (95 :: w ++ 46 :: extension p) := by
  have htail : 47 ∉ 95 :: w ++ 46 :: extension p := by
    simp only [List.cons_append, List.mem_cons, List.mem_append, not_or]
    exact ⟨by decide, hw.not_mem.2.2, by decide, he⟩
  rw [archiveName_eq]
  exact ⟨directory_append htail _, base_append htail _⟩

/-- In which directory, behind the last `/` of which name. -/
def KeepsAt (T : DirTree D) (d l : Bytes) : Prop :=
  92 ∉ l ∧ T.Rests d ∨
    ∃ m y, l = m ++ 92 :: y ∧ 92 ∉ y ∧
      (y ≠ [] ∨ T.target (d ++ 47 :: (m ++ d)) = T.target d ∧ (46 ∈ m ∨ 46 ∉ d.tail))

/-- **The logs that are rotated in their directory**: those without a directory; those where the
last component in front of the last `/` does not lead out of the directory that it is looked up
in; and those with a `\` in their name, but not at its end, unless the directory leads back to
itself behind the rest of the name. -/
def KeepsDirectory (T : DirTree D) (p : Bytes) : Prop :=
  47 ∉ p ∨ ∃ d l, p = d ++ 47 :: l ∧ 47 ∉ l ∧ KeepsAt T d l

theorem keepsDirectory_append_cons (hl : 47 ∉ l) :
    KeepsDirectory T (d ++ 47 :: l) ↔ KeepsAt T d l := by
  constructor
  · rintro (hno | ⟨d', l', heq, hl', h⟩)
    · exact absurd (List.mem_append_right _ (List.mem_cons_self ..)) hno
    · obtain ⟨rfl, rfl⟩ := append_cons_inj_last hl hl' heq
      exact h
  · exact fun h => .inr ⟨d, l, rfl, hl, h⟩

theorem keepsAt_append_cons (hy : 92 ∉ y) : KeepsAt T d (m ++ 92 :: y) ↔
    y ≠ [] ∨ T.target (d ++ 47 :: (m ++ d)) = T.target d ∧ (46 ∈ m ∨ 46 ∉ d.tail) := by
  constructor
  · rintro (⟨hno, -⟩ | ⟨m', y', heq, hy', h⟩)
    · exact absurd (List.mem_append_right _ (List.mem_cons_self ..)) hno
    · obtain ⟨rfl, rfl⟩ := append_cons_inj_last hy hy' heq
      exact h
  · exact fun h => .inr ⟨m, y, rfl, hy, h⟩

/-- The name of the log in its directory, and what the archive's directory then is. -/
structure Renamed (T : DirTree D) (p : Bytes) : Prop where
  extension : 47 ∉ extension p
  directory : T.directory (filePath p ++ fileName p) = T.directory p ↔ KeepsDirectory T p

theorem isSeparator_eq_false : isSeparator c = false ↔ c ≠ 47 ∧ c ≠ 92 := by
  simp [isSeparator]

theorem not_separator (h47 : 47 ∉ y) (h92 : 92 ∉ y) : ∀ c ∈ y, isSeparator c = false := by
  intro c hc
  refine isSeparator_eq_false.2 ⟨?_, ?_⟩
  · rintro rfl
    exact h47 hc
  · rintro rfl
    exact h92 hc

/-- What has no `/` where the file name is cut off has none in the file name. -/
theorem slash_not_mem (h : 47 ∉ fileNameExt p) : 47 ∉ fileName p ∧ 47 ∉ extension p :=
  ⟨fun hm => h (mem_of_mem_fileName p (.inl hm)), fun hm => h (mem_of_mem_fileName p (.inr hm))⟩

/-- A log without a directory. -/
theorem renamed_of_not_mem (h : 47 ∉ p) : Renamed T p := by
  have hkeep : KeepsDirectory T p := .inl h
  have hdir : T.directory p = some T.cwd := directory_of_not_mem h
  by_cases hsep : 92 ∈ p
  · obtain ⟨x, y, rfl, hy⟩ := exists_last_of_mem hsep
    simp only [List.mem_append, List.mem_cons, not_or] at h
    obtain ⟨hx, -, hy47⟩ := h
    obtain ⟨hpath, hname⟩ := filePath_append_cons (c := 92) rfl (not_separator hy47 hy) x
    have hno : 47 ∉ fileNameExt (x ++ 92 :: y) := by
      rw [hname]
      split_ifs
      · simp [hx, hy47]
      · exact hy47
    obtain ⟨hf, he⟩ := slash_not_mem hno
    refine ⟨he, iff_of_true ?_ hkeep⟩
    have hfront : 47 ∉ x ++ fileName (x ++ 92 :: y) := by simp [hx, hf]
    rw [hpath, hdir, directory_of_not_mem hfront]
  · obtain ⟨hpath, hname⟩ := filePath_of_not_mem (not_separator h hsep)
    obtain ⟨hf, he⟩ := slash_not_mem (hname ▸ h)
    refine ⟨he, iff_of_true ?_ hkeep⟩
    rw [hpath, hdir]
    exact directory_append_cons hf [46]

/-- A log whose last separator is a `/`. -/
theorem renamed_of_slash (hl : 47 ∉ l) (hl92 : 92 ∉ l) (hne : l ≠ [])
    (hthere : (T.directory (d ++ 47 :: l)).isSome = true) : Renamed T (d ++ 47 :: l) := by
  obtain ⟨hpath, hname⟩ := filePath_append_cons (c := 47) rfl (not_separator hl hl92) d
  rw [if_neg hne] at hname
  obtain ⟨hf, he⟩ := slash_not_mem (hname ▸ hl)
  rw [directory_append_cons hl] at hthere
  refine ⟨he, ?_⟩
  rw [hpath, directory_append hf d, directory_append_cons hl d, directory_eq_iff hthere,
    keepsDirectory_append_cons hl]
  constructor
  · exact fun h => .inl ⟨hl92, h⟩
  · rintro (h | ⟨m, y, rfl, -⟩)
    · exact h.2
    · exact absurd (List.mem_append_right _ (List.mem_cons_self ..)) hl92

/-- A log with a `\` inside its name. -/
theorem renamed_of_backslash (hm : 47 ∉ m) (hy : 47 ∉ y) (hy92 : 92 ∉ y) (hne : y ≠ []) :
    Renamed T (d ++ 47 :: (m ++ 92 :: y)) := by
  have hl : 47 ∉ m ++ 92 :: y := by simp [hm, hy]
  have hsplit : d ++ 47 :: (m ++ 92 :: y) = (d ++ 47 :: m) ++ 92 :: y := by simp
  obtain ⟨hpath, hname⟩ := filePath_append_cons (c := 92) rfl (not_separator hy hy92) (d ++ 47 :: m)
  rw [if_neg hne] at hname
  obtain ⟨hf, he⟩ := slash_not_mem (hname ▸ hy)
  rw [← hsplit] at hpath hf he
  refine ⟨he, iff_of_true ?_ ?_⟩
  · rw [hpath, directory_append hf _, directory_append_cons hm d, directory_append_cons hl d]
  · rw [keepsDirectory_append_cons hl, keepsAt_append_cons hy92]
    exact .inl hne

/-- A log with a `\` at the end of its name is its own file name. -/
theorem fileName_of_trailing (d m : Bytes) :
    filePath (d ++ 47 :: (m ++ [92])) = d ++ 47 :: m ∧
      fileNameExt (d ++ 47 :: (m ++ [92])) = d ++ 47 :: (m ++ [92]) := by
  have hsplit : d ++ 47 :: (m ++ [92]) = (d ++ 47 :: m) ++ 92 :: [] := by simp
  have hnil : ∀ c ∈ ([] : Bytes), isSeparator c = false := fun c hc => by cases hc
  rw [hsplit]
  exact filePath_append_cons rfl hnil (d ++ 47 :: m)

/-- Where path and file name are put together. -/
theorem directory_twice (ht : 47 ∉ t) :
    T.directory ((d ++ 47 :: m) ++ (d ++ 47 :: t)) = T.target (d ++ 47 :: (m ++ d)) := by
  have hsplit : (d ++ 47 :: m) ++ (d ++ 47 :: t) = (d ++ 47 :: (m ++ d)) ++ 47 :: t := by simp
  rw [hsplit, directory_append_cons ht]

/-- A year of its own for every number. -/
def yearText (n : ℕ) : Bytes := (dayText { year := n }).tail

theorem yearText_inj {n n' : ℕ} (h : yearText n = yearText n') : n = n' := by
  have hyear := (List.append_cancel_right_eq _ _ _).mp h
  exact Int.ofNat_inj.1 (printBlanks_inj (Int.natCast_nonneg n) (Int.natCast_nonneg n') hyear)

/-- A directory with the time in its name is not there at all times. -/
theorem exists_target_eq_none (hthere : (T.target d).isSome = true) (u v : Bytes) :
    ∃ n, T.target (d ++ 47 :: (u ++ (95 :: yearText n) ++ v)) = none := by
  obtain ⟨e, he⟩ := Option.isSome_iff_exists.1 hthere
  obtain ⟨cs, x, y, cs', hsplit⟩ := splitOn_between u v
  have hno : ∀ n, 47 ∉ 95 :: yearText n := by
    intro n hm
    rcases List.mem_cons.1 hm with h | h
    · revert h
      decide
    · exact (printed_dayText _).not_mem.2.2 h
  have hinj : (fun n => x ++ (95 :: yearText n) ++ y).Injective := by
    intro n n' h
    have htext := List.append_cancel_left (List.append_cancel_right h)
    exact yearText_inj (List.cons.inj htext).2
  obtain ⟨n, hn⟩ := exists_walk_eq_none (T := T) hinj (fun n => by
    refine ⟨by simp, fun h => ?_⟩
    have hmem : (95 : UInt8) ∈ ([46] : Bytes) := by
      rw [← h]
      simp
    revert hmem
    decide) e cs cs'
  refine ⟨n, ?_⟩
  rw [target_append_cons, he, Option.bind_some, hsplit _ (hno n)]
  exact hn

/-- The time is in the directory where the last dot stands in front of the last `/`. -/
theorem not_kept_of_dot (hm : 47 ∉ m) (hdot : 46 ∉ m) (hb : 46 ∉ b) (ha : a ≠ [])
    (hd : d = a ++ 46 :: b) (hthere : (T.directory (d ++ 47 :: (m ++ [92]))).isSome = true) :
    ¬ KeepsDirectory T (d ++ 47 :: (m ++ [92])) ∧
      ∃ n, RotatesTo (d ++ 47 :: (m ++ [92])) n ∧
        T.directory n ≠ T.directory (d ++ 47 :: (m ++ [92])) := by
  have hl : 47 ∉ m ++ [92] := by simp [hm]
  obtain ⟨hpath, hname⟩ := fileName_of_trailing d m
  have hcut : d ++ 47 :: (m ++ [92]) = a ++ 46 :: (b ++ 47 :: (m ++ [92])) := by
    rw [hd]
    simp
  have hno : 46 ∉ b ++ 47 :: (m ++ [92]) := by simp [hb, hdot]
  constructor
  · rw [keepsDirectory_append_cons hl, keepsAt_append_cons List.not_mem_nil]
    rintro (h | ⟨-, h | h⟩)
    · exact h rfl
    · exact hdot h
    · obtain ⟨c, a, rfl⟩ := List.exists_cons_of_ne_nil ha
      rw [hd] at h
      exact h (by simp)
  · have hparts : fileName (d ++ 47 :: (m ++ [92])) = a ∧
        extension (d ++ 47 :: (m ++ [92])) = b ++ 47 :: (m ++ [92]) := by
      rcases fileName_cases (d ++ 47 :: (m ++ [92])) with ⟨a', b', hn, hb', -, hf, he⟩ | ⟨hn, -⟩
      · rw [hname, hcut] at hn
        obtain ⟨rfl, rfl⟩ := append_cons_inj_last hno hb' hn
        exact ⟨hf, he⟩
      · rw [hname, hcut] at hn
        obtain ⟨c, a, rfl⟩ := List.exists_cons_of_ne_nil ha
        exact absurd (by simp) hn
    have htext : ∀ w, archiveName (d ++ 47 :: (m ++ [92])) (95 :: w) =
        (d ++ 47 :: ((m ++ a) ++ (95 :: w) ++ 46 :: b)) ++ 47 :: (m ++ [92]) := by
      intro w
      rw [archiveName_eq, hpath, hparts.1, hparts.2]
      simp
    rw [directory_append_cons hl] at hthere ⊢
    obtain ⟨n, hn⟩ := exists_target_eq_none hthere (m ++ a) (46 :: b)
    refine ⟨_, ⟨{ year := n }, .inl rfl⟩, ?_⟩
    have hday : daysName { year := n } (d ++ 47 :: (m ++ [92])) =
        archiveName (d ++ 47 :: (m ++ [92])) (95 :: yearText n) := rfl
    rw [hday, htext, directory_append_cons hl, hn]
    rintro heq
    rw [← heq] at hthere
    cases hthere

/-- A log with a `\` at its end, where the dot is in the name or nowhere. -/
theorem renamed_of_trailing (hm : 47 ∉ m) (hdot : 46 ∈ m ∨ 46 ∉ d.tail) :
    Renamed T (d ++ 47 :: (m ++ [92])) := by
  have hl : 47 ∉ m ++ [92] := by simp [hm]
  obtain ⟨hpath, hname⟩ := fileName_of_trailing d m
  -- what the file name ends with, behind the directory
  obtain ⟨t, ht, hf, he⟩ : ∃ t, 47 ∉ t ∧ fileName (d ++ 47 :: (m ++ [92])) = d ++ 47 :: t ∧
      47 ∉ extension (d ++ 47 :: (m ++ [92])) := by
    by_cases hm46 : 46 ∈ m
    · obtain ⟨m₁, m₂, rfl, hm₂⟩ := exists_last_of_mem hm46
      simp only [List.mem_append, List.mem_cons, not_or] at hm
      have hcut : d ++ 47 :: ((m₁ ++ 46 :: m₂) ++ [92]) =
          (d ++ 47 :: m₁) ++ 46 :: (m₂ ++ [92]) := by simp
      have hno : 46 ∉ m₂ ++ [92] := by simp [hm₂]
      rcases fileName_cases (d ++ 47 :: ((m₁ ++ 46 :: m₂) ++ [92])) with
        ⟨a, b, hn, hb, -, hf, he⟩ | ⟨hn, -⟩
      · rw [hname, hcut] at hn
        obtain ⟨rfl, rfl⟩ := append_cons_inj_last hno hb hn
        exact ⟨m₁, hm.1, hf, by rw [he]; simp [hm.2.2]⟩
      · rw [hname] at hn
        exact absurd (by cases d <;> simp) hn
    · have hd := hdot.resolve_left hm46
      rcases fileName_cases (d ++ 47 :: (m ++ [92])) with ⟨a, b, hn, -, ha, -⟩ | ⟨-, hf, he⟩
      · rw [hname] at hn
        have hmem : 46 ∈ (d ++ 47 :: (m ++ [92])).tail := by
          obtain ⟨c, a, rfl⟩ := List.exists_cons_of_ne_nil ha
          rw [hn]
          simp
        rcases d with _ | ⟨c, d⟩
        · simp [hm46] at hmem
        · have hd : 46 ∉ d := hd
          simp [hm46, hd] at hmem
      · refine ⟨m ++ [92], hl, by rw [hf, hname], ?_⟩
        rw [he]
        exact List.not_mem_nil
  refine ⟨he, ?_⟩
  rw [hpath, hf, directory_twice ht, directory_append_cons hl d, keepsDirectory_append_cons hl,
    keepsAt_append_cons List.not_mem_nil]
  constructor
  · exact fun h => .inr ⟨h, hdot⟩
  · rintro (h | h)
    · exact absurd rfl h
    · exact h.1

/-- **Every log** is one of these. -/
theorem renamed_or (p : LogPath T) : Renamed T p.text ∨ ¬ KeepsDirectory T p.text ∧
    ∃ n, RotatesTo p.text n ∧ T.directory n ≠ T.directory p.text := by
  obtain ⟨p, hp, hthere⟩ := p
  by_cases hslash : 47 ∈ p
  · obtain ⟨d, l, rfl, hl⟩ := exists_last_of_mem hslash
    have hne : l ≠ [] := base_append_cons_ne hl hp
    by_cases hback : 92 ∈ l
    · obtain ⟨m, y, rfl, hy⟩ := exists_last_of_mem hback
      simp only [List.mem_append, List.mem_cons, not_or] at hl
      by_cases hynil : y = []
      · subst hynil
        by_cases hdot : 46 ∈ m ∨ 46 ∉ d.tail
        · exact .inl (renamed_of_trailing hl.1 hdot)
        · rw [not_or, not_not] at hdot
          obtain ⟨a, b, hd, hb⟩ := exists_last_of_mem (List.mem_of_mem_tail hdot.2)
          have ha : a ≠ [] := by
            rintro rfl
            rw [hd] at hdot
            exact hb hdot.2
          exact .inr (not_kept_of_dot hl.1 hdot.1 hb ha hd hthere)
      · exact .inl (renamed_of_backslash hl.1 hl.2.2 hy hynil)
    · exact .inl (renamed_of_slash hl hback hne hthere)
  · exact .inl (renamed_of_not_mem hslash)

/-- A log that is rotated in its directory has no `/` in its extension. -/
theorem KeepsDirectory.renamed {p : LogPath T} (h : KeepsDirectory T p.text) : Renamed T p.text :=
  (renamed_or p).resolve_right fun hno => hno.1 h

theorem Renamed.directory_eq (h : Renamed T p) (hn : RotatesTo p n) :
    T.directory n = T.directory p ↔ KeepsDirectory T p := by
  obtain ⟨w, hw, rfl⟩ := hn.shape
  rw [(directory_archiveName hw h.extension).1, h.directory]

/-- There is a name for every time. -/
theorem rotatesTo_daysName (t : TimeFields) (p : Bytes) : RotatesTo p (daysName t p) :=
  ⟨t, .inl rfl⟩

/-- **When a log is rotated in its directory**, at any time and in any unit. -/
theorem keepsDirectory_iff (p : LogPath T) :
    (∀ n, RotatesTo p.text n → T.directory n = T.directory p.text) ↔ KeepsDirectory T p.text := by
  rcases renamed_or p with h | ⟨hno, n, hn, hne⟩
  · constructor
    · intro hall
      have hrot := rotatesTo_daysName {} p.text
      exact (h.directory_eq hrot).1 (hall _ hrot)
    · exact fun hk n hn => (h.directory_eq hn).2 hk
  · exact iff_of_false (fun hall => hne (hall n hn)) hno

/-! ## Pairs of logs -/

/-- Two paths of one file. -/
def SameFile (T : DirTree D) (m n : Bytes) : Prop :=
  T.directory m = T.directory n ∧ base m = base n

/-- Both logs are rotated in their directory, and never to the same file. -/
structure Separate (p q : LogPath T) : Prop where
  first : ∀ n, RotatesTo p.text n → T.directory n = T.directory p.text
  second : ∀ n, RotatesTo q.text n → T.directory n = T.directory q.text
  apart : ∀ m n, RotatesTo p.text m → RotatesTo q.text n → ¬ SameFile T m n

/-- **The pairs of logs that rotate apart**: each in its directory, which are two, or path and file
name put together, or the extensions, are different there. -/
structure Apart (T : DirTree D) (p q : Bytes) : Prop where
  first : KeepsDirectory T p
  second : KeepsDirectory T q
  differ : T.directory p = T.directory q → stem p = stem q → extension p ≠ extension q

/-- Archives of logs that stay in their directories. -/
theorem sameFile_iff {p q : LogPath T} (hkp : KeepsDirectory T p.text)
    (hkq : KeepsDirectory T q.text) (hw : Printed w) (hw' : Printed w') :
    SameFile T (archiveName p.text (95 :: w)) (archiveName q.text (95 :: w')) ↔
      T.directory p.text = T.directory q.text ∧ stem p.text ++ (95 :: w ++ 46 :: extension p.text) =
        stem q.text ++ (95 :: w' ++ 46 :: extension q.text) := by
  obtain ⟨hdp, hbp⟩ := directory_archiveName (T := T) hw hkp.renamed.extension
  obtain ⟨hdq, hbq⟩ := directory_archiveName (T := T) hw' hkq.renamed.extension
  rw [SameFile, hdp, hdq, hkp.renamed.directory.2 hkp, hkq.renamed.directory.2 hkq, hbp, hbq]

/-- **When logs rotate apart**, whatever the times and the units. -/
theorem separate_iff (p q : LogPath T) : Separate p q ↔ Apart T p.text q.text := by
  constructor
  · intro h
    have hkp := (keepsDirectory_iff p).1 h.first
    have hkq := (keepsDirectory_iff q).1 h.second
    refine ⟨hkp, hkq, fun hdir hstem hext => ?_⟩
    -- one day for both
    have hw : Printed (dayText {}).tail := printed_dayText {}
    refine h.apart _ _ (rotatesTo_daysName {} p.text) (rotatesTo_daysName {} q.text) ?_
    refine (sameFile_iff hkp hkq hw hw).2 ⟨hdir, ?_⟩
    rw [hstem, hext]
  · intro h
    refine ⟨(keepsDirectory_iff p).2 h.first, (keepsDirectory_iff q).2 h.second, ?_⟩
    intro m n hm hn hsame
    obtain ⟨w, hw, rfl⟩ := hm.shape
    obtain ⟨w', hw', rfl⟩ := hn.shape
    obtain ⟨hdir, htext⟩ := (sameFile_iff h.first h.second hw hw').1 hsame
    obtain ⟨hstem, hext⟩ :=
      tail_inj hw hw' (dot_not_mem_extension p.text) (dot_not_mem_extension q.text) htext
    exact h.differ hdir hstem hext

/-- A working directory with a directory `logs` in it. -/
def logsTree : DirTree (List Bytes) :=
  .plain [[ascii "srv"], [ascii "srv", ascii "logs"]] [ascii "srv"]

/-- `logs/app.log` is rotated to `logsapp_….log`, outside of `logs`. -/
theorem leaves_directory : ¬ ∀ p q : LogPath logsTree, p ≠ q → Separate p q := by
  intro h
  have hsep := h ⟨ascii "logs/app.log", by decide +kernel, by decide +kernel⟩
    ⟨ascii "logs/web.log", by decide +kernel, by decide +kernel⟩
    fun heq => absurd (congrArg LogPath.text heq) (by decide +kernel)
  have hdir := hsep.first _ (rotatesTo_daysName ⟨2024, 5, 17, 10, 0⟩ (ascii "logs/app.log"))
  revert hdir
  decide +kernel

-- the working directory, which `..` leads back to
example : ¬ Separate (T := logsTree) ⟨ascii "logs/..//a", by decide +kernel, by decide +kernel⟩
    ⟨ascii "a.", by decide +kernel, by decide +kernel⟩ := by
  intro h
  refine h.apart _ _ (rotatesTo_daysName {} _) (rotatesTo_daysName {} _) ?_
  unfold SameFile
  decide +kernel

end HttpNest
