import HttpNest.Lib.Assignments

/-!
# Files and their names

A `FileSystem` has files, and names for some of them; no file has two names. `openFile` makes a
file where the name stands for none, `append` writes at the end of a file, and `rename` gives a
file another name. A file that has lost its name to another one is still there for who has it
open.

A text that is cut into pieces, each kept under a name, is still there as a whole only if no
name has been used again (`lastPieces_eq_iff`).
-/

open Function Assignments

structure FileSystem (ν α : Type*) where
  entry : ν → Option ℕ
  content : ℕ → List α
  next : ℕ
  lt_next : ∀ n i, entry n = some i → i < next
  inj : ∀ m n i, entry m = some i → entry n = some i → m = n

namespace FileSystem

variable {ν α : Type*} {fs fs' : FileSystem ν α} {m n old new : ν} {i : ℕ} {xs : List α}

/-- No files. -/
def empty : FileSystem ν α where
  entry _ := none
  content _ := []
  next := 0
  lt_next _ _ h := (by cases h)
  inj _ _ _ h := (by cases h)

/-- What is read under a name. -/
def read (fs : FileSystem ν α) (n : ν) : Option (List α) := (fs.entry n).map fs.content

/-- A write with `O_APPEND`. -/
def append (fs : FileSystem ν α) (i : ℕ) (xs : List α) : FileSystem ν α :=
  { fs with content := update fs.content i (fs.content i ++ xs) }

theorem read_append_self (h : fs.entry n = some i) (xs : List α) :
    (fs.append i xs).read n = some (fs.content i ++ xs) := by
  show (fs.entry n).map (update fs.content i _) = _
  rw [h, Option.map_some, update_self]

theorem read_append_of_ne (h : fs.entry n ≠ some i) (xs : List α) :
    (fs.append i xs).read n = fs.read n := by
  show (fs.entry n).map (update fs.content i _) = (fs.entry n).map fs.content
  cases hn : fs.entry n with
  | none => rfl
  | some j =>
    have hj : j ≠ i := fun hj => h (hj ▸ hn)
    rw [Option.map_some, Option.map_some, update_of_ne hj]

@[simp] theorem entry_append (i : ℕ) (xs : List α) : (fs.append i xs).entry = fs.entry := rfl

@[simp] theorem content_append_self (i : ℕ) (xs : List α) :
    (fs.append i xs).content i = fs.content i ++ xs := update_self ..

variable [DecidableEq ν]

/-- A new file, under this name. -/
def create (fs : FileSystem ν α) (n : ν) : FileSystem ν α where
  entry := update fs.entry n (some fs.next)
  content := update fs.content fs.next []
  next := fs.next + 1
  lt_next m i h := by
    by_cases hm : m = n
    · rw [hm, update_self] at h
      cases h
      exact Nat.lt_succ_self _
    · rw [update_of_ne hm] at h
      exact Nat.lt_succ_of_lt (fs.lt_next m i h)
  inj m m' i h h' := by
    have hother : ∀ {k : ν}, k ≠ n → fs.entry k ≠ some fs.next :=
      fun _ hk => absurd (fs.lt_next _ _ hk) (lt_irrefl _)
    by_cases hm : m = n <;> by_cases hm' : m' = n
    · exact hm.trans hm'.symm
    · rw [hm, update_self] at h
      rw [update_of_ne hm', ← h] at h'
      exact absurd h' (hother hm')
    · rw [hm', update_self] at h'
      rw [update_of_ne hm, ← h'] at h
      exact absurd h (hother hm)
    · rw [update_of_ne hm] at h
      rw [update_of_ne hm'] at h'
      exact fs.inj _ _ _ h h'

/-- `open` with `O_CREAT`: the file under this name, which is made if there is none. -/
def openFile (fs : FileSystem ν α) (n : ν) : FileSystem ν α × ℕ :=
  match fs.entry n with
  | some i => (fs, i)
  | none => (fs.create n, fs.next)

/-- The file `old` is called `new`, and what was called `new` before has lost its name. -/
def rename (fs : FileSystem ν α) (old new : ν) : Option (FileSystem ν α) :=
  match h : fs.entry old with
  | none => none
  | some i => some { fs with
      entry := update (update fs.entry old none) new (some i)
      lt_next := by
        intro m k hk
        by_cases hm : m = new
        · rw [hm, update_self] at hk
          cases hk
          exact fs.lt_next old i h
        · rw [update_of_ne hm] at hk
          by_cases hm' : m = old
          · rw [hm', update_self] at hk
            cases hk
          · rw [update_of_ne hm'] at hk
            exact fs.lt_next m k hk
      inj := by
        -- the file is not found under any other name
        have hother : ∀ {k j}, k ≠ new → update fs.entry old none k = some j →
            fs.entry k = some j ∧ j ≠ i := by
          intro k j hk hj
          by_cases hk' : k = old
          · rw [hk', update_self] at hj
            cases hj
          · rw [update_of_ne hk'] at hj
            refine ⟨hj, ?_⟩
            rintro rfl
            exact hk' (fs.inj _ _ _ hj h)
        intro m m' j hj hj'
        by_cases hm : m = new <;> by_cases hm' : m' = new
        · exact hm.trans hm'.symm
        · rw [hm, update_self] at hj
          rw [update_of_ne hm'] at hj'
          exact absurd (Option.some.inj hj).symm (hother hm' hj').2
        · rw [hm', update_self] at hj'
          rw [update_of_ne hm] at hj
          exact absurd (Option.some.inj hj').symm (hother hm hj).2
        · rw [update_of_ne hm] at hj
          rw [update_of_ne hm'] at hj'
          exact fs.inj _ _ _ (hother hm hj).1 (hother hm' hj').1 }

/-! ## What is read after an operation -/

/-- What a renaming has done. -/
theorem rename_eq_some (h : fs.rename old new = some fs') : ∃ i, fs.entry old = some i ∧
    fs'.entry = update (update fs.entry old none) new (some i) ∧ fs'.content = fs.content := by
  unfold rename at h
  split at h
  · cases h
  · rename_i i hi
    cases h
    exact ⟨i, hi, rfl, rfl⟩

theorem rename_isSome (fs : FileSystem ν α) (new : ν) (h : fs.entry old = some i) :
    (fs.rename old new).isSome := by
  unfold rename
  split
  · rename_i hnone
    rw [h] at hnone
    cases hnone
  · rfl

theorem rename_eq_none (new : ν) (h : fs.entry old = none) : fs.rename old new = none := by
  cases hr : fs.rename old new with
  | none => rfl
  | some fs' =>
    obtain ⟨i, hi, -⟩ := rename_eq_some hr
    rw [h] at hi
    cases hi

theorem read_rename_new (h : fs.rename old new = some fs') : fs'.read new = fs.read old := by
  obtain ⟨i, hi, hentry, hcontent⟩ := rename_eq_some h
  rw [read, read, hentry, update_self, hi, hcontent]

theorem read_rename_of_ne (h : fs.rename old new = some fs') (hold : n ≠ old) (hnew : n ≠ new) :
    fs'.entry n = fs.entry n ∧ fs'.read n = fs.read n := by
  obtain ⟨i, -, hentry, hcontent⟩ := rename_eq_some h
  have hn : fs'.entry n = fs.entry n := by
    rw [hentry, update_of_ne hnew, update_of_ne hold]
  exact ⟨hn, by rw [read, read, hn, hcontent]⟩

/-- What opening a name that stands for no file has done. -/
theorem openFile_of_none (h : fs.entry n = none) : fs.openFile n = (fs.create n, fs.next) := by
  rw [openFile, h]

theorem openFile_of_some (h : fs.entry n = some i) : fs.openFile n = (fs, i) := by
  rw [openFile, h]

/-- Opening changes nothing for other names and files. -/
theorem read_openFile_of_ne (hm : m ≠ n) :
    (fs.openFile n).1.entry m = fs.entry m ∧ (fs.openFile n).1.read m = fs.read m := by
  cases hn : fs.entry n with
  | some i => exact openFile_of_some hn ▸ ⟨rfl, rfl⟩
  | none =>
    have hentry : (fs.create n).entry m = fs.entry m := update_of_ne hm _ _
    rw [openFile_of_none hn]
    refine ⟨hentry, ?_⟩
    show ((fs.create n).entry m).map (update fs.content fs.next []) = (fs.entry m).map fs.content
    rw [hentry]
    cases hk : fs.entry m with
    | none => rfl
    | some k =>
      have hlt := fs.lt_next m k hk
      rw [Option.map_some, Option.map_some, update_of_ne (by omega)]

theorem entry_openFile (fs : FileSystem ν α) (n : ν) :
    (fs.openFile n).1.entry n = some (fs.openFile n).2 := by
  cases hn : fs.entry n with
  | some i =>
    rw [openFile_of_some hn]
    exact hn
  | none =>
    rw [openFile_of_none hn]
    exact update_self ..

end FileSystem

/-! ## Pieces under names -/

namespace Assignments

variable {ν α : Type*} [DecidableEq ν] {ps : List (ν × List α)}

/-- What is still there of the pieces: the last one under each name, in the order of these. -/
def lastPieces (ps : List (ν × List α)) : List α :=
  (ps.map Prod.fst).dedup.flatMap fun n => (lastValue ps n).getD []

theorem lastValue_isSome {n : ν} (h : n ∈ ps.map Prod.fst) : (lastValue ps n).isSome := by
  induction ps with
  | nil => cases h
  | cons p ps ih =>
    rw [lastValue_cons, Option.isSome_or, Bool.or_eq_true]
    rcases List.mem_cons.1 h with rfl | h
    · exact .inr (by rw [if_pos (beq_self_eq_true _)]; rfl)
    · exact .inl (ih h)

/-- In front of other pieces one is still there if its name is not used again. -/
theorem lastPieces_cons (p : ν × List α) (ps : List (ν × List α)) : lastPieces (p :: ps) =
    (if p.1 ∈ ps.map Prod.fst then [] else p.2) ++ lastPieces ps := by
  have hsame : ∀ n ∈ ps.map Prod.fst, lastValue (p :: ps) n = lastValue ps n := by
    intro n hn
    obtain ⟨x, hx⟩ := Option.isSome_iff_exists.1 (lastValue_isSome hn)
    rw [lastValue_cons, hx]
    rfl
  have htail : ((ps.map Prod.fst).dedup.flatMap fun n => (lastValue (p :: ps) n).getD []) =
      lastPieces ps := by
    refine List.flatMap_congr fun n hn => ?_
    rw [hsame n (List.mem_dedup.1 hn)]
  rw [lastPieces, List.map_cons]
  split_ifs with hmem
  · rw [List.dedup_cons_of_mem hmem, htail, List.nil_append]
  · have hnone : lastValue ps p.1 = none := by
      cases hv : lastValue ps p.1 with
      | none => rfl
      | some x => exact absurd (List.mem_map.2 ⟨_, mem_of_lastValue hv, rfl⟩) hmem
    rw [List.dedup_cons_of_notMem hmem, List.flatMap_cons, htail, lastValue_cons, hnone,
      if_pos (beq_self_eq_true _)]
    rfl

/-- **Nothing is lost exactly if no name has been used again**, for pieces that are not empty. -/
theorem lastPieces_eq_iff (h : ∀ p ∈ ps, p.2 ≠ []) :
    lastPieces ps = ps.flatMap Prod.snd ↔ (ps.map Prod.fst).Nodup := by
  have hle : ∀ ps : List (ν × List α),
      (lastPieces ps).length ≤ (ps.flatMap Prod.snd).length := by
    intro ps
    induction ps with
    | nil => exact le_rfl
    | cons p ps ih =>
      rw [lastPieces_cons, List.flatMap_cons, List.length_append, List.length_append]
      split_ifs
      · rw [List.length_nil]
        omega
      · omega
  induction ps with
  | nil => exact iff_of_true rfl List.nodup_nil
  | cons p ps ih =>
    rw [lastPieces_cons, List.map_cons, List.nodup_cons, List.flatMap_cons]
    by_cases hmem : p.1 ∈ ps.map Prod.fst
    · refine iff_of_false (fun heq => ?_) (fun hnd => hnd.1 hmem)
      rw [if_pos hmem, List.nil_append] at heq
      have hlen := congrArg List.length heq
      have hpos := List.length_pos_iff.2 (h p (List.mem_cons_self ..))
      have hless := hle ps
      rw [List.length_append] at hlen
      omega
    · have hrest := ih fun q hq => h q (List.mem_cons_of_mem _ hq)
      rw [if_neg hmem, List.append_cancel_left_eq]
      exact hrest.trans (and_iff_right hmem).symm

end Assignments
