import HttpNest.Lib.Assignments

/-!
# Path names

A path is cut at its `/`. `DirTree.directory` is where it leads: from the root or from where the
reader is, through the components but the empty ones and `.`; `base` is the name in there. What
comes behind a name without adding a `/` stays in the directory (`DirTree.directory_append`).

Nothing is said of where a name leads, `..` among them: there may be links. `DirTree.plain` is a
tree without.

`findLastOf` finds the last symbol of a kind, as `find_last_of` does.
-/

namespace PathNames

open Assignments

/-! ## The last symbol of a kind -/

section LastOf

variable {α : Type*} {p : α → Bool} {a b s : List α} {c : α}

def findLastOf (p : α → Bool) : List α → Option ℕ
  | [] => none
  | c :: s => match findLastOf p s with
    | some i => some (i + 1)
    | none => if p c then some 0 else none

theorem findLastOf_eq_none (h : ∀ c ∈ s, p c = false) : findLastOf p s = none := by
  induction s with
  | nil => rfl
  | cons c s ih =>
    rw [findLastOf, ih fun d hd => h d (List.mem_cons_of_mem _ hd)]
    simp [h c (List.mem_cons_self ..)]

theorem findLastOf_append_cons (hc : p c = true) (hb : ∀ d ∈ b, p d = false) :
    findLastOf p (a ++ c :: b) = some a.length := by
  induction a with
  | nil =>
    rw [List.nil_append, findLastOf, findLastOf_eq_none hb]
    simp [hc]
  | cons d a ih => rw [List.cons_append, findLastOf, ih, List.length_cons]

/-- A text is cut at its last symbol of a kind. -/
theorem exists_last (h : ∃ c ∈ s, p c = true) :
    ∃ a c b, s = a ++ c :: b ∧ p c = true ∧ ∀ d ∈ b, p d = false := by
  induction s with
  | nil =>
    obtain ⟨c, hc, -⟩ := h
    cases hc
  | cons d s ih =>
    by_cases hs : ∃ c ∈ s, p c = true
    · obtain ⟨a, c, b, rfl, hc, hb⟩ := ih hs
      exact ⟨d :: a, c, b, rfl, hc, hb⟩
    · simp only [not_exists, not_and, Bool.not_eq_true] at hs
      obtain ⟨c, hc, hp⟩ := h
      rcases List.mem_cons.1 hc with rfl | hc
      · exact ⟨[], c, s, rfl, hp, hs⟩
      · rw [hs c hc] at hp
        cases hp

theorem exists_last_of_mem [DecidableEq α] (h : c ∈ s) : ∃ a b, s = a ++ c :: b ∧ c ∉ b := by
  obtain ⟨a, c', b, rfl, hc, hb⟩ := exists_last (p := (· == c)) ⟨c, h, beq_self_eq_true c⟩
  obtain rfl : c' = c := beq_iff_eq.1 hc
  exact ⟨a, b, rfl, fun hm => by simpa using hb c' hm⟩

/-- The parts in front of the last `c` and behind it are determined. -/
theorem append_cons_inj_last [DecidableEq α] {a' b' : List α} (hb : c ∉ b) (hb' : c ∉ b')
    (h : a ++ c :: b = a' ++ c :: b') : a = a' ∧ b = b' := by
  have hcut : ∀ {b : List α} (a : List α), c ∉ b →
      findLastOf (· == c) (a ++ c :: b) = some a.length := by
    intro b a hb
    refine findLastOf_append_cons (beq_self_eq_true c) fun d hd => ?_
    exact beq_eq_false_iff_ne.2 fun he => hb (he ▸ hd)
  have hlen := congrArg (findLastOf (· == c)) h
  rw [hcut a hb, hcut a' hb', Option.some.injEq] at hlen
  obtain ⟨ha, hcons⟩ := List.append_inj h hlen
  exact ⟨ha, (List.cons.inj hcons).2⟩

end LastOf

/-! ## Names -/

variable {a b s t : List UInt8}

/-- What stands behind the last `/`. -/
def base (s : List UInt8) : List UInt8 := (s.splitOn 47).getLastD []

theorem base_of_not_mem (h : 47 ∉ s) : base s = s := by
  rw [base, List.splitOn_eq_singleton h]
  rfl

theorem base_append_cons (hb : 47 ∉ b) (a : List UInt8) : base (a ++ 47 :: b) = b := by
  rw [base, List.splitOn_append_cons_self, List.splitOn_eq_singleton hb]
  simp

theorem base_append_cons_ne (hb : 47 ∉ b) (h : base (a ++ 47 :: b) ≠ []) : b ≠ [] := by
  rwa [base_append_cons hb] at h

/-- What is added behind a text without a `/` belongs to the last component. -/
theorem splitOn_append (ht : 47 ∉ t) (s : List UInt8) :
    (s ++ t).splitOn 47 = (s.splitOn 47).dropLast ++ [base s ++ t] := by
  by_cases hs : 47 ∈ s
  · obtain ⟨a, b, rfl, hb⟩ := exists_last_of_mem hs
    have hbt : 47 ∉ b ++ t := by
      rw [List.mem_append, not_or]
      exact ⟨hb, ht⟩
    rw [base_append_cons hb, List.append_assoc, List.cons_append, List.splitOn_append_cons_self,
      List.splitOn_append_cons_self, List.splitOn_eq_singleton hb, List.splitOn_eq_singleton hbt]
    simp
  · have hst : 47 ∉ s ++ t := by
      rw [List.mem_append, not_or]
      exact ⟨hs, ht⟩
    rw [base_of_not_mem hs, List.splitOn_eq_singleton hs, List.splitOn_eq_singleton hst]
    rfl

/-- What varies between two texts is in one component. -/
theorem splitOn_between (s u : List UInt8) : ∃ cs x y cs', ∀ t : List UInt8, 47 ∉ t →
    (s ++ t ++ u).splitOn 47 = cs ++ (x ++ t ++ y) :: cs' := by
  by_cases hu : 47 ∈ u
  · obtain ⟨y, v, rfl, hy⟩ := List.eq_append_cons_of_mem hu
    refine ⟨(s.splitOn 47).dropLast, base s, y, v.splitOn 47, fun t ht => ?_⟩
    have hty : 47 ∉ t ++ y := by
      rw [List.mem_append, not_or]
      exact ⟨ht, hy⟩
    have hcut : s ++ t ++ (y ++ 47 :: v) = (s ++ (t ++ y)) ++ 47 :: v := by simp
    rw [hcut, List.splitOn_append_cons_self, splitOn_append hty]
    simp
  · refine ⟨(s.splitOn 47).dropLast, base s, u, [], fun t ht => ?_⟩
    have htu : 47 ∉ t ++ u := by
      rw [List.mem_append, not_or]
      exact ⟨ht, hu⟩
    rw [List.append_assoc, splitOn_append htu, List.append_assoc]

theorem base_append (ht : 47 ∉ t) (s : List UInt8) : base (s ++ t) = base s ++ t := by
  rw [base, splitOn_append ht]
  simp

/-! ## Directories -/

/-- Directories and where a name leads from one, be it a directory in it, a link or `..`. A name
that leads nowhere is `none`, and all but finitely many do. -/
structure DirTree (D : Type*) where
  root : D
  cwd : D
  enter : D → List UInt8 → Option D
  finite : ∀ d, {c | (enter d c).isSome = true}.Finite

namespace DirTree

variable {D : Type*} (T : DirTree D)

/-- From a directory through one component. -/
def follow (d : D) (c : List UInt8) : Option D :=
  if c = [] ∨ c = [46] then some d else T.enter d c

def walk : D → List (List UInt8) → Option D
  | d, [] => some d
  | d, c :: cs => (T.follow d c).bind fun d' => walk d' cs

def start (s : List UInt8) : D := if s.head? = some 47 then T.root else T.cwd

/-- Where what stands in front of the last `/` leads. -/
def directory (s : List UInt8) : Option D := T.walk (T.start s) (s.splitOn 47).dropLast

/-- Where a text leads that stands in front of a `/`. -/
def target (s : List UInt8) : Option D := T.walk (T.start (s ++ [47])) (s.splitOn 47)

variable {T} {d : D}

theorem walk_append {cs cs' : List (List UInt8)} :
    ∀ {d : D}, T.walk d (cs ++ cs') = (T.walk d cs).bind fun d' => T.walk d' cs' := by
  induction cs with
  | nil => exact rfl
  | cons c cs ih =>
    intro d
    rw [List.cons_append, walk, walk, Option.bind_assoc]
    exact congrArg _ (funext fun d' => ih)

theorem walk_singleton (c : List UInt8) : T.walk d [c] = T.follow d c := by
  rw [walk]
  exact Option.bind_fun_some _

theorem directory_of_not_mem (h : 47 ∉ s) : T.directory s = some T.cwd := by
  have hhead : s.head? ≠ some 47 := fun hs => h (List.mem_of_head? hs)
  rw [directory, start, if_neg hhead, List.splitOn_eq_singleton h]
  rfl

theorem directory_append_cons (hb : 47 ∉ b) (a : List UInt8) :
    T.directory (a ++ 47 :: b) = T.target a := by
  have hhead : (a ++ 47 :: b).head? = (a ++ [47]).head? := by cases a <;> rfl
  rw [directory, target, start, start, hhead, List.splitOn_append_cons_self,
    List.splitOn_eq_singleton hb, List.dropLast_concat]

theorem target_append_cons (a b : List UInt8) :
    T.target (a ++ 47 :: b) = (T.target a).bind fun d => T.walk d (b.splitOn 47) := by
  have hhead : ((a ++ 47 :: b) ++ [47]).head? = (a ++ [47]).head? := by cases a <;> rfl
  rw [target, target, start, start, hhead, List.splitOn_append_cons_self, walk_append]

/-- **What is appended to a name** without a `/` leaves it in its directory. -/
theorem directory_append (ht : 47 ∉ t) (s : List UInt8) :
    T.directory (s ++ t) = T.directory s := by
  have hhead : (s ++ t).head? = some 47 ↔ s.head? = some 47 := by
    cases s with
    | nil =>
      have hne : t.head? ≠ some 47 := fun h => ht (List.mem_of_head? h)
      simpa using hne
    | cons c s => exact Iff.rfl
  have hstart : T.start (s ++ t) = T.start s := by
    unfold start
    simp only [hhead]
  rw [directory, directory, hstart, splitOn_append ht, List.dropLast_concat]

/-- The last component is a step from the directory. -/
theorem target_eq (hs : s ≠ []) :
    T.target s = (T.directory s).bind fun d => T.follow d (base s) := by
  have hhead : (s ++ [47]).head? = s.head? := by
    obtain ⟨c, s, rfl⟩ := List.exists_cons_of_ne_nil hs
    rfl
  have hsplit : s.splitOn 47 = (s.splitOn 47).dropLast ++ [base s] := by
    simpa using splitOn_append List.not_mem_nil s
  rw [target, start, hhead, ← start, hsplit, walk_append, ← directory]
  exact congrArg _ (funext fun d => walk_singleton _)

theorem target_nil : T.target [] = some T.root := rfl

theorem directory_nil : T.directory [] = some T.cwd := rfl

variable (T)

/-- The last component of a text does not leave the directory that it is looked up in. -/
def Rests (s : List UInt8) : Prop :=
  if s = [] then T.root = T.cwd else ∃ d, T.directory s = some d ∧ T.follow d (base s) = some d

variable {T}

/-- **A directory is in itself** only so. -/
theorem directory_eq_iff (h : (T.target s).isSome = true) :
    T.directory s = T.target s ↔ T.Rests s := by
  unfold Rests
  split_ifs with hs
  · rw [hs, target_nil, directory_nil, Option.some.injEq, eq_comm]
  · obtain ⟨e, he⟩ := Option.isSome_iff_exists.1 h
    have hstep := he
    rw [target_eq hs, Option.bind_eq_some_iff] at hstep
    obtain ⟨d, hd, hfollow⟩ := hstep
    rw [he, hd, Option.some.injEq]
    constructor
    · rintro rfl
      exact ⟨d, rfl, hfollow⟩
    · rintro ⟨d', hd', hrest⟩
      cases hd'
      rw [hrest] at hfollow
      exact Option.some.inj hfollow

/-- One of infinitely many names leads nowhere, wherever they stand in a path. -/
theorem exists_walk_eq_none {f : ℕ → List UInt8} (hf : f.Injective)
    (hname : ∀ n, f n ≠ [] ∧ f n ≠ [46]) (d : D) (cs cs' : List (List UInt8)) :
    ∃ n, T.walk d (cs ++ f n :: cs') = none := by
  cases hd : T.walk d cs with
  | none =>
    refine ⟨0, ?_⟩
    rw [walk_append, hd]
    rfl
  | some e =>
    by_contra hall
    simp only [not_exists, ← ne_eq, Option.ne_none_iff_isSome] at hall
    -- otherwise all of them are names in one directory
    refine Set.infinite_of_injective_forall_mem hf (fun n => ?_) (T.finite e)
    have hsome := hall n
    rw [walk_append, hd, Option.bind_some, walk, follow, if_neg (by simp [hname n])] at hsome
    exact Option.isSome_of_isSome_bind hsome

/-- The directories are given by the names on the way from the root; there are no links. -/
def plain (dirs : List (List (List UInt8))) (cwd : List (List UInt8)) :
    DirTree (List (List UInt8)) where
  root := []
  cwd := cwd
  enter d c :=
    if c = [46, 46] then some d.dropLast
    else if d ++ [c] ∈ dirs then some (d ++ [c]) else none
  finite d := by
    refine ((dirs.map fun e => e.getLastD []).toFinset ∪ {[46, 46]}).finite_toSet.subset ?_
    intro c (hc : Option.isSome _ = true)
    simp only [Finset.coe_union, Finset.coe_singleton, Set.mem_union, Set.mem_singleton_iff,
      Finset.mem_coe, List.mem_toFinset, List.mem_map]
    split_ifs at hc with hup hdir
    · exact .inr hup
    · exact .inl ⟨_, hdir, by simp⟩
    · cases hc

end DirTree

end PathNames
