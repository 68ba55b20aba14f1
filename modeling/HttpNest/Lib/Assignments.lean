import HttpNest.Lib.Search

/-!
# Texts of assignments

A text of pieces `name=value` between separators. `assign eq` reads one piece, cut at its
first `eq`; `assignments sep eq` reads a text, and `lastValue` is what a reader knows under a
name when later assignments replace earlier ones.

A code that works symbol by symbol (`flatMap f`) and `Keeps` a delimiter, writing it for
itself and for nothing else, commutes with cutting there: the assignments of a coded text
are the coded assignments (`assignments_flatMap`).
-/

namespace Assignments

open ListSearch

variable {α : Type*} [DecidableEq α] {f : α → List α} {d sep eq : α} {s t k v : List α}

/-- The name and the value of a piece. -/
def assign (eq : α) (s : List α) : Option (List α × List α) :=
  (find [eq] s).map fun pos => (s.take pos, s.drop (pos + 1))

/-- The pieces with an `eq`, in the order of the text. -/
def assignments (sep eq : α) (s : List α) : List (List α × List α) :=
  (s.splitOn sep).filterMap (assign eq)

theorem assign_append_cons (h : eq ∉ k) (v : List α) : assign eq (k ++ eq :: v) = some (k, v) := by
  rw [assign, find_singleton_append h]
  simp

theorem assign_eq_none : assign eq s = none ↔ eq ∉ s := by
  rw [assign, Option.map_eq_none_iff, find_singleton_none]

/-- A piece is cut at its first `eq`. -/
theorem of_assign_eq_some (h : assign eq s = some (k, v)) : s = k ++ eq :: v ∧ eq ∉ k := by
  have hmem : eq ∈ s := by
    by_contra hno
    rw [assign_eq_none.2 hno] at h
    cases h
  obtain ⟨as, bs, rfl, has⟩ := List.eq_append_cons_of_mem hmem
  rw [assign_append_cons has] at h
  cases h
  exact ⟨rfl, has⟩

@[simp] theorem assign_nil : assign eq [] = none := assign_eq_none.2 List.not_mem_nil

theorem not_mem_of_mem_splitOn (h : t ∈ s.splitOn d) : d ∉ t := by
  induction s generalizing t with
  | nil =>
    rw [List.splitOn_nil, List.mem_singleton] at h
    rw [h]
    exact List.not_mem_nil
  | cons c s ih =>
    rw [List.splitOn_cons_eq_if_modifyHead] at h
    split_ifs at h with hc
    · rcases List.mem_cons.1 h with rfl | h
      · exact List.not_mem_nil
      · exact ih h
    · obtain ⟨p, ps, hs⟩ := List.exists_cons_of_ne_nil (List.splitOn_ne_nil d s)
      rw [hs] at h ih
      rcases List.mem_cons.1 h with rfl | h
      · have hp := ih (List.mem_cons_self ..)
        rw [List.mem_cons, not_or]
        exact ⟨fun he => hc (by simp [he]), hp⟩
      · exact ih (List.mem_cons_of_mem _ h)

/-- A piece is a part of the text. -/
theorem mem_of_mem_splitOn {c : α} (h : t ∈ s.splitOn d) (hc : c ∈ t) : c ∈ s := by
  induction s generalizing t with
  | nil =>
    rw [List.splitOn_nil, List.mem_singleton] at h
    rwa [h] at hc
  | cons b s ih =>
    rw [List.splitOn_cons_eq_if_modifyHead] at h
    split_ifs at h
    · rcases List.mem_cons.1 h with rfl | h
      · cases hc
      · exact List.mem_cons_of_mem _ (ih h hc)
    · obtain ⟨p, ps, hs⟩ := List.exists_cons_of_ne_nil (List.splitOn_ne_nil d s)
      rw [hs] at h ih
      rcases List.mem_cons.1 h with rfl | h
      · rcases List.mem_cons.1 hc with rfl | hc
        · exact List.mem_cons_self ..
        · exact List.mem_cons_of_mem _ (ih (List.mem_cons_self ..) hc)
      · exact List.mem_cons_of_mem _ (ih (List.mem_cons_of_mem _ h) hc)

/-- What the delimiters keep out of names and values. -/
theorem of_mem_assignments (h : (k, v) ∈ assignments sep eq s) :
    sep ∉ k ∧ sep ∉ v ∧ eq ∉ k := by
  obtain ⟨t, ht, ha⟩ := List.mem_filterMap.1 h
  have hsep := not_mem_of_mem_splitOn ht
  obtain ⟨rfl, hk⟩ := of_assign_eq_some ha
  simp only [List.mem_append, List.mem_cons, not_or] at hsep
  exact ⟨hsep.1, hsep.2.2, hk⟩

/-- An assignment is written in the text. -/
theorem mem_of_mem_assignments {c : α} (h : (k, v) ∈ assignments sep eq s)
    (hc : c ∈ k ++ eq :: v) : c ∈ s := by
  obtain ⟨t, ht, ha⟩ := List.mem_filterMap.1 h
  obtain ⟨rfl, -⟩ := of_assign_eq_some ha
  exact mem_of_mem_splitOn ht hc

@[simp] theorem assignments_nil : assignments sep eq [] = [] := by
  simp [assignments, List.splitOn_nil]

theorem assignments_append_cons (s t : List α) :
    assignments sep eq (s ++ sep :: t) = assignments sep eq s ++ assignments sep eq t := by
  rw [assignments, List.splitOn_append_cons_self, List.filterMap_append]
  rfl

/-- **Joining texts joins their assignments.** -/
theorem assignments_intercalate (ts : List (List α)) :
    assignments sep eq ([sep].intercalate ts) = ts.flatMap (assignments sep eq) := by
  induction ts with
  | nil => simp
  | cons t ts ih =>
    cases ts with
    | nil => simp
    | cons u us =>
      rw [List.intercalate_cons_of_ne_nil (List.cons_ne_nil _ _), List.append_assoc,
        List.singleton_append, assignments_append_cons, ih]
      rfl

/-- A piece of a name and a value that no delimiter cuts. -/
theorem assignments_piece (hk : sep ∉ k) (hv : sep ∉ v) (he : eq ∉ k) (hd : sep ≠ eq) :
    assignments sep eq (k ++ eq :: v) = [(k, v)] := by
  have hno : sep ∉ k ++ eq :: v := by
    simp only [List.mem_append, List.mem_cons, not_or]
    exact ⟨hk, hd, hv⟩
  rw [assignments, List.splitOn_eq_singleton hno]
  simp [assign_append_cons he]

/-! ## Codes -/

/-- The code writes `d` for `d` and for nothing else. -/
structure Keeps (f : α → List α) (d : α) : Prop where
  self : f d = [d]
  other : ∀ c, c ≠ d → d ∉ f c

theorem Keeps.mem_flatMap (h : Keeps f d) : d ∈ s.flatMap f ↔ d ∈ s := by
  rw [List.mem_flatMap]
  constructor
  · rintro ⟨c, hc, hd⟩
    by_cases he : c = d
    · exact he ▸ hc
    · exact absurd hd (h.other c he)
  · intro hd
    exact ⟨d, hd, by rw [h.self]; exact List.mem_singleton_self d⟩

/-- A front without the delimiter belongs to the first piece. -/
theorem splitOn_append_of_not_mem (h : d ∉ s) (t : List α) :
    (s ++ t).splitOn d = (t.splitOn d).modifyHead (s ++ ·) := by
  induction s with
  | nil =>
    obtain ⟨p, ps, hs⟩ := List.exists_cons_of_ne_nil (List.splitOn_ne_nil d t)
    simp [hs]
  | cons c s ih =>
    rw [List.mem_cons, not_or] at h
    have hc : (c == d) = false := beq_eq_false_iff_ne.2 (Ne.symm h.1)
    rw [List.cons_append, List.splitOn_cons_eq_if_modifyHead, hc, ih h.2]
    obtain ⟨p, ps, hs⟩ := List.exists_cons_of_ne_nil (List.splitOn_ne_nil d t)
    simp [hs]

/-- **Cutting a text that is written symbol by symbol**, where only `d` is written with the
delimiter. -/
theorem splitOn_flatMap_of {β : Type*} [DecidableEq β] {g : β → List α} {d : β} {e : α}
    {bs : List β} (hself : g d = [e]) (hother : ∀ b ∈ bs, b ≠ d → e ∉ g b) :
    (bs.flatMap g).splitOn e = (bs.splitOn d).map (·.flatMap g) := by
  induction bs with
  | nil => simp [List.splitOn_nil]
  | cons c s ih =>
    have ih := ih fun b hb => hother b (List.mem_cons_of_mem _ hb)
    obtain ⟨p, ps, hs⟩ := List.exists_cons_of_ne_nil (List.splitOn_ne_nil d s)
    rw [List.flatMap_cons, List.splitOn_cons_eq_if_modifyHead]
    by_cases hc : c = d
    · subst hc
      rw [hself, List.singleton_append, List.splitOn_cons_eq_if_modifyHead]
      simp [ih]
    · rw [splitOn_append_of_not_mem (hother c (List.mem_cons_self ..) hc), ih, hs]
      simp [hc]

/-- **Cutting a coded text cuts the text.** -/
theorem splitOn_flatMap (h : Keeps f d) (s : List α) :
    (s.flatMap f).splitOn d = (s.splitOn d).map (·.flatMap f) :=
  splitOn_flatMap_of h.self fun c _ hc => h.other c hc

theorem assign_flatMap (h : Keeps f eq) (s : List α) :
    assign eq (s.flatMap f) = (assign eq s).map (Prod.map (·.flatMap f) (·.flatMap f)) := by
  by_cases hs : eq ∈ s
  · obtain ⟨k, v, rfl, hk⟩ := List.eq_append_cons_of_mem hs
    have hk' : eq ∉ k.flatMap f := fun hm => hk (h.mem_flatMap.1 hm)
    rw [List.flatMap_append, List.flatMap_cons, h.self, List.singleton_append,
      assign_append_cons hk', assign_append_cons hk]
    rfl
  · have hs' : eq ∉ s.flatMap f := fun hm => hs (h.mem_flatMap.1 hm)
    rw [assign_eq_none.2 hs, assign_eq_none.2 hs']
    rfl

/-- **The assignments of a coded text are the coded assignments.** -/
theorem assignments_flatMap (hsep : Keeps f sep) (heq : Keeps f eq) (s : List α) :
    assignments sep eq (s.flatMap f) =
      (assignments sep eq s).map (Prod.map (·.flatMap f) (·.flatMap f)) := by
  rw [assignments, splitOn_flatMap hsep, List.filterMap_map, assignments, List.map_filterMap]
  congr 1
  funext t
  exact assign_flatMap heq t

/-! ## The last assignment wins -/

section LastValue

variable {κ β : Type*} [BEq κ]

/-- The value that the last assignment to `x` gives. -/
def lastValue (ps : List (κ × β)) (x : κ) : Option β := ps.reverse.lookup x

variable {ps qs : List (κ × β)} {x : κ} {y : β}

@[simp] theorem lastValue_nil (x : κ) : lastValue ([] : List (κ × β)) x = none := rfl

theorem lastValue_append (ps qs : List (κ × β)) (x : κ) :
    lastValue (ps ++ qs) x = (lastValue qs x).or (lastValue ps x) := by
  rw [lastValue, List.reverse_append, List.lookup_append]
  rfl

theorem lastValue_cons (p : κ × β) (ps : List (κ × β)) (x : κ) :
    lastValue (p :: ps) x = (lastValue ps x).or (if x == p.1 then some p.2 else none) := by
  rw [lastValue, List.reverse_cons, List.lookup_append]
  congr 1
  rw [List.lookup_cons, List.lookup_nil]
  cases x == p.1 <;> rfl

/-- A value known from several texts is the one that the last text with the name gives. -/
theorem lastValue_flatMap_eq_some {ε : Type*} {es : List ε} {g : ε → List (κ × β)}
    (h : lastValue (es.flatMap g) x = some y) : ∃ e ∈ es, lastValue (g e) x = some y := by
  induction es with
  | nil => cases h
  | cons e es ih =>
    rw [List.flatMap_cons, lastValue_append] at h
    cases hes : lastValue (es.flatMap g) x with
    | some z =>
      rw [hes] at h ih
      obtain ⟨e', he', hz⟩ := ih h
      exact ⟨e', List.mem_cons_of_mem _ he', hz⟩
    | none =>
      rw [hes] at h
      exact ⟨e, List.mem_cons_self .., h⟩

theorem lastValue_flatMap_eq_none {ε : Type*} {es : List ε} {g : ε → List (κ × β)}
    (h : lastValue (es.flatMap g) x = none) {e : ε} (he : e ∈ es) : lastValue (g e) x = none := by
  induction es with
  | nil => cases he
  | cons e' es ih =>
    rw [List.flatMap_cons, lastValue_append, Option.or_eq_none_iff] at h
    rcases List.mem_cons.1 he with rfl | he
    · exact h.2
    · exact ih h.1 he

variable [LawfulBEq κ]

theorem lastValue_self (x : κ) (y : β) : lastValue [(x, y)] x = some y := by
  rw [lastValue_cons, if_pos (beq_self_eq_true x)]
  rfl

theorem mem_of_lastValue (h : lastValue ps x = some y) : (x, y) ∈ ps := by
  obtain ⟨as, bs, hl, -⟩ := List.lookup_eq_some_iff.1 h
  rw [← List.mem_reverse, hl]
  simp

/-- Names and values coded without confusing names. -/
theorem lastValue_map {κ' β' : Type*} [BEq κ'] [LawfulBEq κ'] {g : κ → κ'} (hg : g.Injective)
    (g' : β → β') (ps : List (κ × β)) (x : κ) :
    lastValue (ps.map (Prod.map g g')) (g x) = (lastValue ps x).map g' := by
  induction ps with
  | nil => rfl
  | cons p ps ih =>
    have hname : (g x == g p.1) = (x == p.1) := by
      rw [Bool.eq_iff_iff, beq_iff_eq, beq_iff_eq, hg.eq_iff]
    rw [List.map_cons, lastValue_cons, ih, lastValue_cons]
    simp only [Prod.map_fst, Prod.map_snd, hname]
    cases lastValue ps x with
    | some y => rfl
    | none => split_ifs <;> rfl

/-- A map whose entries are assigned in any order of iteration. -/
theorem lastValue_entries [DecidableEq κ] {β' : Type*} (m : AList fun _ : κ => β) (g : β → β')
    (x : κ) : lastValue (m.entries.map fun e => (e.1, g e.2)) x = (m.lookup x).map g := by
  cases hv : lastValue (m.entries.map fun e => (e.1, g e.2)) x with
  | some y =>
    obtain ⟨e, he, heq⟩ := List.mem_map.1 (mem_of_lastValue hv)
    obtain ⟨rfl, rfl⟩ := Prod.mk.inj heq
    have hl : m.lookup e.1 = some e.2 := AList.mem_lookup_iff.2 he
    rw [hl, Option.map_some]
  | none =>
    rw [lastValue, List.lookup_eq_none_iff] at hv
    cases hl : m.lookup x with
    | none => rfl
    | some v =>
      have hmem : (x, g v) ∈ (m.entries.map fun e => (e.1, g e.2)).reverse :=
        List.mem_reverse.2 (List.mem_map_of_mem (AList.mem_lookup_iff.1 hl))
      exact absurd rfl (bne_iff_ne.1 (hv _ hmem))

/-- A map filled by one assignment after the other. -/
theorem lookup_foldl_insert [DecidableEq κ] (ps : List (κ × β)) (m : AList fun _ : κ => β) (x : κ) :
    (ps.foldl (fun m p => m.insert p.1 p.2) m).lookup x = (lastValue ps x).or (m.lookup x) := by
  induction ps generalizing m with
  | nil => rfl
  | cons p ps ih =>
    rw [List.foldl_cons, ih, lastValue_cons, Option.or_assoc]
    congr 1
    split_ifs with hx
    · rw [beq_iff_eq.1 hx, AList.lookup_insert]
      rfl
    · rw [AList.lookup_insert_ne (by simpa using hx)]
      rfl

end LastValue

end Assignments
