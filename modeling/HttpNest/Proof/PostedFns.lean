import HttpNest.Proof.PostLoops

/-!
# Posted functions run once, one at a time, in order

`Tallied` is the invariant of the queue: what other threads have posted to a loop is, in this
order, what has been started, what waits and what is being pushed, and a posted function that
has been started and has not returned is on the stack of the loop's thread. One lemma for each
kind of step keeps it, and `posted_run_once` reads the results off it.
-/

namespace HttpNest

open EventRun

variable {ι : Type*} [DecidableEq ι] {s s' : PostLoops ι}

namespace PostLoops

/-! ## The tally of the posts -/

/-- Posts to the loop `i` by other threads. -/
def Foreign (i : ι) : ι → ι → Prop := fun a b => b = i ∧ a ≠ i

/-- Posts of the loop's own thread. -/
def Own (i : ι) : ι → ι → Prop := fun a b => b = i ∧ a = i

/-- Posts to the loop. -/
def To (i : ι) : ι → ι → Prop := fun _ b => b = i

instance (i a b : ι) : Decidable (Foreign i a b) := inferInstanceAs (Decidable (_ ∧ _))

instance (i a b : ι) : Decidable (Own i a b) := inferInstanceAs (Decidable (_ ∧ _))

section Count

variable (P : ι → ι → Prop) [∀ a b, Decidable (P a b)]

/-- The posts that satisfy `P`, in order. -/
def ids (s : PostLoops ι) : List ℕ := (List.range s.posts.length).filter fun id => s.Of P id

/-- Those of them that have been started, in the order of their starts. -/
def startedOf (s : PostLoops ι) : List ℕ := s.started.filter fun id => s.Of P id

end Count

/-- The functions that wait in the queue of a loop; one that is being run is still in front. -/
def waiting (l : LoopThread ι) : List (PostedFn ι) :=
  if l.place = .running ∧ l.frames ≠ [] then l.fns.tail else l.fns

/-- What a thread is pushing to the loop `i`. -/
def pushedTo (i : ι) : Option (ι × PostedFn ι) → List ℕ
  | none => []
  | some (j, p) => if j = i then [p.id] else []

/-- The function that is being pushed to the loop, by the thread that holds its lock. -/
def pushingTo (s : PostLoops ι) (i : ι) : List ℕ :=
  match s.mtx i with
  | none => []
  | some τ => pushedTo i (s.loop τ).pushing

/-- What has been posted to the loop by other threads and not been started. -/
def inQueue (s : PostLoops ι) (i : ι) : List ℕ :=
  (waiting (s.loop i)).map PostedFn.id ++ s.pushingTo i

/-- The posts of other threads are, in order, those that have been started and those in the
queue; those of the loop's own thread have all been started. What has been started and has not
returned is on the stack of the loop's thread, each but the outermost called by that thread. -/
structure Tallied (s : PostLoops ι) : Prop where
  started_lt : ∀ id ∈ s.started, id < s.posts.length
  returned_lt : ∀ id ∈ s.returned, id < s.posts.length
  queue : ∀ i, s.startedOf (Foreign i) ++ s.inQueue i = s.ids (Foreign i)
  own : ∀ i, s.startedOf (Own i) = s.ids (Own i)
  active : ∀ i id, s.Of (To i) id →
    s.started.count id = s.returned.count id + (s.onStack i).count id
  stack : ∀ i, ∀ id ∈ s.onStack i, s.Of (To i) id
  nested : ∀ i, ∀ f ∈ (s.loop i).frames.dropLast, ∃ id, f.post = some id ∧ s.Of (Own i) id

omit [DecidableEq ι] in
theorem Of.lt {P : ι → ι → Prop} {id : ℕ} (h : s.Of P id) : id < s.posts.length := by
  obtain ⟨q, hq, -⟩ := h
  exact (List.getElem?_eq_some_iff.1 hq).1

omit [DecidableEq ι] in
theorem Of.imp {P Q : ι → ι → Prop} {id : ℕ} (h : s.Of P id) (hPQ : ∀ a b, P a b → Q a b) :
    s.Of Q id := by
  obtain ⟨q, hq, hP⟩ := h
  exact ⟨q, hq, hPQ _ _ hP⟩

omit [DecidableEq ι] in
/-- A post goes to one loop. -/
theorem Of.unique {i k : ι} {id : ℕ} (h : s.Of (To i) id) (h' : s.Of (To k) id) : i = k := by
  obtain ⟨q, hq, hi⟩ := h
  obtain ⟨q', hq', hk⟩ := h'
  rw [hq] at hq'
  cases hq'
  exact hi.symm.trans hk

omit [DecidableEq ι] in
theorem of_congr {P : ι → ι → Prop} {id : ℕ} (hposts : s'.posts = s.posts) :
    s'.Of P id ↔ s.Of P id := by
  unfold Of
  rw [hposts]

/-! ### One more post -/

section Post

variable {q : ι × ι} (hposts : s'.posts = s.posts ++ [q])
include hposts

omit [DecidableEq ι] in
theorem of_concat {P : ι → ι → Prop} {id : ℕ} :
    s'.Of P id ↔ s.Of P id ∨ id = s.posts.length ∧ P q.1 q.2 := by
  unfold Of
  rw [hposts]
  rcases lt_trichotomy id s.posts.length with hlt | rfl | hlt
  · rw [List.getElem?_append_left hlt]
    constructor
    · exact .inl
    · rintro (h | ⟨h, -⟩)
      · exact h
      · omega
  · rw [List.getElem?_concat_length]
    constructor
    · rintro ⟨q', hq', hP⟩
      cases hq'
      exact .inr ⟨rfl, hP⟩
    · rintro (⟨q', hq', -⟩ | ⟨-, hP⟩)
      · rw [List.getElem?_eq_none le_rfl] at hq'
        cases hq'
      · exact ⟨q, rfl, hP⟩
  · rw [List.getElem?_eq_none (by rw [List.length_append, List.length_singleton]; omega),
      List.getElem?_eq_none hlt.le]
    constructor
    · rintro ⟨q', hq', -⟩
      cases hq'
    · rintro (⟨q', hq', -⟩ | ⟨h, -⟩)
      · cases hq'
      · omega

omit [DecidableEq ι] in
theorem of_concat_last {P : ι → ι → Prop} : s'.Of P s.posts.length ↔ P q.1 q.2 := by
  rw [of_concat hposts]
  constructor
  · rintro (h | ⟨-, h⟩)
    · exact absurd h.lt (lt_irrefl _)
    · exact h
  · exact fun h => .inr ⟨rfl, h⟩

omit [DecidableEq ι] in
theorem of_concat_of_lt {P : ι → ι → Prop} {id : ℕ} (hlt : id < s.posts.length) :
    s'.Of P id ↔ s.Of P id := by
  rw [of_concat hposts]
  constructor
  · rintro (h | ⟨h, -⟩)
    · exact h
    · omega
  · exact .inl

variable (P : ι → ι → Prop) [∀ a b, Decidable (P a b)]

omit [DecidableEq ι] in
theorem ids_concat : s'.ids P = s.ids P ++ if P q.1 q.2 then [s.posts.length] else [] := by
  unfold ids
  rw [hposts, List.length_append, List.length_singleton, List.range_succ, List.filter_append]
  congr 1
  · apply List.filter_congr
    intro id hid
    rw [decide_eq_decide, of_concat_of_lt hposts (List.mem_range.1 hid)]
  · rw [List.filter_singleton]
    by_cases hP : P q.1 q.2 <;> simp [of_concat_last hposts, hP]

omit [DecidableEq ι] in
/-- What was started before is counted as before. -/
theorem filter_concat {l : List ℕ} (hl : ∀ id ∈ l, id < s.posts.length) :
    (l.filter fun id => s'.Of P id) = l.filter fun id => s.Of P id := by
  apply List.filter_congr
  intro id hid
  rw [decide_eq_decide, of_concat_of_lt hposts (hl id hid)]

end Post

/-- The identity of the next post has not been seen. -/
theorem Tallied.fresh (h : Tallied s) (k : ι) : s.started.count s.posts.length = 0 ∧
    s.returned.count s.posts.length = 0 ∧ (s.onStack k).count s.posts.length = 0 := by
  simp only [List.count_eq_zero]
  refine ⟨fun hm => ?_, fun hm => ?_, fun hm => ?_⟩
  · exact absurd (h.started_lt _ hm) (lt_irrefl _)
  · exact absurd (h.returned_lt _ hm) (lt_irrefl _)
  · exact absurd (h.stack k _ hm).lt (lt_irrefl _)

/-- A frame with the post of one that was not the outermost. -/
theorem Tallied.nested_of (h : Tallied s) {k : ι} {f g : Frame ι}
    (hof : ∀ {id}, s.Of (Own k) id → s'.Of (Own k) id)
    (hg : g ∈ (s.loop k).frames.dropLast) (hpost : g.post = f.post) :
    ∃ id, f.post = some id ∧ s'.Of (Own k) id := by
  obtain ⟨id, hid, hown⟩ := h.nested k g hg
  exact ⟨id, hpost.symm.trans hid, hof hown⟩

/-! ### Steps that start and return nothing -/

/-- A step that leaves the queues, the stacks and what has been started and returned. -/
theorem Tallied.quiet (h : Tallied s) (hposts : s'.posts = s.posts)
    (hstarted : s'.started = s.started) (hreturned : s'.returned = s.returned)
    (hqueue : ∀ k, s'.inQueue k = s.inQueue k) (hstack : ∀ k, s'.onStack k = s.onStack k)
    (hframes : ∀ k, ∀ f ∈ (s'.loop k).frames.dropLast, f ∈ (s.loop k).frames.dropLast) :
    Tallied s' := by
  have hof : ∀ (P : ι → ι → Prop) id, s'.Of P id ↔ s.Of P id := fun P id => of_congr hposts
  refine ⟨?_, ?_, fun k => ?_, fun k => ?_, fun k id hid => ?_, fun k id hid => ?_,
    fun k f hf => ?_⟩
  · rw [hstarted, hposts]
    exact h.started_lt
  · rw [hreturned, hposts]
    exact h.returned_lt
  · simp only [startedOf, ids, hof, hposts, hstarted, hqueue]
    exact h.queue k
  · simp only [startedOf, ids, hof, hposts, hstarted]
    exact h.own k
  · rw [hstarted, hreturned, hstack]
    exact h.active k id ((hof _ _).1 hid)
  · rw [hof]
    exact h.stack k id (hstack k ▸ hid)
  · exact h.nested_of (hof _ _).2 (hframes k f hf) rfl

/-- A step that leaves the frames too. -/
theorem Tallied.still (h : Tallied s) (hposts : s'.posts = s.posts)
    (hstarted : s'.started = s.started) (hreturned : s'.returned = s.returned)
    (hqueue : ∀ k, s'.inQueue k = s.inQueue k)
    (hframes : ∀ k, (s'.loop k).frames = (s.loop k).frames) : Tallied s' :=
  h.quiet hposts hstarted hreturned hqueue
    (fun k => by rw [onStack, onStack, hframes]) (fun k f hf => hframes k ▸ hf)

/-- The locks and what their holders push. -/
theorem pushingTo_congr {k : ι} (hmtx : s'.mtx k = s.mtx k)
    (hpush : ∀ τ, s.mtx k = some τ →
      pushedTo k (s'.loop τ).pushing = pushedTo k (s.loop τ).pushing) :
    s'.pushingTo k = s.pushingTo k := by
  unfold pushingTo
  rw [hmtx]
  rcases hk : s.mtx k with _ | τ
  · rfl
  · exact hpush τ hk

theorem pushingTo_of_free {k : ι} (h : s.mtx k = none) : s.pushingTo k = [] := by
  rw [pushingTo, h]

theorem pushingTo_of_held {k τ : ι} (h : s.mtx k = some τ) :
    s.pushingTo k = pushedTo k (s.loop τ).pushing := by
  rw [pushingTo, h]

omit [DecidableEq ι] in
theorem waiting_of_frames {l : LoopThread ι} (h : l.frames = []) : waiting l = l.fns := by
  rw [waiting, if_neg (by simp [h])]

omit [DecidableEq ι] in
theorem waiting_of_place {l : LoopThread ι} (h : l.place ≠ .running) : waiting l = l.fns := by
  rw [waiting, if_neg (by simp [h])]

/-- A step of the thread `i` that pushes nothing and locks nothing. -/
theorem inQueue_keep {i : ι} (hother : ∀ k, k ≠ i → s'.loop k = s.loop k) (hmtx : s'.mtx = s.mtx)
    (hpush : (s'.loop i).pushing = (s.loop i).pushing) {k : ι}
    (hwaiting : k = i → waiting (s'.loop i) = waiting (s.loop i)) : s'.inQueue k = s.inQueue k := by
  have hpushing : s'.pushingTo k = s.pushingTo k := by
    refine pushingTo_congr (congrFun hmtx k) fun τ _ => ?_
    by_cases hτ : τ = i
    · rw [hτ, hpush]
    · rw [hother τ hτ]
  rw [inQueue, inQueue, hpushing]
  by_cases hk : k = i
  · rw [hk, hwaiting hk]
  · rw [hother k hk]

theorem Tallied.handle (h : Tallied s) {i : ι} (code : Fn ι)
    (hplace : (s.loop i).place = .handling) (hframes : (s.loop i).frames = []) :
    Tallied (s.modify i fun l => { l with frames := [⟨none, code⟩] }) := by
  set s' := s.modify i fun l => { l with frames := [⟨none, code⟩] } with hs'
  have hself : (s'.loop i).place = .handling ∧ (s'.loop i).fns = (s.loop i).fns ∧
      (s'.loop i).pushing = (s.loop i).pushing := by simp [hs', hplace]
  have hother : ∀ k, k ≠ i → s'.loop k = s.loop k := fun k hk => by simp [hs', hk]
  refine h.quiet rfl rfl rfl (fun k => ?_) (fun k => ?_) fun k f hf => ?_
  · refine inQueue_keep (i := i) hother rfl hself.2.2 fun _ => ?_
    rw [waiting_of_frames hframes, waiting_of_place (by rw [hself.1]; decide), hself.2.1]
  · by_cases hk : k = i
    · subst hk
      simp [onStack, hframes, hs']
    · rw [onStack, onStack, hother k hk]
  · by_cases hk : k = i
    · subst hk
      simp [hs'] at hf
    · exact hother k hk ▸ hf

/-- The pushed function is the last in the queue, where it was counted already. -/
theorem Tallied.push (h : Tallied s) (hl : Locked s) {i j : ι} {p : PostedFn ι}
    (hp : (s.loop i).pushing = some (j, p)) :
    Tallied (((s.modify j fun l => { l with fns := l.fns ++ [p] }).setMtx j none).modify i
      fun l => { l with pushing := none }) := by
  obtain ⟨hown, hj⟩ := hl.pusher i j p hp
  -- the loop is not running functions: its lock is held by the pusher
  have hplace : (s.loop j).place ≠ .running := by
    intro hrun
    have hj' := hl.running j hrun
    rw [hown] at hj'
    exact hj (Option.some.inj hj').symm
  set s' := ((s.modify j fun l => { l with fns := l.fns ++ [p] }).setMtx j none).modify i
    fun l => { l with pushing := none } with hs'
  have hij : i ≠ j := Ne.symm hj
  have hloopj : s'.loop j = { s.loop j with fns := (s.loop j).fns ++ [p] } := by simp [hs', hj]
  have hloopi : s'.loop i = { s.loop i with pushing := none } := by simp [hs', hij]
  have hother : ∀ k, k ≠ i → k ≠ j → s'.loop k = s.loop k := fun k hk hkj => by
    simp [hs', hk, hkj]
  refine h.still rfl rfl rfl (fun k => ?_) fun k => ?_
  · by_cases hkj : k = j
    · subst hkj
      have hfree : s'.mtx k = none := by simp [hs']
      have hpushed : s.pushingTo k = [p.id] := by
        rw [pushingTo_of_held hown, hp, pushedTo, if_pos rfl]
      have hwaiting : waiting (s'.loop k) = (s.loop k).fns ++ [p] := by
        rw [waiting_of_place (by rw [hloopj]; exact hplace), hloopj]
      rw [inQueue, inQueue, pushingTo_of_free hfree, hpushed, hwaiting, waiting_of_place hplace]
      simp
    · have hpushing : s'.pushingTo k = s.pushingTo k := by
        refine pushingTo_congr (by simp [hs', hkj]) fun τ _ => ?_
        by_cases hτi : τ = i
        · rw [hτi, hloopi, hp, pushedTo, pushedTo, if_neg (Ne.symm hkj)]
        · by_cases hτj : τ = j
          · rw [hτj, hloopj]
          · rw [hother τ hτi hτj]
      rw [inQueue, inQueue, hpushing]
      by_cases hki : k = i
      · subst hki
        rw [hloopi]
        rfl
      · rw [hother k hki hkj]
  · by_cases hki : k = i
    · rw [hki, hloopi]
    · by_cases hkj : k = j
      · rw [hkj, hloopj]
      · rw [hother k hki hkj]

theorem Tallied.runFuctions (h : Tallied s) {i : ι} (hframes : (s.loop i).frames = []) :
    Tallied (s.modify i fun l => { l with place := .locking }) := by
  set s' := s.modify i fun l => { l with place := .locking } with hs'
  have hself : (s'.loop i).frames = (s.loop i).frames ∧ (s'.loop i).fns = (s.loop i).fns ∧
      (s'.loop i).pushing = (s.loop i).pushing := by simp [hs']
  have hother : ∀ k, k ≠ i → s'.loop k = s.loop k := fun k hk => by simp [hs', hk]
  refine h.still rfl rfl rfl (fun k => ?_) fun k => ?_
  · refine inQueue_keep (i := i) hother rfl hself.2.2 fun _ => ?_
    rw [waiting_of_frames (hself.1.trans hframes), waiting_of_frames hframes, hself.2.1]
  · by_cases hk : k = i
    · rw [hk, hself.1]
    · rw [hother k hk]

/-- The thread takes or leaves the lock of its own loop, with nothing to push. -/
theorem Tallied.relock (h : Tallied s) {i : ι} {o : Option ι} {place : LoopPlace}
    (ho : o = none ∨ o = some i) (hmtx : s.mtx i = none ∨ s.mtx i = some i)
    (hframes : (s.loop i).frames = []) (hpush : (s.loop i).pushing = none) :
    Tallied ((s.setMtx i o).modify i fun l => { l with place := place }) := by
  set s' := (s.setMtx i o).modify i fun l => { l with place := place } with hs'
  have hloop : s'.loop i = { s.loop i with place := place } := by simp [hs']
  have hother : ∀ k, k ≠ i → s'.loop k = s.loop k := fun k hk => by simp [hs', hk]
  refine h.still rfl rfl rfl (fun k => ?_) fun k => ?_
  · by_cases hk : k = i
    · subst hk
      have hold : s.pushingTo k = [] := by
        rcases hmtx with hm | hm
        · exact pushingTo_of_free hm
        · rw [pushingTo_of_held hm, hpush]
          rfl
      have hnew : s'.pushingTo k = [] := by
        have hself : s'.mtx k = o := by simp [hs']
        rcases ho with rfl | rfl
        · exact pushingTo_of_free hself
        · rw [pushingTo_of_held hself, hloop, hpush]
          rfl
      rw [inQueue, inQueue, hold, hnew, hloop, waiting_of_frames hframes,
        waiting_of_frames (l := { s.loop k with place := place }) hframes]
    · have hpushing : s'.pushingTo k = s.pushingTo k := by
        refine pushingTo_congr (by simp [hs', hk]) fun τ _ => ?_
        by_cases hτ : τ = i
        · rw [hτ, hloop]
        · rw [hother τ hτ]
      rw [inQueue, inQueue, hpushing, hother k hk]
  · by_cases hk : k = i
    · rw [hk, hloop]
    · rw [hother k hk]

/-! ### Starts and returns -/

omit [DecidableEq ι] in
theorem onStack_of_cons {i : ι} {f : Frame ι} {frames : List (Frame ι)}
    (h : (s.loop i).frames = f :: frames) :
    s.onStack i = f.post.toList ++ frames.filterMap Frame.post := by
  rw [onStack, h]
  rcases hf : f.post with _ | n
  · rw [List.filterMap_cons_none hf]
    rfl
  · rw [List.filterMap_cons_some hf]
    rfl

/-- Without its outermost frame a stack of two or more loses the innermost when that returns. -/
theorem mem_dropLast_cons {α : Type*} {a f : α} {l : List α} (h : f ∈ l.dropLast) :
    f ∈ (a :: l).dropLast := by
  cases l with
  | nil => cases h
  | cons b l => exact List.mem_cons_of_mem _ h

theorem Tallied.returns (h : Tallied s) {i : ι} {post : Option ℕ} {frames : List (Frame ι)}
    (hframes : (s.loop i).frames = ⟨post, .done⟩ :: frames) : Tallied (s.finish i post frames) := by
  set s' := s.finish i post frames with hs'
  have hother : ∀ k, k ≠ i → s'.loop k = s.loop k := fun k hk => by simp [hs', finish, hk]
  have hself : (s'.loop i).frames = frames ∧ (s'.loop i).pushing = (s.loop i).pushing ∧
      (s'.loop i).place = (s.loop i).place ∧ (s'.loop i).fns =
        if (s.loop i).place = .running ∧ frames = [] then (s.loop i).fns.tail
        else (s.loop i).fns := by
    simp [hs', finish]
  obtain ⟨hframes', hpush, hplace, hfns⟩ := hself
  have hstack := onStack_of_cons hframes
  have hof : ∀ (P : ι → ι → Prop) id, s'.Of P id ↔ s.Of P id := fun P id => of_congr rfl
  refine ⟨h.started_lt, fun id hid => ?_, fun k => ?_, h.own, fun k id hid => ?_,
    fun k id hid => ?_, fun k f hf => ?_⟩
  · rcases List.mem_append.1 hid with hid | hid
    · exact h.returned_lt id hid
    · exact (h.stack i id (hstack ▸ List.mem_append_left _ hid)).lt
  · -- the function that is popped was not waiting any more
    have hqueue : s'.inQueue k = s.inQueue k := by
      refine inQueue_keep (i := i) hother rfl hpush fun _ => ?_
      unfold waiting
      rw [hframes', hplace, hfns, hframes]
      by_cases hrun : (s.loop i).place = .running <;> by_cases hnil : frames = [] <;>
        simp [hrun, hnil]
    rw [hqueue]
    exact h.queue k
  · have hold := h.active k id ((hof _ _).1 hid)
    rw [show s'.returned = s.returned ++ post.toList from rfl, List.count_append]
    by_cases hk : k = i
    · subst hk
      rw [hstack, List.count_append] at hold
      rw [onStack, hframes', show s'.started = s.started from rfl, hold, Nat.add_assoc]
    · -- what returns belongs to the loop `i`
      have hzero : post.toList.count id = 0 := by
        rw [List.count_eq_zero]
        intro hmem
        have hi := h.stack i id (hstack ▸ List.mem_append_left _ hmem)
        exact hk (((hof _ _).1 hid).unique hi)
      rw [onStack, hother k hk, hzero, Nat.add_zero]
      exact hold
  · by_cases hk : k = i
    · subst hk
      rw [onStack, hframes'] at hid
      exact (hof _ _).2 (h.stack k id (hstack ▸ List.mem_append_right _ hid))
    · rw [onStack, hother k hk] at hid
      exact (hof _ _).2 (h.stack k id hid)
  · by_cases hk : k = i
    · subst hk
      rw [hframes'] at hf
      exact h.nested_of (hof _ _).2 (hframes ▸ mem_dropLast_cons hf) rfl
    · rw [hother k hk] at hf
      exact h.nested_of (hof _ _).2 hf rfl

/-- What the queue holds has been posted by other threads. -/
theorem Tallied.of_inQueue (h : Tallied s) {i : ι} {id : ℕ} (hid : id ∈ s.inQueue i) :
    s.Of (Foreign i) id := by
  have hmem : id ∈ s.ids (Foreign i) := h.queue i ▸ List.mem_append_right _ hid
  simpa [ids] using (List.mem_filter.1 hmem).2

omit [DecidableEq ι] in
theorem not_of_foreign {P : ι → ι → Prop} {i : ι} {id : ℕ} (h : s.Of (Foreign i) id)
    (hP : ∀ a b, Foreign i a b → ¬ P a b) : ¬ s.Of P id := by
  rintro ⟨q, hq, hPq⟩
  obtain ⟨q', hq', hf⟩ := h
  rw [hq] at hq'
  cases hq'
  exact hP _ _ hf hPq

theorem Tallied.front (h : Tallied s) {i : ι} {p : PostedFn ι} {rest : List (PostedFn ι)}
    (hplace : (s.loop i).place = .running) (hframes : (s.loop i).frames = [])
    (hfns : (s.loop i).fns = p :: rest) :
    Tallied ({ s with started := s.started ++ [p.id] }.modify i fun l =>
      { l with frames := [⟨some p.id, p.fn⟩] }) := by
  set s' := { s with started := s.started ++ [p.id] }.modify i fun l =>
    { l with frames := [⟨some p.id, p.fn⟩] } with hs'
  have hother : ∀ k, k ≠ i → s'.loop k = s.loop k := fun k hk => by simp [hs', hk]
  have hself : (s'.loop i).frames = [⟨some p.id, p.fn⟩] ∧
      (s'.loop i).pushing = (s.loop i).pushing ∧ (s'.loop i).place = .running ∧
      (s'.loop i).fns = p :: rest := by simp [hs', hplace, hfns]
  obtain ⟨hframes', hpush, hplace', hfns'⟩ := hself
  have hof : ∀ (P : ι → ι → Prop) id, s'.Of P id ↔ s.Of P id := fun P id => of_congr rfl
  -- the function at the front is the first in the queue, posted by another thread
  have hwaiting : waiting (s.loop i) = p :: rest := by rw [waiting_of_frames hframes, hfns]
  have hforeign : s.Of (Foreign i) p.id :=
    h.of_inQueue (by rw [inQueue, hwaiting]; exact List.mem_cons_self ..)
  have hto : s.Of (To i) p.id := hforeign.imp fun _ _ hf => hf.1
  have hqueue : ∀ k, s'.inQueue k = if k = i then (s.inQueue i).tail else s.inQueue k := by
    intro k
    split_ifs with hk
    · subst hk
      have hwaiting' : waiting (s'.loop k) = rest := by
        rw [waiting, hplace', hframes', hfns']
        simp
      have hpushing : s'.pushingTo k = s.pushingTo k := by
        refine pushingTo_congr rfl fun τ _ => ?_
        by_cases hτ : τ = k
        · rw [hτ, hpush]
        · rw [hother τ hτ]
      rw [inQueue, inQueue, hwaiting', hwaiting, hpushing]
      rfl
    · exact inQueue_keep (i := i) hother rfl hpush fun hki => absurd hki hk
  have hstarted : ∀ (P : ι → ι → Prop) [∀ a b, Decidable (P a b)],
      s'.startedOf P = s.startedOf P ++ if s.Of P p.id then [p.id] else [] := by
    intro P _
    unfold startedOf
    simp only [hof]
    rw [show s'.started = s.started ++ [p.id] from rfl, List.filter_append, List.filter_singleton]
    by_cases hP : s.Of P p.id <;> simp [hP]
  have hnil : s.onStack i = [] := by rw [onStack, hframes, List.filterMap_nil]
  refine ⟨fun id hid => ?_, h.returned_lt, fun k => ?_, fun k => ?_, fun k id hid => ?_,
    fun k id hid => ?_, fun k f hf => ?_⟩
  · rcases List.mem_append.1 hid with hid | hid
    · exact h.started_lt id hid
    · rw [List.mem_singleton.1 hid]
      exact hforeign.lt
  · have hold := h.queue k
    rw [hstarted, hqueue]
    by_cases hk : k = i
    · subst hk
      rw [if_pos hforeign, if_pos rfl, List.append_assoc]
      rw [inQueue, hwaiting] at hold ⊢
      exact hold
    · have hno : ¬ s.Of (Foreign k) p.id := by
        intro hP
        exact hk ((hP.imp fun _ _ hf => hf.1 : s.Of (To k) p.id).unique hto)
      rw [if_neg hno, if_neg hk, List.append_nil]
      exact hold
  · have hno : ¬ s.Of (Own k) p.id := not_of_foreign hforeign fun a b hf ho =>
      hf.2 (ho.2.trans (ho.1.symm.trans hf.1))
    rw [hstarted, if_neg hno, List.append_nil]
    exact h.own k
  · have hold := h.active k id ((hof _ _).1 hid)
    rw [show s'.started = s.started ++ [p.id] from rfl, List.count_append,
      show s'.returned = s.returned from rfl]
    by_cases hk : k = i
    · subst hk
      rw [hnil, List.count_nil, Nat.add_zero] at hold
      rw [onStack, hframes', hold]
      rfl
    · have hzero : [p.id].count id = 0 := by
        rw [List.count_eq_zero, List.mem_singleton]
        rintro rfl
        exact hk (((hof _ _).1 hid).unique hto)
      rw [onStack, hother k hk, hzero, Nat.add_zero]
      exact hold
  · by_cases hk : k = i
    · subst hk
      rw [onStack, hframes'] at hid
      rw [List.mem_singleton.1 hid]
      exact (hof _ _).2 hto
    · rw [onStack, hother k hk] at hid
      exact (hof _ _).2 (h.stack k id hid)
  · by_cases hk : k = i
    · subst hk
      rw [hframes'] at hf
      cases hf
    · rw [hother k hk] at hf
      exact h.nested_of (hof _ _).2 hf rfl

omit [DecidableEq ι] in
/-- The code that is left in the innermost frame does not tell. -/
theorem mem_dropLast_code {post : Option ℕ} {code : Fn ι} {frames : List (Frame ι)} {f : Frame ι}
    (code' : Fn ι) (hf : f ∈ ((⟨post, code⟩ : Frame ι) :: frames).dropLast) :
    ∃ g ∈ ((⟨post, code'⟩ : Frame ι) :: frames).dropLast, g.post = f.post := by
  cases frames with
  | nil => cases hf
  | cons g frames =>
    rw [List.dropLast_cons_of_ne_nil (List.cons_ne_nil _ _)] at hf ⊢
    rcases List.mem_cons.1 hf with rfl | hf
    · exact ⟨_, List.mem_cons_self .., rfl⟩
    · exact ⟨f, List.mem_cons_of_mem _ hf, rfl⟩

/-- `RunInLoop` on the thread's own loop starts the function at once. -/
theorem Tallied.callOwn (h : Tallied s) {i : ι} {post : Option ℕ} {fn rest : Fn ι}
    {frames : List (Frame ι)}
    (hframes : (s.loop i).frames = ⟨post, .runInLoop i fn rest⟩ :: frames) :
    Tallied ({ s with
        posts := s.posts ++ [(i, i)]
        started := s.started ++ [s.posts.length] }.modify i fun l =>
      { l with frames := ⟨some s.posts.length, fn⟩ :: ⟨post, rest⟩ :: frames }) := by
  set s' := { s with
      posts := s.posts ++ [(i, i)]
      started := s.started ++ [s.posts.length] }.modify i fun l =>
    { l with frames := ⟨some s.posts.length, fn⟩ :: ⟨post, rest⟩ :: frames } with hs'
  have hposts : s'.posts = s.posts ++ [(i, i)] := rfl
  have hlen : s'.posts.length = s.posts.length + 1 := by
    rw [hposts, List.length_append, List.length_singleton]
  have hother : ∀ k, k ≠ i → s'.loop k = s.loop k := fun k hk => by simp [hs', hk]
  have hself : (s'.loop i).frames = ⟨some s.posts.length, fn⟩ :: ⟨post, rest⟩ :: frames ∧
      (s'.loop i).pushing = (s.loop i).pushing ∧ (s'.loop i).place = (s.loop i).place ∧
      (s'.loop i).fns = (s.loop i).fns := by simp [hs']
  obtain ⟨hframes', hpush, hplace, hfns⟩ := hself
  have hqueue : ∀ k, s'.inQueue k = s.inQueue k := fun k =>
    inQueue_keep (i := i) hother rfl hpush fun _ => by
      rw [waiting, waiting, hplace, hfns, hframes', hframes]
      simp
  have hstack : s'.onStack i = s.posts.length :: s.onStack i := by
    rw [onStack_of_cons hframes', onStack_of_cons hframes]
    rcases post with _ | n <;> rfl
  -- the new post is counted once, as started
  have hstarted : ∀ (P : ι → ι → Prop) [∀ a b, Decidable (P a b)],
      s'.startedOf P = s.startedOf P ++ if P i i then [s.posts.length] else [] := by
    intro P _
    have hlast : s'.Of P s.posts.length ↔ P i i := of_concat_last hposts
    rw [startedOf, show s'.started = s.started ++ [s.posts.length] from rfl, List.filter_append,
      filter_concat hposts P h.started_lt, List.filter_singleton]
    by_cases hP : P i i <;> simp [hlast, hP, startedOf]
  refine ⟨fun id hid => ?_, fun id hid => ?_, fun k => ?_, fun k => ?_, fun k id hid => ?_,
    fun k id hid => ?_, fun k f hf => ?_⟩
  · rw [hlen]
    rcases List.mem_append.1 hid with hid | hid
    · exact (h.started_lt id hid).trans (Nat.lt_succ_self _)
    · rw [List.mem_singleton.1 hid]
      exact Nat.lt_succ_self _
  · rw [hlen]
    exact (h.returned_lt id hid).trans (Nat.lt_succ_self _)
  · have hno : ¬ Foreign k i i := fun hf => hf.2 hf.1
    rw [hstarted, ids_concat hposts, hqueue, if_neg hno, List.append_nil, List.append_nil]
    exact h.queue k
  · rw [hstarted, ids_concat hposts, h.own k]
  · rw [show s'.started = s.started ++ [s.posts.length] from rfl, List.count_append,
      show s'.returned = s.returned from rfl]
    rcases (of_concat hposts).1 hid with hid | ⟨rfl, hki⟩
    · -- an older post
      have hold := h.active k id hid
      have hne : [s.posts.length].count id = 0 := by
        rw [List.count_eq_zero, List.mem_singleton]
        exact hid.lt.ne
      have hkeep : (s'.onStack k).count id = (s.onStack k).count id := by
        by_cases hk : k = i
        · subst hk
          rw [hstack, ← List.singleton_append, List.count_append, hne, Nat.zero_add]
        · rw [onStack, onStack, hother k hk]
      rw [hne, hkeep, Nat.add_zero]
      exact hold
    · have hki' : i = k := hki
      subst hki'
      obtain ⟨hs0, hr0, ho0⟩ := h.fresh i
      rw [hs0, hr0, hstack, List.count_singleton_self, List.count_cons_self, ho0]
  · by_cases hk : k = i
    · subst hk
      rw [hstack] at hid
      rcases List.mem_cons.1 hid with rfl | hid
      · exact (of_concat hposts).2 (.inr ⟨rfl, rfl⟩)
      · exact (of_concat hposts).2 (.inl (h.stack k id hid))
    · rw [onStack, hother k hk] at hid
      exact (of_concat hposts).2 (.inl (h.stack k id hid))
  · by_cases hk : k = i
    · subst hk
      rw [hframes', List.dropLast_cons_of_ne_nil (List.cons_ne_nil _ _)] at hf
      rcases List.mem_cons.1 hf with rfl | hf
      · exact ⟨_, rfl, (of_concat hposts).2 (.inr ⟨rfl, rfl, rfl⟩)⟩
      · -- the caller and those outside it, with the same posts as before
        obtain ⟨g, hg, hpost⟩ := mem_dropLast_code (.runInLoop k fn rest) hf
        exact h.nested_of (fun hown => (of_concat hposts).2 (.inl hown)) (hframes ▸ hg) hpost
    · rw [hother k hk] at hf
      exact h.nested_of (fun hown => (of_concat hposts).2 (.inl hown)) hf rfl

/-- `RunInLoop` on another loop: the function is last in that loop's queue. -/
theorem Tallied.callForeign (h : Tallied s) {i j : ι} {post : Option ℕ} {fn rest : Fn ι}
    {frames : List (Frame ι)} (hj : j ≠ i) (hnone : (s.loop i).pushing = none)
    (hfree : s.mtx j = none)
    (hframes : (s.loop i).frames = ⟨post, .runInLoop j fn rest⟩ :: frames) :
    Tallied (({ s with posts := s.posts ++ [(i, j)] }.setMtx j i).modify i fun l =>
      { l with frames := ⟨post, rest⟩ :: frames, pushing := some (j, ⟨s.posts.length, fn⟩) }) := by
  set s' := ({ s with posts := s.posts ++ [(i, j)] }.setMtx j i).modify i fun l =>
    { l with frames := ⟨post, rest⟩ :: frames, pushing := some (j, ⟨s.posts.length, fn⟩) } with hs'
  have hposts : s'.posts = s.posts ++ [(i, j)] := rfl
  have hlen : s'.posts.length = s.posts.length + 1 := by
    rw [hposts, List.length_append, List.length_singleton]
  have hother : ∀ k, k ≠ i → s'.loop k = s.loop k := fun k hk => by simp [hs', hk]
  have hself : (s'.loop i).frames = ⟨post, rest⟩ :: frames ∧
      (s'.loop i).pushing = some (j, ⟨s.posts.length, fn⟩) ∧
      (s'.loop i).place = (s.loop i).place ∧ (s'.loop i).fns = (s.loop i).fns := by simp [hs']
  obtain ⟨hframes', hpush, hplace, hfns⟩ := hself
  have hwaiting : ∀ k, waiting (s'.loop k) = waiting (s.loop k) := by
    intro k
    by_cases hk : k = i
    · rw [hk, waiting, waiting, hplace, hfns, hframes', hframes]
      simp
    · rw [hother k hk]
  have hqueue : ∀ k, s'.inQueue k = s.inQueue k ++ if j = k then [s.posts.length] else [] := by
    intro k
    rw [inQueue, inQueue, hwaiting, List.append_assoc]
    congr 1
    by_cases hk : k = j
    · subst hk
      have hown : s'.mtx k = some i := by simp [hs']
      rw [pushingTo_of_held hown, pushingTo_of_free hfree, hpush, if_pos rfl, pushedTo, if_pos rfl,
        List.nil_append]
    · rw [if_neg (Ne.symm hk), List.append_nil]
      refine pushingTo_congr (by simp [hs', hk]) fun τ _ => ?_
      by_cases hτ : τ = i
      · rw [hτ, hpush, hnone, pushedTo, pushedTo, if_neg (Ne.symm hk)]
      · rw [hother τ hτ]
  have hstarted : ∀ (P : ι → ι → Prop) [∀ a b, Decidable (P a b)],
      s'.startedOf P = s.startedOf P := fun P _ => filter_concat hposts P h.started_lt
  have hstack : ∀ k, s'.onStack k = s.onStack k := by
    intro k
    by_cases hk : k = i
    · rw [hk, onStack_of_cons hframes', onStack_of_cons hframes]
    · rw [onStack, onStack, hother k hk]
  refine ⟨fun id hid => ?_, fun id hid => ?_, fun k => ?_, fun k => ?_, fun k id hid => ?_,
    fun k id hid => ?_, fun k f hf => ?_⟩
  · rw [hlen]
    exact (h.started_lt id hid).trans (Nat.lt_succ_self _)
  · rw [hlen]
    exact (h.returned_lt id hid).trans (Nat.lt_succ_self _)
  · have hiff : Foreign k i j ↔ j = k :=
      ⟨And.left, fun hjk => ⟨hjk, fun hik => hj (hjk.trans hik.symm)⟩⟩
    rw [hstarted, hqueue, ids_concat hposts, ← List.append_assoc, h.queue k]
    simp only [hiff]
  · have hno : ¬ Own k i j := fun ho => hj (ho.1.trans ho.2.symm)
    rw [hstarted, ids_concat hposts, if_neg hno, List.append_nil]
    exact h.own k
  · rw [show s'.started = s.started from rfl, show s'.returned = s.returned from rfl, hstack]
    rcases (of_concat hposts).1 hid with hid | ⟨rfl, -⟩
    · exact h.active k id hid
    · obtain ⟨hs0, hr0, ho0⟩ := h.fresh k
      rw [hs0, hr0, ho0]
  · exact (of_concat hposts).2 (.inl (h.stack k id (hstack k ▸ hid)))
  · by_cases hk : k = i
    · subst hk
      rw [hframes'] at hf
      obtain ⟨g, hg, hpost⟩ := mem_dropLast_code (.runInLoop j fn rest) hf
      exact h.nested_of (fun hown => (of_concat hposts).2 (.inl hown)) (hframes ▸ hg) hpost
    · rw [hother k hk] at hf
      exact h.nested_of (fun hown => (of_concat hposts).2 (.inl hown)) hf rfl

/-! ## Runs -/

omit [DecidableEq ι] in
theorem tallied_start [DecidableEq ι] : Tallied ({} : PostLoops ι) where
  started_lt _ h := by cases h
  returned_lt _ h := by cases h
  queue _ := rfl
  own _ := rfl
  active _ _ _ := rfl
  stack _ _ h := by cases h
  nested _ _ h := by cases h

theorem Tallied.move {e : LoopStep ι} (h : Tallied s) (hl : Locked s) (hs : s.Move e s') :
    Tallied s' := by
  cases hs with
  | handle code hplace hframes => exact h.handle code hplace hframes
  | own _ hframes => exact h.callOwn hframes
  | foreign hj hnone hfree hframes => exact h.callForeign hj hnone hfree hframes
  | returns _ hframes => exact h.returns hframes
  | push hp => exact h.push hl hp
  | runFuctions _ hframes _ => exact h.runFuctions hframes
  | lock hplace hfree =>
    obtain ⟨hframes, hpush⟩ := hl.locking _ hplace
    exact h.relock (.inr rfl) (.inl hfree) hframes hpush
  | front hplace hframes _ hfns => exact h.front hplace hframes hfns
  | unlock hplace hframes hpush _ =>
    exact h.relock (.inl rfl) (.inr (hl.running _ hplace)) hframes hpush

/-- In every run. -/
theorem run_tallied {es : List (LoopStep ι)} (h : run step {} es = some s) :
    Locked s ∧ Tallied s :=
  run_inv (fun s => Locked s ∧ Tallied s)
    (fun _ _ _ hs he => ⟨hs.1.move (step_move he), hs.2.move hs.1 (step_move he)⟩)
    ⟨locked_start, tallied_start⟩ h

/-! ## What runs when -/

/-- The posts to a loop, by whichever thread, are started without repetition. -/
theorem Tallied.started_count (h : Tallied s) {i : ι} {id : ℕ} (hid : s.Of (To i) id) :
    s.started.count id ≤ 1 := by
  have hnodup : ∀ (P : ι → ι → Prop) [∀ a b, Decidable (P a b)], (s.ids P).Nodup :=
    fun P _ => List.nodup_range.filter _
  have hcount : ∀ (P : ι → ι → Prop) [∀ a b, Decidable (P a b)], s.Of P id →
      s.startedOf P <+: s.ids P → s.started.count id ≤ 1 := by
    intro P _ hP hpre
    have heq : (s.startedOf P).count id = s.started.count id :=
      List.count_filter (by simpa using hP)
    rw [← heq]
    exact List.nodup_iff_count_le_one.1 (hpre.sublist.nodup (hnodup P)) id
  obtain ⟨q, hq, hto⟩ := hid
  by_cases hown : q.1 = i
  · exact hcount (Own i) ⟨q, hq, hto, hown⟩ (h.own i ▸ List.prefix_refl _)
  · exact hcount (Foreign i) ⟨q, hq, hto, hown⟩ (h.queue i ▸ List.prefix_append _ _)

/-- The posts of one thread to a loop start in their order. -/
theorem Tallied.ran_prefix (h : Tallied s) (τ i : ι) : s.ran τ i <+: s.posted τ i := by
  have hfilter : ∀ (P : ι → ι → Prop) [∀ a b, Decidable (P a b)],
      (∀ a b, a = τ ∧ b = i → P a b) → s.startedOf P <+: s.ids P → s.ran τ i <+: s.posted τ i := by
    intro P _ hP hpre
    have hsub : ∀ l : List ℕ, ((l.filter fun id => s.Of P id).filter fun id =>
        s.Of (fun a b => a = τ ∧ b = i) id) =
          l.filter fun id => s.Of (fun a b => a = τ ∧ b = i) id := by
      intro l
      rw [List.filter_filter]
      apply List.filter_congr
      intro id _
      by_cases hid : s.Of (fun a b => a = τ ∧ b = i) id
      · simp [hid, hid.imp hP]
      · simp [hid]
    have hmono := hpre.filter fun id => decide (s.Of (fun a b => a = τ ∧ b = i) id)
    rwa [startedOf, ids, hsub, hsub] at hmono
  by_cases hτ : τ = i
  · exact hfilter (Own i) (fun a b hab => ⟨hab.2, hab.1.trans hτ⟩) (h.own i ▸ List.prefix_refl _)
  · exact hfilter (Foreign i) (fun a b hab => ⟨hab.2, fun ha => hτ (hab.1.symm.trans ha)⟩)
      (h.queue i ▸ List.prefix_append _ _)

/-- At the end of `RunFuctions` nothing is in the queue or on the stack. -/
theorem Tallied.drained (h : Tallied s) {i : ι} (hframes : (s.loop i).frames = [])
    (hown : s.mtx i = some i) (hpush : (s.loop i).pushing = none) (hfns : (s.loop i).fns = [])
    {id : ℕ} (hid : s.Of (To i) id) : s.started.count id = 1 ∧ s.returned.count id = 1 := by
  have hqueue : s.inQueue i = [] := by
    rw [inQueue, waiting_of_frames hframes, hfns, pushingTo_of_held hown, hpush]
    rfl
  have hmem : ∀ (P : ι → ι → Prop) [∀ a b, Decidable (P a b)], s.Of P id →
      s.startedOf P = s.ids P → id ∈ s.started := by
    intro P _ hP heq
    have hin : id ∈ s.ids P := List.mem_filter.2 ⟨List.mem_range.2 hP.lt, by simpa using hP⟩
    rw [← heq] at hin
    exact (List.mem_filter.1 hin).1
  have hstarted : id ∈ s.started := by
    obtain ⟨q, hq, hto⟩ := hid
    by_cases hq1 : q.1 = i
    · exact hmem (Own i) ⟨q, hq, hto, hq1⟩ (h.own i)
    · have hall := h.queue i
      rw [hqueue, List.append_nil] at hall
      exact hmem (Foreign i) ⟨q, hq, hto, hq1⟩ hall
  have hone : s.started.count id = 1 :=
    Nat.le_antisymm (h.started_count hid) (List.count_pos_iff.2 hstarted)
  have hactive := h.active i id hid
  rw [onStack, hframes, List.filterMap_nil, List.count_nil, Nat.add_zero] at hactive
  exact ⟨hone, hactive ▸ hone⟩

/-- **Posted functions run once, one at a time and in order.** In every state of every run of
any number of threads that call `RunInLoop` and drain their queues:

* what a thread has posted to a loop has been started in the order of the posts, none of it
  twice and none left out;
* whatever has been posted to a loop before a drain of its queue is complete has been started
  and has returned exactly once when it is;
* a posted function that has been started and has not returned is on the stack of its loop's
  thread, and each call on that stack but the outermost is a post of that thread to itself:
  no two functions of a loop are executed at the same time. -/
theorem posted_run_once {es : List (LoopStep ι)} (h : run step {} es = some s) :
    (∀ τ i, s.ran τ i <+: s.posted τ i) ∧
      (∀ i id, s.Of (To i) id → s.started.count id ≤ 1 ∧
        s.started.count id = s.returned.count id + (s.onStack i).count id) ∧
      (∀ i s', s.step (.unlock i) = some s' → ∀ id, s.Of (To i) id →
        s.started.count id = 1 ∧ s.returned.count id = 1) ∧
      ∀ i, ∀ f ∈ (s.loop i).frames.dropLast, ∃ id, f.post = some id ∧ s.Of (Own i) id := by
  obtain ⟨hl, ht⟩ := run_tallied h
  refine ⟨ht.ran_prefix, fun i id hid => ⟨ht.started_count hid, ht.active i id hid⟩, ?_, ht.nested⟩
  intro i s' hs' id hid
  obtain ⟨⟨hplace, hframes, hpush, hfns⟩, -⟩ := Option.ite_none_right_eq_some.1 hs'
  exact ht.drained hframes (hl.running i hplace) hpush hfns hid

/-- One thread posts to the loop of another one, which drains its queue. -/
theorem posted_run_once_drain : ∃ s : PostLoops Bool, run step {}
      [.handle true (.runInLoop false .done .done), .call true, .push true, .runFuctions false,
        .lock false, .front false, .call false] = some s ∧
    s.started.count 0 = 1 ∧ s.returned.count 0 = 1 := by
  have hrun : run step ({} : PostLoops Bool)
      [.handle true (.runInLoop false .done .done), .call true, .push true, .runFuctions false,
        .lock false, .front false, .call false] = some _ := rfl
  exact ⟨_, hrun, (posted_run_once hrun).2.2.1 false _ rfl 0 ⟨(true, false), rfl, rfl⟩⟩

end PostLoops

end HttpNest
