import HttpNest.Spec.RunInLoop

/-!
# Which posted function runs when

The loops of `RunInLoop` once more, with an identity for every call of `RunInLoop`: its number
among all calls. What a thread executes is a stack of frames, the innermost first, since on
the loop's own thread `RunInLoop` is a plain call. `posts` lists the thread and the loop of each
call, `started` and `returned` the identities of the posted functions that have been called and
have returned, in that order.
-/

namespace HttpNest

variable {ι : Type*}

/-- A posted function. -/
structure PostedFn (ι : Type*) where
  id : ℕ
  fn : Fn ι

/-- A call in progress: of a posted function, or of a handler or timer callback. -/
structure Frame (ι : Type*) where
  post : Option ℕ
  code : Fn ι

/-- `fns` is `fns_` and `pushing` the loop whose `mtx_` the thread has locked in `RunInLoop`,
with the function to push. -/
structure LoopThread (ι : Type*) where
  fns : List (PostedFn ι) := []
  place : LoopPlace := .handling
  frames : List (Frame ι) := []
  pushing : Option (ι × PostedFn ι) := none

structure PostLoops (ι : Type*) where
  loop : ι → LoopThread ι := fun _ => {}
  mtx : ι → Option ι := fun _ => none
  posts : List (ι × ι) := []
  started : List ℕ := []
  returned : List ℕ := []

namespace PostLoops

variable [DecidableEq ι]

def modify (s : PostLoops ι) (i : ι) (f : LoopThread ι → LoopThread ι) : PostLoops ι :=
  { s with loop := Function.update s.loop i (f (s.loop i)) }

def setMtx (s : PostLoops ι) (i : ι) (owner : Option ι) : PostLoops ι :=
  { s with mtx := Function.update s.mtx i owner }

/-- `RunInLoop` on the loop `j`, by the thread of the loop `i`, whose frames are `frames` when
it returns. -/
def runInLoop (s : PostLoops ι) (i j : ι) (fn : Fn ι) (frames : List (Frame ι)) :
    Option (PostLoops ι) :=
  let id := s.posts.length
  let s := { s with posts := s.posts ++ [(i, j)] }
  if j = i then
    some ({ s with started := s.started ++ [id] }.modify i fun l =>
      { l with frames := ⟨some id, fn⟩ :: frames })
  else if s.mtx j = none then
    some ((s.setMtx j i).modify i fun l =>
      { l with frames := frames, pushing := some (j, ⟨id, fn⟩) })
  else none

/-- The innermost function returns to `frames`. The outermost one is popped, in
`RunFuctions`. -/
def finish (s : PostLoops ι) (i : ι) (post : Option ℕ) (frames : List (Frame ι)) :
    PostLoops ι :=
  { s with returned := s.returned ++ post.toList }.modify i fun l =>
    { l with
      frames := frames
      fns := if l.place = LoopPlace.running ∧ frames = [] then l.fns.tail else l.fns }

/-- The steps of `Loops.step`. -/
def step (s : PostLoops ι) : LoopStep ι → Option (PostLoops ι)
  | .handle i code =>
    if (s.loop i).place = .handling ∧ (s.loop i).frames = [] ∧ (s.loop i).pushing = none then
      some (s.modify i fun l => { l with frames := [⟨none, code⟩] })
    else none
  | .call i =>
    match (s.loop i).pushing, (s.loop i).frames with
    | none, ⟨post, .runInLoop j fn rest⟩ :: frames => s.runInLoop i j fn (⟨post, rest⟩ :: frames)
    | none, ⟨post, .done⟩ :: frames => some (s.finish i post frames)
    | _, _ => none
  | .push i =>
    match (s.loop i).pushing with
    | some (j, p) =>
      some (((s.modify j fun l => { l with fns := l.fns ++ [p] }).setMtx j none).modify i fun l =>
        { l with pushing := none })
    | none => none
  | .runFuctions i =>
    if (s.loop i).place = .handling ∧ (s.loop i).frames = [] ∧ (s.loop i).pushing = none then
      some (s.modify i fun l => { l with place := .locking })
    else none
  | .lock i =>
    if (s.loop i).place = .locking ∧ s.mtx i = none then
      some ((s.setMtx i i).modify i fun l => { l with place := .running })
    else none
  | .front i =>
    if (s.loop i).place = .running ∧ (s.loop i).frames = [] ∧ (s.loop i).pushing = none then
      (s.loop i).fns.head?.map fun p =>
        { s with started := s.started ++ [p.id] }.modify i fun l =>
          { l with frames := [⟨some p.id, p.fn⟩] }
    else none
  | .unlock i =>
    if (s.loop i).place = .running ∧ (s.loop i).frames = [] ∧ (s.loop i).pushing = none ∧
        (s.loop i).fns = [] then
      some ((s.setMtx i none).modify i fun l => { l with place := .handling })
    else none

/-! ## What has been posted and run -/

/-- The calls of `RunInLoop` that satisfy `P`, as thread and loop. -/
def Of (s : PostLoops ι) (P : ι → ι → Prop) (id : ℕ) : Prop :=
  ∃ q, s.posts[id]? = some q ∧ P q.1 q.2

instance (s : PostLoops ι) (P : ι → ι → Prop) [∀ a b, Decidable (P a b)] (id : ℕ) :
    Decidable (s.Of P id) :=
  decidable_of_iff (∃ q ∈ s.posts[id]?, P q.1 q.2) Iff.rfl

/-- The functions that the thread `τ` has posted to the loop `i`, in this order. -/
def posted (s : PostLoops ι) (τ i : ι) : List ℕ :=
  (List.range s.posts.length).filter fun id => s.Of (fun a b => a = τ ∧ b = i) id

/-- Those of them that have been called, in the order of the calls. -/
def ran (s : PostLoops ι) (τ i : ι) : List ℕ :=
  s.started.filter fun id => s.Of (fun a b => a = τ ∧ b = i) id

/-- The posted functions on the stack of the loop's thread. -/
def onStack (s : PostLoops ι) (i : ι) : List ℕ := (s.loop i).frames.filterMap Frame.post

end PostLoops

end HttpNest
