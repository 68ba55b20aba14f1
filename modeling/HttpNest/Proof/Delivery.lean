import HttpNest.Spec.Delivery

/-!
# What a log says

How each step of a `Delivery` extends what is read from its log. The bytes given to `Send` are
the ones written and the ones unwritten (`Delivery.Balanced`).
-/

namespace HttpNest

open EventRun

namespace Delivery

variable {s t : Delivery} {f : PostFn} {log log' : List Entry}

@[simp] theorem handed_append : handed (log ++ log') = handed log ++ handed log' :=
  List.filterMap_append

@[simp] theorem accepted_append : accepted (log ++ log') = accepted log ++ accepted log' :=
  List.filterMap_append

@[simp] theorem visible_append : visible (log ++ log') = visible log ++ visible log' :=
  List.filter_append ..

@[simp] theorem written_append : written (log ++ log') = written log + written log' := by
  simp [written]

@[simp] theorem handed_singleton (x : Entry) :
    handed [x] = match x with
      | .send bs => [bs]
      | _ => [] := by
  cases x <;> rfl

@[simp] theorem accepted_singleton (x : Entry) :
    accepted [x] = match x with
      | .accepted f => [f]
      | _ => [] := by
  cases x <;> rfl

@[simp] theorem visible_singleton (x : Entry) :
    visible [x] = match x with
      | .refused _ | .written _ => []
      | _ => [x] := by
  cases x <;> rfl

@[simp] theorem written_singleton (x : Entry) :
    written [x] = match x with
      | .written n => n
      | _ => 0 := by
  cases x <;> rfl

/-- Refusals and writes say nothing about posts and `Send`s. -/
theorem handed_visible (log : List Entry) : handed (visible log) = handed log := by
  rw [handed, visible, List.filterMap_filter]
  refine List.filterMap_congr fun x _ => ?_
  cases x <;> rfl

theorem accepted_visible (log : List Entry) : accepted (visible log) = accepted log := by
  rw [accepted, visible, List.filterMap_filter]
  refine List.filterMap_congr fun x _ => ?_
  cases x <;> rfl

theorem handed_map_send (bss : List Bytes) : handed (bss.map .send) = bss := by
  induction bss with
  | nil => rfl
  | cons bs bss ih => exact congrArg (bs :: ·) ih

theorem accepted_map_send (bss : List Bytes) : accepted (bss.map .send) = [] := by
  induction bss with
  | nil => rfl
  | cons bs bss ih => exact ih

@[simp] theorem handed_accepted_cons : handed (.accepted f :: log) = handed log := rfl

@[simp] theorem accepted_accepted_cons : accepted (.accepted f :: log) = f :: accepted log := rfl

theorem handed_blocks (done : List PostFn) :
    handed (done.flatMap block) = done.flatMap PostFn.pieces := by
  induction done with
  | nil => rfl
  | cons f done ih =>
    have hblock : handed (block f) = f.pieces := by simp [block, handed_map_send]
    rw [List.flatMap_cons, handed_append, hblock, ih, List.flatMap_cons]

theorem accepted_blocks (done : List PostFn) : accepted (done.flatMap block) = done := by
  induction done with
  | nil => rfl
  | cons f done ih =>
    have hblock : accepted (block f) = [f] := by simp [block, accepted_map_send]
    rw [List.flatMap_cons, accepted_append, hblock, ih, List.singleton_append]

/-- A refused call leaves a note in the log. -/
theorem post_refused (h : f.run s.poster = none) :
    s.post f = { s with log := s.log ++ [.refused f] } := by
  rw [post, h]

theorem post_accepted {r : HttpPoster × Bytes} (h : f.run s.poster = some r) :
    s.post f = send { s with
      overwritten := s.overwritten || (f.assigns s.poster && s.headerUnwritten)
      dropped := s.dropped || (f.replaces && s.packetUnwritten)
      log := s.log ++ [.accepted f] } f.source r := by
  rw [post, h]

/-- No byte is lost or made up: what was given to `Send` was written or is unwritten. -/
def Balanced (s : Delivery) : Prop :=
  (handed s.log).flatten.length = written s.log + s.unwritten.length

theorem Balanced.send (h : Balanced s) (source : Source) (r : HttpPoster × Bytes) :
    Balanced (s.send source r) := by
  unfold Balanced Delivery.send at *
  simp at *
  omega

theorem Balanced.write (h : Balanced s) {n : ℕ} (hn : n ≤ s.unwritten.length) :
    Balanced { s with unwritten := s.unwritten.drop n, log := s.log ++ [.written n] } := by
  unfold Balanced at *
  simp at *
  omega

/-- Whenever the handler was told that all is sent, all was written. -/
def Settled (log : List Entry) : Prop :=
  ∀ pre post, log = pre ++ .onSent :: post → (handed pre).flatten.length = written pre

theorem settled_append {x : Entry} (h : Settled log)
    (hx : x = .onSent → (handed log).flatten.length = written log) : Settled (log ++ [x]) := by
  intro pre post hlog
  rcases List.eq_nil_or_concat' post with rfl | ⟨post', y, rfl⟩
  · obtain ⟨rfl, hlast⟩ := List.append_inj' hlog rfl
    exact hx (List.singleton_inj.1 hlast)
  · rw [← List.cons_append, ← List.append_assoc] at hlog
    exact h pre post' (List.append_inj' hlog rfl).1

theorem settled_append_of_ne {x : Entry} (h : Settled log) (hx : x ≠ .onSent) :
    Settled (log ++ [x]) :=
  settled_append h fun he => absurd he hx

end Delivery

end HttpNest
