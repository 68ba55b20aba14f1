import HttpNest.Proof.ChannelStep
import HttpNest.Spec.Acceptor

/-!
# When connections wait to be accepted

`Watches` is the invariant of an acceptor: a connection that waits has a notification that is
queued, handed out and not handled yet, or the loop of `OnRead` is still to come to it. The loop
is left without it only on `EINTR` (`noticed_iff`).

Whatever happens, connections leave the queue in the order in which they have come
(`taken_inOrder`), and they are dropped only where the socket is closed for an error.
-/

namespace HttpNest

open Epoll EventRun

namespace Acceptor

variable {κ : Type*} {a a' : Acceptor κ} {ready : Bool}

theorem epollin_mem_ready : .epollin ∈ a.sock.ready ↔ a.backlog ≠ [] := by
  rw [Socket.epollin_mem_ready, Socket.Readable, sock, ← List.length_pos_iff]
  simp

/-! ## The invariant -/

/-- Connections that wait come with a notification. -/
structure Watches (a : Acceptor κ) : Prop where
  closed : a.opened = false → a.backlog = [] ∧ a.item.queued = false
  registered : a.opened = true → .epollin ∈ a.item.events
  quiet : a.phase = .idle → a.backlog ≠ [] → a.item.queued = true
  handed : ∀ revents, a.phase = .handed revents → a.backlog ≠ [] →
    a.item.queued = true ∨ .epollin ∈ revents
  never : a.phase ≠ .writing

theorem Watches.start : Watches ({} : Acceptor κ) :=
  ⟨fun _ => ⟨rfl, rfl⟩, fun h => (by cases h), fun _ h => absurd rfl h, fun _ h => (by cases h),
    by simp⟩

theorem Watches.openSocket (a : Acceptor κ) (ready : Bool) : Watches (a.openSocket ready) :=
  ⟨fun h => (by cases h), fun _ => by simp [Acceptor.openSocket, kEventRead],
    fun _ h => absurd rfl h, fun _ h => (by cases h), by simp [Acceptor.openSocket]⟩

/-- Outside the handlers, a notification is enough. -/
theorem Watches.idle (h : Watches a) (hq : a.backlog ≠ [] → a.item.queued = true) :
    Watches { a with phase := .idle } :=
  ⟨h.closed, h.registered, fun _ => hq, fun _ hp => (by cases hp), by simp⟩

/-- A kernel event that adds no connection. -/
theorem Watches.wake (h : Watches a) (hopen : a.opened = true) (flags : Finset Flag)
    {error hangup : Bool} :
    Watches { a with error := error, hangup := hangup, item := a.item.wake flags } :=
  ⟨fun hc => (by rw [hopen] at hc; cases hc), h.registered,
    fun hp hb => Item.queued_wake (h.quiet hp hb),
    fun revents hp hb => (h.handed revents hp hb).imp_left Item.queued_wake, h.never⟩

theorem Watches.arrives (h : Watches a) (hopen : a.opened = true) (c : κ) (again : Bool) :
    Watches { a with
      backlog := a.backlog ++ [c], item := a.item.wake (a.sock.wakes (.arrives 1 again)) } := by
  -- a connection that arrives wakes the item up, or others have been waiting
  have hqueued : a.backlog ≠ [] ∨
      (a.item.wake (a.sock.wakes (.arrives 1 again))).queued = true := by
    by_cases hb : a.backlog = []
    · refine .inr (Item.wake_queued ?_ (h.registered hopen))
      have hnot : ¬ a.sock.Readable := by
        rw [← Socket.epollin_mem_ready, epollin_mem_ready]
        exact fun hne => hne hb
      simp [Socket.wakes, hnot]
    · exact .inl hb
  refine ⟨fun hc => (by rw [hopen] at hc; cases hc), fun _ => h.registered hopen, fun hp _ => ?_,
    fun revents hp _ => ?_, h.never⟩
  · rcases hqueued with hb | hq
    · exact Item.queued_wake (h.quiet hp hb)
    · exact hq
  · rcases hqueued with hb | hq
    · exact (h.handed revents hp hb).imp_left Item.queued_wake
    · exact .inl hq

theorem Watches.epollWait (h : Watches a) (hq : a.item.queued = true) :
    Watches { a with
      item := (a.item.wait a.sock.ready).2
      phase := if (a.item.wait a.sock.ready).1 = ∅ then .idle
        else .handed (a.item.wait a.sock.ready).1 } := by
  have hopen : a.opened = true := by
    by_contra hc
    rw [(h.closed (by simpa using hc)).2] at hq
    cases hq
  have hclosed : a.opened = false → a.backlog = [] ∧ (a.item.wait a.sock.ready).2.queued = false :=
    fun hc => by rw [hopen] at hc; cases hc
  have hmem : a.backlog ≠ [] → .epollin ∈ (a.item.wait a.sock.ready).1 := fun hb =>
    mem_reported (epollin_mem_ready.2 hb) (h.registered hopen)
  by_cases hempty : (a.item.wait a.sock.ready).1 = ∅
  · rw [if_pos hempty]
    refine ⟨hclosed, h.registered, fun _ hb => ?_, fun _ hp => (by cases hp), by simp⟩
    exact absurd hempty (Finset.ne_empty_of_mem (hmem hb))
  · rw [if_neg hempty]
    refine ⟨hclosed, h.registered, fun hp => (by cases hp), fun revents hp hb => ?_, by simp⟩
    cases hp
    exact .inr (hmem hb)

theorem Watches.dispatch (h : Watches a) {revents : Finset Flag}
    (hphase : a.phase = .handed revents) :
    Watches (a.dispatch ready (handleEvent revents)) := by
  have hquiet : .epollin ∉ revents → a.backlog ≠ [] → a.item.queued = true := fun hin hb =>
    (h.handed revents hphase hb).resolve_right hin
  cases hh : handleEvent revents with
  | none => exact h.idle (hquiet (handleEvent_none hh).1)
  | some handler =>
    cases handler with
    | onError => exact .openSocket a ready
    | onClose => exact .openSocket a ready
    | onWrite => exact h.idle (hquiet (handleEvent_onWrite hh))
    | onRead =>
      -- the loop owes no notification
      exact ⟨h.closed, h.registered, fun hp => (by cases hp), fun _ hp => (by cases hp),
        by simp [Acceptor.dispatch]⟩

theorem Watches.acceptTurn (h : Watches a) {answer : AcceptAnswer} (hphase : a.phase = .reading)
    (ha : a.Answers answer) (hu : a.Uninterrupted (.accept answer ready)) :
    Watches (a.acceptTurn answer ready) := by
  cases answer with
  | connection =>
    obtain ⟨c, cs, hb⟩ := List.exists_cons_of_ne_nil ha
    simp only [Acceptor.acceptTurn, hb]
    refine ⟨fun hc => ?_, h.registered, fun hp => ?_, fun revents hp => ?_, h.never⟩
    · rw [(h.closed hc).1] at hb
      cases hb
    · rw [show a.phase = .idle from hp] at hphase
      cases hphase
    · rw [show a.phase = .handed revents from hp] at hphase
      cases hphase
  | eagain => exact h.idle fun hb => absurd ha hb
  | eintr => exact h.idle (hu hphase)
  | other => exact .openSocket a ready

theorem Watches.step (h : Watches a) {e : AcceptorEvent κ} (hu : a.Uninterrupted e)
    (hs : a.step e = some a') : Watches a' := by
  cases e with
  | start ready =>
    simp only [Acceptor.step] at hs
    split_ifs at hs
    cases hs
    exact .openSocket a ready
  | arrives c again =>
    simp only [Acceptor.step] at hs
    split_ifs at hs with hopen
    cases hs
    exact h.arrives hopen c again
  | fails =>
    simp only [Acceptor.step] at hs
    split_ifs at hs with hopen
    cases hs
    exact h.wake hopen _
  | hangsUp =>
    simp only [Acceptor.step] at hs
    split_ifs at hs with hopen
    cases hs
    exact h.wake hopen _
  | epollWait =>
    obtain ⟨hg, hs⟩ := Option.ite_none_right_eq_some.1 hs
    cases hs
    exact h.epollWait hg.2
  | handleEvent ready =>
    simp only [Acceptor.step] at hs
    cases hp : a.phase with
    | handed revents =>
      simp only [hp] at hs
      cases hs
      exact h.dispatch hp
    | _ => simp only [hp] at hs; cases hs
  | accept answer ready =>
    simp only [Acceptor.step] at hs
    split_ifs at hs with hg
    cases hs
    exact h.acceptTurn hg.1 hg.2 hu

theorem Watches.noticed (h : Watches a) : a.Noticed := by
  intro hp hb
  have hopen : a.opened = true := by
    by_contra hc
    exact hb (h.closed (by simpa using hc)).1
  exact ⟨h.quiet hp hb, mem_reported (epollin_mem_ready.2 hb) (h.registered hopen)⟩

/-- **No connection waits unnoticed, exactly as long as `accept4` is not interrupted** while one
waits that nothing else tells of. -/
theorem noticed_iff {es : List (AcceptorEvent κ)} :
    Passes step Noticed {} es ↔ Meets step Uninterrupted {} es := by
  refine passes_iff_meets Watches (fun _ => Watches.noticed) (fun _ _ _ h hu hs => h.step hu hs) ?_
    .start
  intro a e h hu
  cases e with
  | accept answer ready =>
    cases answer with
    | eintr =>
      simp only [Uninterrupted, Classical.not_imp] at hu
      obtain ⟨hphase, hb, hq⟩ := hu
      exact ⟨{ a with phase := .idle }, if_pos ⟨hphase, trivial⟩, fun hn => hq (hn rfl hb).1⟩
    | _ => exact absurd trivial hu
  | _ => exact absurd trivial hu

/-! ## In which order connections are taken -/

/-- What has been taken, and what waits. -/
def known (a : Acceptor κ) : List κ := a.taken.map Prod.fst ++ a.backlog

theorem known_openSocket (a : Acceptor κ) (ready : Bool) :
    (a.openSocket ready).known = a.known := by
  simp [known, openSocket, Function.comp_def]

theorem known_step {e : AcceptorEvent κ} (hs : a.step e = some a') :
    a'.known = a.known ++ arrived [e] := by
  cases e with
  | start ready =>
    obtain ⟨-, hs⟩ := Option.ite_none_right_eq_some.1 hs
    cases hs
    rw [known_openSocket]
    simp [arrived]
  | arrives c again =>
    obtain ⟨-, hs⟩ := Option.ite_none_right_eq_some.1 hs
    cases hs
    simp [known, arrived]
  | fails =>
    obtain ⟨-, hs⟩ := Option.ite_none_right_eq_some.1 hs
    cases hs
    simp [known, arrived]
  | hangsUp =>
    obtain ⟨-, hs⟩ := Option.ite_none_right_eq_some.1 hs
    cases hs
    simp [known, arrived]
  | epollWait =>
    obtain ⟨-, hs⟩ := Option.ite_none_right_eq_some.1 hs
    cases hs
    simp [known, arrived]
  | handleEvent ready =>
    simp only [Acceptor.step] at hs
    cases hp : a.phase with
    | handed revents =>
      simp only [hp] at hs
      cases hs
      rcases handleEvent revents with _ | (_ | _ | _ | _)
      case some.onError => simpa [dispatch, arrived] using known_openSocket a ready
      case some.onClose => simpa [dispatch, arrived] using known_openSocket a ready
      all_goals simp [known, dispatch, arrived]
    | _ => simp only [hp] at hs; cases hs
  | accept answer ready =>
    obtain ⟨⟨-, ha⟩, hs⟩ := Option.ite_none_right_eq_some.1 hs
    cases hs
    cases answer with
    | connection =>
      obtain ⟨c, cs, hb⟩ := List.exists_cons_of_ne_nil ha
      simp [known, acceptTurn, hb, arrived]
    | other => simpa [acceptTurn, arrived] using known_openSocket a ready
    | _ => simp [known, acceptTurn, arrived]

theorem known_run {es : List (AcceptorEvent κ)} :
    ∀ {a a' : Acceptor κ}, run step a es = some a' → a'.known = a.known ++ arrived es := by
  induction es with
  | nil =>
    intro a a' h
    cases h
    simp [arrived]
  | cons e es ih =>
    intro a a' h
    obtain ⟨u, hu, h⟩ := run_cons_eq_some.1 h
    have harrived : arrived (e :: es) = arrived [e] ++ arrived es :=
      List.filterMap_append (l := [e]) ..
    rw [ih h, known_step hu, harrived, List.append_assoc]

/-- The socket has had no error. -/
structure Calm (a : Acceptor κ) : Prop where
  closed : a.opened = false → a.backlog = []
  error : a.error = false
  hangup : a.hangup = false
  handed : ∀ revents, a.phase = .handed revents → .epollerr ∉ revents ∧ .epollhup ∉ revents
  taken : ∀ t ∈ a.taken, t.2 = true

theorem Calm.start : Calm ({} : Acceptor κ) :=
  ⟨fun _ => rfl, rfl, rfl, fun _ h => (by cases h), fun _ h => (by cases h)⟩

theorem handleEvent_calm {revents : Finset Flag} (h : .epollerr ∉ revents ∧ .epollhup ∉ revents) :
    handleEvent revents ≠ some .onError ∧ handleEvent revents ≠ some .onClose := by
  unfold handleEvent
  rw [if_neg h.1, if_neg (fun hh => h.2 hh.1)]
  split_ifs <;> exact ⟨by simp, by simp⟩

theorem Calm.step {e : AcceptorEvent κ} (h : Calm a) (he : ¬ Disturbs e) (hs : a.step e = some a') :
    Calm a' := by
  cases e with
  | start ready =>
    obtain ⟨hc, hs⟩ := Option.ite_none_right_eq_some.1 hs
    cases hs
    refine ⟨fun _ => rfl, rfl, rfl, fun _ hp => (by cases hp), fun t ht => ?_⟩
    simp only [openSocket, h.closed hc, List.map_nil, List.append_nil] at ht
    exact h.taken t ht
  | arrives c again =>
    obtain ⟨hopen, hs⟩ := Option.ite_none_right_eq_some.1 hs
    cases hs
    exact ⟨fun hc => (by rw [show a.opened = false from hc] at hopen; cases hopen), h.error,
      h.hangup, h.handed, h.taken⟩
  | fails => exact absurd trivial he
  | hangsUp => exact absurd trivial he
  | epollWait =>
    obtain ⟨-, hs⟩ := Option.ite_none_right_eq_some.1 hs
    cases hs
    refine ⟨h.closed, h.error, h.hangup, fun revents hp => ?_, h.taken⟩
    dsimp only at hp
    split_ifs at hp
    cases hp
    simp [reported, Socket.ready, sock, h.error, h.hangup]
  | handleEvent ready =>
    simp only [Acceptor.step] at hs
    cases hp : a.phase with
    | handed revents =>
      simp only [hp] at hs
      cases hs
      obtain ⟨herr, hclose⟩ := handleEvent_calm (h.handed revents hp)
      rcases hh : handleEvent revents with _ | (_ | _ | _ | _)
      case some.onError => exact absurd hh herr
      case some.onClose => exact absurd hh hclose
      all_goals exact ⟨h.closed, h.error, h.hangup, fun _ hp => (by cases hp), h.taken⟩
    | _ => simp only [hp] at hs; cases hs
  | accept answer ready =>
    obtain ⟨⟨hphase, ha⟩, hs⟩ := Option.ite_none_right_eq_some.1 hs
    cases hs
    cases answer with
    | connection =>
      obtain ⟨c, cs, hb⟩ := List.exists_cons_of_ne_nil ha
      simp only [acceptTurn, hb]
      refine ⟨fun hc => ?_, h.error, h.hangup, h.handed, fun t ht => ?_⟩
      · rw [h.closed hc] at hb
        cases hb
      · rcases List.mem_append.1 ht with ht | ht
        · exact h.taken t ht
        · rw [List.mem_singleton.1 ht]
    | other => exact absurd trivial he
    | _ => exact ⟨h.closed, h.error, h.hangup, fun _ hp => (by cases hp), h.taken⟩

/-- **Connections are taken in the order in which they arrive**, each of them once, and all of
them are handed on if the socket has no error. -/
theorem taken_inOrder {es : List (AcceptorEvent κ)} (h : run step {} es = some a) :
    a.taken.map Prod.fst ++ a.backlog = arrived es ∧
      ((∀ e ∈ es, ¬ Disturbs e) → ∀ t ∈ a.taken, t.2 = true) := by
  refine ⟨known_run h, fun hes => ?_⟩
  have hcalm : Calm a := run_inv_of_meets (C := fun _ e => ¬ Disturbs e) Calm
    (fun _ _ _ hc he hs => hc.step he hs) .start (meets_of_forall hes) h
  exact hcalm.taken

/-- Three connections, the last of which comes while the second one is accepted. -/
theorem taken_three : ∃ a, run step ({} : Acceptor ℕ) [.start true, .arrives 7 true, .epollWait,
    .arrives 8 true, .handleEvent true, .accept .connection true, .arrives 9 false,
    .accept .connection true, .accept .connection true, .accept .eagain true] = some a ∧
      a.taken.map Prod.fst ++ a.backlog = [7, 8, 9] := by
  obtain ⟨a, ha⟩ : ∃ a, run step ({} : Acceptor ℕ) [.start true, .arrives 7 true, .epollWait,
      .arrives 8 true, .handleEvent true, .accept .connection true, .arrives 9 false,
      .accept .connection true, .accept .connection true, .accept .eagain true] = some a :=
    Option.isSome_iff_exists.1 (by decide)
  exact ⟨a, ha, (taken_inOrder ha).1⟩

end Acceptor

end HttpNest
