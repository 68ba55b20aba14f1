import HttpNest.Proof.ChannelStep
import HttpNest.Spec.TcpClient

/-!
# When a client waits for bytes that have arrived

`Heard` is the invariant of a channel that reads: whatever is unread has a notification
that is queued, handed out and not handled yet, or being read. `OnRead` breaks it when it
leaves its loop on `EINTR`, unless the item is level-triggered at that time, which it is
from the end of one `OnWrite` to the next `Send` that queues something.

A client that is connecting takes every notification for the end of `connect`. So one
that reports the first bytes too is lost, and with it the bytes.

`read_wakeup`: in every run without such a step no wake-up for reading is lost.
-/

namespace HttpNest

open Epoll Channel EventRun

variable {c c' : Channel} {t t' : TcpClient}

/-! ## The channel -/

/-- Unread bytes come with a notification. -/
structure Heard (c : Channel) : Prop where
  registered : .epollin ∈ c.item.events
  quiet : c.phase = .idle ∨ c.phase = .writing → c.sock.Readable → c.item.queued = true
  handed : ∀ revents, c.phase = .handed revents → c.sock.Readable →
    c.item.queued = true ∨ .epollin ∈ revents
  level : c.phase = .reading ∨ (∃ revents, c.phase = .handed revents) →
    .epollet ∉ c.item.events → c.item.queued = true

/-- The step is no `readv` that is interrupted while the item is edge-triggered. -/
def Uninterrupted (c : Channel) : LoopEvent → Prop
  | .readv answer => answer = .error .eintr → .epollet ∉ c.item.events
  | _ => True

/-- Outside `OnRead` and before it, a notification is enough. -/
theorem Heard.of_quiet (hreg : .epollin ∈ c.item.events)
    (hphase : c.phase = .idle ∨ c.phase = .writing)
    (h : c.sock.Readable → c.item.queued = true) : Heard c := by
  refine ⟨hreg, fun _ hr => h hr, fun revents hp => ?_, fun hp => ?_⟩
  · rw [hp] at hphase
    rcases hphase with hphase | hphase <;> cases hphase
  · rcases hp with hp | ⟨revents, hp⟩ <;> rw [hp] at hphase <;>
      rcases hphase with hphase | hphase <;> cases hphase

theorem Heard.of_idle (hreg : .epollin ∈ c.item.events) (hphase : c.phase = .idle)
    (h : c.sock.Readable → c.item.queued = true) : Heard c :=
  .of_quiet hreg (.inl hphase) h

theorem Heard.of_writing (hreg : .epollin ∈ c.item.events) (hphase : c.phase = .writing)
    (h : c.sock.Readable → c.item.queued = true) : Heard c :=
  .of_quiet hreg (.inr hphase) h

/-- A notification that does not report bytes leaves theirs queued. -/
theorem Heard.queued_of_handed (h : Heard c) {revents : Finset Flag}
    (hphase : c.phase = .handed revents) (hin : .epollin ∉ revents) (hr : c.sock.Readable) :
    c.item.queued = true :=
  (h.handed revents hphase hr).resolve_right hin

theorem Heard.kernel (h : Heard c) (e : SocketEvent) :
    Heard { c with sock := c.sock.after e, item := c.item.wake (c.sock.wakes e) } := by
  have hwake : (c.sock.after e).Readable →
      c.sock.Readable ∨ (c.item.wake (c.sock.wakes e)).queued = true := by
    intro hr
    rcases Socket.epollin_wakes hr with hr | hmem
    · exact .inl hr
    · exact .inr (Item.wake_queued hmem h.registered)
  refine ⟨h.registered, fun hp hr => ?_, fun revents hp hr => ?_, fun hp het => ?_⟩
  · rcases hwake hr with hr | hqueued
    · exact Item.queued_wake (h.quiet hp hr)
    · exact hqueued
  · rcases hwake hr with hr | hqueued
    · exact (h.handed revents hp hr).imp_left Item.queued_wake
    · exact .inl hqueued
  · exact Item.queued_wake (h.level hp het)

/-- What is handed out reports the bytes, and a level-triggered item stays queued. -/
theorem Heard.handOut (h : Heard c) : Heard { c with
    item := (c.item.wait c.sock.ready).2
    phase := if (c.item.wait c.sock.ready).1 = ∅ then .idle
      else .handed (c.item.wait c.sock.ready).1 } := by
  have hmem : c.sock.Readable → .epollin ∈ (c.item.wait c.sock.ready).1 := fun hr =>
    mem_reported ((Socket.epollin_mem_ready _).2 hr) h.registered
  by_cases hempty : (c.item.wait c.sock.ready).1 = ∅
  · rw [if_pos hempty]
    refine .of_idle h.registered rfl fun hr => ?_
    exact absurd hempty (Finset.ne_empty_of_mem (hmem hr))
  · rw [if_neg hempty]
    refine ⟨h.registered, fun hp => ?_, fun revents hp hr => ?_, fun _ het => ?_⟩
    · rcases hp with hp | hp <;> cases hp
    · cases hp
      exact .inr (hmem hr)
    · exact Item.queued_wait het hempty

/-- **Every step but the interrupted read keeps the channel hearing.** -/
theorem Heard.move {e : LoopEvent} (h : Heard c) (he : Uninterrupted c e) (hm : Move c e c') :
    Heard c' := by
  cases hm with
  | kernel e => exact h.kernel e
  | handOut hphase _ => exact h.handOut
  | read hphase _ =>
    -- the read handler runs, and owes no notification
    refine ⟨h.registered, fun hp => ?_, fun revents hp => (by cases hp), fun _ het => ?_⟩
    · rcases hp with hp | hp <;> cases hp
    · exact h.level (.inr ⟨_, hphase⟩) het
  | write hphase hh _ =>
    exact .of_writing h.registered rfl (h.queued_of_handed hphase (handleEvent_onWrite hh))
  | writeNothing hphase hh _ =>
    refine .of_idle (epollin_enableWriting false h.registered) rfl fun hr => ?_
    exact queued_enableWriting false (h.queued_of_handed hphase (handleEvent_onWrite hh) hr)
  | ignore hphase hh =>
    exact .of_idle h.registered rfl (h.queued_of_handed hphase (handleEvent_none hh).1)
  | readSome hphase =>
    refine ⟨h.registered, fun hp => ?_, fun revents hp => ?_, h.level⟩
    · rw [hphase] at hp
      rcases hp with hp | hp <;> cases hp
    · rw [hphase] at hp
      cases hp
  | @readStop err hphase ha ht =>
    -- the loop is left with nothing to read, or interrupted
    refine .of_idle h.registered rfl fun hr => ?_
    rcases err with _ | _ | _ | code
    · exact h.level (.inl hphase) (he rfl)
    · exact absurd hr ha.2
    · exact absurd hr ha.2
    · cases ht
  | wroteSome hphase _ => exact .of_writing h.registered hphase (h.quiet (.inr hphase))
  | wroteAll hphase =>
    refine .of_idle (epollin_enableWriting false h.registered) rfl fun hr => ?_
    exact queued_enableWriting false (h.quiet (.inr hphase) hr)
  | writeStop hphase _ =>
    exact .of_idle h.registered rfl fun hr =>
      h.quiet (.inr hphase) ((readable_afterWrite _ _).1 hr)
  | sent answer hphase =>
    exact ⟨h.registered, fun hp hr => h.quiet hp ((readable_afterWrite _ _).1 hr),
      fun revents hp hr => h.handed revents hp ((readable_afterWrite _ _).1 hr), h.level⟩
  | queued answer hphase =>
    -- `Send` makes the item edge-triggered
    refine ⟨epollin_enableWriting true h.registered, fun hp hr => ?_, fun revents hp hr => ?_,
      fun _ het => absurd epollet_enableWriting het⟩
    · exact queued_enableWriting true (h.quiet hp ((readable_afterWrite _ _).1 hr))
    · exact (h.handed revents hp ((readable_afterWrite _ _).1 hr)).imp_left
        (queued_enableWriting true)

/-! ## The client -/

/-- A client's channel hears from `Connect` on, as long as it is open. -/
structure Listening (t : TcpClient) : Prop where
  opened : t.status = .kTcpConStatusDisConnected ∨ t.channel.conn.isClosed = false
  heard : t.channel.conn.isClosed = false → t.status ≠ .kTcpConStatusInit → Heard t.channel

/-- The step takes no notification for bytes for the end of `connect`, and is no
interrupted read of an edge-triggered item. -/
def TcpClient.Attentive (t : TcpClient) : ClientEvent → Prop
  | .loop .handleEvent => t.status = .kTcpConStatusConnecting → ∀ revents,
    t.channel.phase = .handed revents → handleEvent revents ≠ some .onRead
  | .loop e => Uninterrupted t.channel e
  | .connect _ _ => True

theorem Listening.onClose (t : TcpClient) : Listening t.onClose := by
  refine ⟨.inl rfl, fun hopen => ?_⟩
  have hclosed : t.onClose.channel.conn.isClosed = true :=
    (congrArg TcpConnection.isClosed (conn_effect _)).trans (isClosed_onClose _)
  rw [hclosed] at hopen
  cases hopen

theorem Listening.updateConnectionStatus (hopen : t.channel.conn.isClosed = false)
    (hreg : .epollin ∈ t.channel.item.events)
    (hr : t.channel.sock.Readable → t.channel.item.queued = true) :
    Listening t.updateConnectionStatus :=
  ⟨.inr hopen, fun _ _ => .of_idle hreg rfl hr⟩

/-- `Connect` registers the socket for reading. -/
theorem Listening.connectInLoop (h : Listening t) (hstatus : t.status = .kTcpConStatusInit)
    (ready : Bool) (answer : ConnectAnswer) : Listening (t.connectInLoop ready answer) := by
  have hopen : t.channel.conn.isClosed = false := by
    rcases h.opened with hs | hopen
    · rw [hstatus] at hs
      cases hs
    · exact hopen
  have hreg : ∀ sock : Socket, .epollin ∈
      (({ t.channel with sock := sock }.addChannel).enableWriting true).item.events := fun sock =>
    epollin_enableWriting true (Finset.mem_union_right _ (by decide))
  have hnone : ∀ writable : Bool, ¬ ({ writable := writable } : Socket).Readable := by
    intro writable hr
    rcases hr with hr | hr <;> cases hr
  unfold TcpClient.connectInLoop
  rcases answer with _ | _ | _ | _
  · exact .onClose t
  · rw [if_neg (by decide)]
    exact .updateConnectionStatus hopen (hreg _) fun hr => absurd hr (hnone _)
  · rw [if_neg (by decide)]
    refine ⟨.inr hopen, fun _ _ => ⟨hreg _, fun _ hr => absurd hr (hnone _),
      fun _ _ hr => absurd hr (hnone _), fun _ het => absurd epollet_enableWriting het⟩⟩
  · rw [if_neg (by decide)]
    exact .onClose _

theorem Listening.follow (h : Listening t) {e : LoopEvent} (he : Uninterrupted t.channel e)
    (hstatus : t.status ≠ .kTcpConStatusInit) (hstep : t.channel.step e = some c') :
    Listening (t.follow c') := by
  rcases step_move hstep with hclosed | ⟨hopen, hm⟩
  · refine ⟨.inl (if_pos hclosed), fun hno => ?_⟩
    rw [show (t.follow c').channel = c' from rfl, hclosed] at hno
    cases hno
  · rcases hc' : c'.conn.isClosed with _ | _
    · exact ⟨.inr hc', fun _ _ => (h.heard hopen hstatus).move he hm⟩
    · refine ⟨.inl (if_pos hc'), fun hno => ?_⟩
      rw [show (t.follow c').channel = c' from rfl, hc'] at hno
      cases hno

/-- **A notification for writing that ends `connect` leaves that for reading queued.** -/
theorem Listening.onEstablished (h : Listening t) {revents : Finset Flag}
    (hstatus : t.status = .kTcpConStatusConnecting) (hphase : t.channel.phase = .handed revents)
    (hin : .epollin ∉ revents) : Listening t.onEstablished := by
  rw [TcpClient.onEstablished]
  split_ifs
  · exact .onClose t
  · have hopen : t.channel.conn.isClosed = false := by
      rcases h.opened with hs | hopen
      · rw [hstatus] at hs
        cases hs
      · exact hopen
    have hheard := h.heard hopen (by rw [hstatus]; decide)
    exact .updateConnectionStatus hopen hheard.registered (hheard.queued_of_handed hphase hin)

theorem Listening.handleEvent (h : Listening t) (he : t.Attentive (.loop .handleEvent))
    (hstatus : t.status = .kTcpConStatusConnecting)
    (hstep : t.step (.loop .handleEvent) = some t') : Listening t' := by
  simp only [TcpClient.step, hstatus, reduceCtorEq, if_false] at hstep
  rcases hphase : t.channel.phase with _ | revents | _ | _ <;> simp only [hphase] at hstep
  · cases hstep
  · have hfollow : ∀ handler, HttpNest.handleEvent revents = handler →
        t' = t.follow (t.channel.dispatch handler) → Listening t' := by
      intro handler hh ht'
      rw [ht']
      refine h.follow (e := .handleEvent) trivial (by rw [hstatus]; decide) ?_
      simp only [Channel.step, hphase, hh]
    rcases hh : HttpNest.handleEvent revents with _ | (_ | _ | _ | _) <;> rw [hh] at hstep
    · exact hfollow _ hh (Option.some.inj hstep).symm
    · exact hfollow _ hh (Option.some.inj hstep).symm
    · exact hfollow _ hh (Option.some.inj hstep).symm
    · exact absurd hh (he hstatus revents hphase)
    · cases hstep
      exact h.onEstablished hstatus hphase (handleEvent_onWrite hh)
  · cases hstep
  · cases hstep

/-- A step of the loop: the end of `connect`, a `Send` that comes too early, or a step of
the channel. -/
theorem step_loop {e : LoopEvent} (hstep : t.step (.loop e) = some t') :
    t.status ≠ .kTcpConStatusInit ∧
      (e = .handleEvent ∧ t.status = .kTcpConStatusConnecting ∨ t' = t ∨
        ∃ c', t.channel.step e = some c' ∧ t' = t.follow c') := by
  have hmap : ∀ {e : LoopEvent}, (t.channel.step e).map t.follow = some t' →
      ∃ c', t.channel.step e = some c' ∧ t' = t.follow c' := by
    intro e h
    obtain ⟨c', hc', rfl⟩ := Option.map_eq_some_iff.1 h
    exact ⟨c', hc', rfl⟩
  rcases hs : t.status with _ | _ | _ | _
  · have hnone : t.step (.loop e) = none := if_pos hs
    rw [hnone] at hstep
    cases hstep
  · refine ⟨by decide, ?_⟩
    cases e with
    | handleEvent => exact .inl ⟨rfl, rfl⟩
    | send _ _ _ | sendList _ =>
      -- a `Send` before the end of `connect` returns at once
      simp only [TcpClient.step, hs, reduceCtorEq, if_false] at hstep
      exact .inr (.inl (Option.some.inj hstep).symm)
    | _ =>
      simp only [TcpClient.step, hs, reduceCtorEq, if_false] at hstep
      exact .inr (.inr (hmap hstep))
  · refine ⟨by decide, .inr (.inr (hmap ?_))⟩
    simpa only [TcpClient.step, hs, reduceCtorEq, if_false] using hstep
  · refine ⟨by decide, .inr (.inr (hmap ?_))⟩
    simpa only [TcpClient.step, hs, reduceCtorEq, if_false] using hstep

theorem Listening.step (h : Listening t) {e : ClientEvent} (he : t.Attentive e)
    (hstep : t.step e = some t') : Listening t' := by
  rcases e with ⟨ready, answer⟩ | e
  · obtain ⟨hstatus, hstep⟩ := Option.ite_none_right_eq_some.1 hstep
    cases hstep
    exact h.connectInLoop hstatus ready answer
  · obtain ⟨hstatus, ⟨rfl, hconnecting⟩ | rfl | ⟨c', hc', rfl⟩⟩ := step_loop hstep
    · exact h.handleEvent he hconnecting hstep
    · exact h
    · refine h.follow ?_ hstatus hc'
      cases e with
      | readv _ => exact he
      | _ => trivial

/-- **No wake-up for reading is lost.** In every run of a client in which no notification
that reports bytes is taken for the end of `connect`, and no read of an edge-triggered
item is interrupted: whenever no handler is running, the client is connected and there
are unread bytes or an unread end of the stream, a notification for them is pending. -/
theorem read_wakeup {es : List ClientEvent}
    (hmeets : Meets TcpClient.step TcpClient.Attentive {} es)
    (hrun : run TcpClient.step {} es = some t) (hidle : t.channel.phase = .idle)
    (hconnected : t.status = .kTcpConStatusConnected) (hreadable : t.channel.sock.Readable) :
    t.channel.Pending .epollin := by
  have h : Listening t := run_inv_of_meets Listening (fun _ _ _ h he hs => h.step he hs)
    ⟨.inr rfl, fun _ hno => absurd rfl hno⟩ hmeets hrun
  have hopen : t.channel.conn.isClosed = false := by
    rcases h.opened with hs | hopen
    · rw [hconnected] at hs
      cases hs
    · exact hopen
  have hheard := h.heard hopen (by rw [hconnected]; decide)
  exact ⟨hheard.quiet (.inl hidle) hreadable,
    mem_reported ((Socket.epollin_mem_ready _).2 hreadable) hheard.registered⟩

/-- The first bytes are there when the end of `connect` is reported. -/
def greeted : List ClientEvent :=
  [.connect false .inProgress, .loop (.kernel .drains), .loop (.kernel (.arrives 5 false)),
    .loop .epollWait, .loop .handleEvent]

/-- Nothing will ever be read. -/
theorem read_stalls : ¬ ∀ es t, run TcpClient.step {} es = some t → t.channel.phase = .idle →
    t.status = .kTcpConStatusConnected → t.channel.sock.Readable → t.channel.Pending .epollin := by
  intro h
  have hrun : (run TcpClient.step {} greeted).map (fun t =>
      (t.channel.phase, t.status, t.channel.sock.unread, t.channel.item.queued)) =
      some (.idle, .kTcpConStatusConnected, 5, false) := by
    decide +kernel
  obtain ⟨t, ht, heq⟩ := Option.map_eq_some_iff.1 hrun
  simp only [Prod.mk.injEq] at heq
  obtain ⟨hidle, hstatus, hunread, hqueued⟩ := heq
  have hpending := h _ t ht hidle hstatus (.inl (by rw [hunread]; decide))
  rw [hpending.1] at hqueued
  cases hqueued

/-- The bytes arrive after the end of `connect` has been handled. -/
theorem read_wakeup_after_connect : ∃ t, run TcpClient.step {}
    [.connect false .inProgress, .loop (.kernel .drains), .loop .epollWait, .loop .handleEvent,
      .loop (.kernel (.arrives 5 false))] = some t ∧ t.channel.Pending .epollin := by
  have hrun : (run TcpClient.step {} [.connect false .inProgress, .loop (.kernel .drains),
      .loop .epollWait, .loop .handleEvent, .loop (.kernel (.arrives 5 false))]).map (fun t =>
      (t.channel.phase, t.status, t.channel.sock.unread)) =
      some (.idle, .kTcpConStatusConnected, 5) := by
    decide +kernel
  obtain ⟨t, ht, heq⟩ := Option.map_eq_some_iff.1 hrun
  simp only [Prod.mk.injEq] at heq
  obtain ⟨hidle, hstatus, hunread⟩ := heq
  have hmeets : Meets TcpClient.step TcpClient.Attentive {} [.connect false .inProgress,
      .loop (.kernel .drains), .loop .epollWait, .loop .handleEvent,
      .loop (.kernel (.arrives 5 false))] := by
    refine ⟨trivial, fun t₁ h₁ => ⟨trivial, fun t₂ h₂ => ⟨trivial, fun t₃ h₃ => ⟨?_, fun _ _ =>
      ⟨trivial, fun _ _ => trivial⟩⟩⟩⟩⟩
    intro _ revents hphase
    have hthree : run TcpClient.step {} [.connect false .inProgress, .loop (.kernel .drains),
        .loop .epollWait] = some t₃ := by
      rw [run_cons, h₁, Option.bind_some, run_cons, h₂, Option.bind_some, run_cons, h₃]
      rfl
    have hout : (run TcpClient.step {} [.connect false .inProgress, .loop (.kernel .drains),
        .loop .epollWait]).map (fun t => t.channel.phase) = some (.handed {.epollout}) := by
      decide +kernel
    rw [hthree, Option.map_some, hphase] at hout
    cases hout
    decide
  exact ⟨t, ht, read_wakeup hmeets ht hidle hstatus (.inl (by rw [hunread]; decide))⟩

end HttpNest
