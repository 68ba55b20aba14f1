import HttpNest.Proof.ChannelStep

/-!
# When a connection waits for a writable socket that is writable

`Awake` is the invariant of an open connection: while something is queued, the item is
registered for `EPOLLOUT`, and a writable socket has a notification that is queued, or
handed out and not handled yet. Two steps break it (`Unhurt`): `HandleEvent` calls
`OnRead` alone for a notification that carries `EPOLLOUT` too, and `OnWrite` leaves its
loop on `EINTR`.

`write_wakeup`: in every run without such a step, no wake-up for writing is lost.
-/

namespace HttpNest

open Epoll Channel EventRun

variable {c c' : Channel}

/-- Queued bytes and a writable socket come with a notification. -/
structure Awake (c : Channel) : Prop where
  registered : c.conn.iovecList ≠ [] → .epollout ∈ c.item.events
  quiet : c.phase = .idle ∨ c.phase = .reading → c.conn.iovecList ≠ [] →
    c.sock.writable = true → c.item.queued = true
  handed : ∀ revents, c.phase = .handed revents → c.conn.iovecList ≠ [] →
    c.sock.writable = true → c.item.queued = true ∨ .epollout ∈ revents

/-- The step is not one of the two that forget the socket is writable. -/
def Unhurt (c : Channel) : LoopEvent → Prop
  | .handleEvent => ∀ revents, c.phase = .handed revents →
    HttpNest.handleEvent revents = some .onRead → .epollout ∈ revents → c.conn.iovecList = []
  | .writev answer => answer ≠ .error .eintr
  | _ => True

/-- A connection with an empty queue waits for nothing. -/
theorem Awake.of_nil (h : c.conn.iovecList = []) : Awake c :=
  ⟨fun hne => absurd h hne, fun _ hne => absurd h hne, fun _ _ hne => absurd h hne⟩

/-- A notification is enough in every phase. -/
theorem Awake.of_queued (hreg : c.conn.iovecList ≠ [] → .epollout ∈ c.item.events)
    (h : c.sock.writable = true → c.item.queued = true) : Awake c :=
  ⟨hreg, fun _ _ hw => h hw, fun _ _ _ hw => .inl (h hw)⟩

/-- **Every other step keeps the connection awake.** -/
theorem Awake.move {e : LoopEvent} (h : Awake c) (he : Unhurt c e) (hm : Move c e c') :
    Awake c' := by
  cases hm with
  | kernel e =>
    -- what becomes writable is queued
    have hwake : c.conn.iovecList ≠ [] → (c.sock.after e).writable = true →
        c.sock.writable = true ∨ (c.item.wake (c.sock.wakes e)).queued = true := by
      intro hne hw
      rcases Socket.epollout_wakes hw with hw | hmem
      · exact .inl hw
      · exact .inr (Item.wake_queued hmem (h.registered hne))
    refine ⟨h.registered, fun hp hne hw => ?_, fun revents hp hne hw => ?_⟩
    · rcases hwake hne hw with hw | hqueued
      · exact Item.queued_wake (h.quiet hp hne hw)
      · exact hqueued
    · rcases hwake hne hw with hw | hqueued
      · exact (h.handed revents hp hne hw).imp_left Item.queued_wake
      · exact .inl hqueued
  | handOut hphase hqueued =>
    -- what is handed out carries `EPOLLOUT`
    have hmem : c.conn.iovecList ≠ [] → c.sock.writable = true →
        .epollout ∈ (c.item.wait c.sock.ready).1 := by
      intro hne hw
      exact mem_reported ((Socket.epollout_mem_ready _).2 hw) (h.registered hne)
    refine ⟨h.registered, fun hp hne hw => ?_, fun revents hp hne hw => ?_⟩
    · have hm := hmem hne hw
      simp only at hp
      rw [if_neg (Finset.ne_empty_of_mem hm)] at hp
      rcases hp with hp | hp <;> cases hp
    · have hm := hmem hne hw
      simp only at hp
      rw [if_neg (Finset.ne_empty_of_mem hm)] at hp
      cases hp
      exact .inr hm
  | @read revents hphase hh =>
    -- a notification that carries `EPOLLOUT` is read alone only while nothing is queued
    refine ⟨h.registered, fun _ hne hw => ?_, fun revents hp => (by cases hp)⟩
    rcases h.handed revents hphase hne hw with hqueued | hmem
    · exact hqueued
    · exact absurd (he revents hphase hh hmem) hne
  | write hphase hh hq =>
    refine ⟨h.registered, fun hp => ?_, fun revents hp => (by cases hp)⟩
    rcases hp with hp | hp <;> cases hp
  | writeNothing hphase hh hq => exact .of_nil hq
  | @ignore revents hphase hh =>
    refine ⟨h.registered, fun _ hne hw => ?_, fun revents hp => (by cases hp)⟩
    exact (h.handed revents hphase hne hw).resolve_right (handleEvent_none hh).2
  | readSome hphase =>
    refine ⟨h.registered, fun _ hne hw => h.quiet (.inr hphase) hne hw, fun revents hp => ?_⟩
    rw [hphase] at hp
    cases hp
  | readStop hphase _ _ =>
    exact ⟨h.registered, fun _ hne hw => h.quiet (.inr hphase) hne hw, fun revents hp =>
      (by cases hp)⟩
  | wroteSome hphase hold =>
    -- the handler goes on writing, and owes no notification
    refine ⟨fun _ => h.registered hold, fun hp => ?_, fun revents hp => ?_⟩
    · rw [hphase] at hp
      rcases hp with hp | hp <;> cases hp
    · rw [hphase] at hp
      cases hp
  | wroteAll hphase => exact .of_nil rfl
  | @writeStop err hphase ht =>
    -- `EAGAIN`: the socket is not writable
    refine ⟨h.registered, fun _ _ hw => ?_, fun revents hp => (by cases hp)⟩
    rcases err with _ | _ | _ | code
    · exact absurd rfl he
    · cases hw
    · cases hw
    · cases ht
  | sent answer hphase =>
    exact ⟨h.registered, fun hp hne hw => h.quiet hp hne (writable_afterWrite hw),
      fun revents hp hne hw => h.handed revents hp hne (writable_afterWrite hw)⟩
  | queued answer hphase =>
    -- the registration of `EPOLLOUT` queues the item if the socket is writable
    exact .of_queued (fun _ => epollout_enableWriting) fun hw => writable_enableWriting hw

theorem Awake.added (sock : Socket) : Awake (.added sock) := .of_nil rfl

/-- **No wake-up for writing is lost.** In every run in which no notification that
carries `EPOLLOUT` is handled by reading alone while something is queued, and no `writev`
is interrupted: whenever no handler is running, the connection is open, something is
queued and the socket is writable, a notification that carries `EPOLLOUT` is pending. -/
theorem write_wakeup {sock : Socket} {es : List LoopEvent}
    (hmeets : Meets Channel.step Unhurt (.added sock) es)
    (hrun : run Channel.step (.added sock) es = some c) (hidle : c.phase = .idle)
    (hopen : c.conn.isClosed = false) (hqueue : c.conn.iovecList ≠ [])
    (hwritable : c.sock.writable = true) : c.Pending .epollout := by
  have hinv : c.conn.isClosed = false → Awake c := by
    refine run_inv_of_meets (fun c => c.conn.isClosed = false → Awake c) ?_
      (fun _ => .added sock) hmeets hrun
    intro c e c' hc he hstep hopen
    rcases step_move hstep with hclosed | ⟨hopen', hm⟩
    · rw [hopen] at hclosed
      cases hclosed
    · exact (hc hopen').move he hm
  have h := hinv hopen
  exact ⟨h.quiet (.inl hidle) hqueue hwritable,
    mem_reported ((Socket.epollout_mem_ready _).2 hwritable) (h.registered hqueue)⟩

/-- Half of a buffer is accepted, the socket is full; then bytes arrive, the socket drains,
and one notification reports both. The bytes are read. -/
def coalesced : List LoopEvent :=
  [.send 1000 10 (.count 4), .kernel .fills, .kernel (.arrives 3 false), .kernel .drains,
    .epollWait, .handleEvent, .readv (.count 3), .readv (.error .eagain)]

/-- Nothing will ever be written again. -/
theorem write_stalls : ¬ ∀ sock es c, run Channel.step (.added sock) es = some c →
    c.phase = .idle → c.conn.isClosed = false → c.conn.iovecList ≠ [] →
    c.sock.writable = true → c.Pending .epollout := by
  intro h
  have hrun : (run Channel.step (.added { writable := true }) coalesced).map (fun c =>
      (c.phase, c.conn, c.sock.writable, c.item.queued)) =
      some (.idle, ⟨false, [⟨1004, 6⟩]⟩, true, false) := by
    decide +kernel
  obtain ⟨c, hc, heq⟩ := Option.map_eq_some_iff.1 hrun
  simp only [Prod.mk.injEq] at heq
  obtain ⟨hidle, hconn, hw, hqueued⟩ := heq
  have hpending := h _ _ c hc hidle (by rw [hconn]) (by rw [hconn]; simp) hw
  rw [hpending.1] at hqueued
  cases hqueued

/-- The same without the arrival: the rest of the buffer is waiting for its notification. -/
theorem write_wakeup_drained : ∃ c, run Channel.step (.added { writable := true })
    [.send 1000 10 (.count 4), .kernel .fills, .kernel .drains] = some c ∧ c.Pending .epollout := by
  have hrun : (run Channel.step (.added { writable := true })
      [.send 1000 10 (.count 4), .kernel .fills, .kernel .drains]).map (fun c =>
      (c.phase, c.conn, c.sock.writable)) = some (.idle, ⟨false, [⟨1004, 6⟩]⟩, true) := by
    decide +kernel
  obtain ⟨c, hc, heq⟩ := Option.map_eq_some_iff.1 hrun
  simp only [Prod.mk.injEq] at heq
  obtain ⟨hidle, hconn, hw⟩ := heq
  have hmeets : Meets Channel.step Unhurt (.added { writable := true })
      [.send 1000 10 (.count 4), .kernel .fills, .kernel .drains] :=
    ⟨trivial, fun _ _ => ⟨trivial, fun _ _ => ⟨trivial, fun _ _ => trivial⟩⟩⟩
  exact ⟨c, hc, write_wakeup hmeets hc hidle (by rw [hconn]) (by rw [hconn]; simp) hw⟩

end HttpNest
