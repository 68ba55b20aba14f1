import HttpNest.Proof.ChannelStep
import HttpNest.Spec.WriteCallback

/-!
# Callbacks that send while `OnWrite` is on the stack

`OnWrite` and `SendInLoop` call `writeCompleteCb_` as the last thing they do, with an empty
queue and after `EnableWriting(false)`. What the callback queues is therefore followed by its
own `EnableWriting(true)`, and by nothing that takes it back (`Kept.perform`).
-/

namespace HttpNest

open Epoll EventRun TcpConnection

namespace CallbackRun

variable {s t : CallbackRun} {callback : CallbackRun → CallbackRun}

/-- What is queued waits for `EPOLLOUT`, and the callback has only been called with an empty
queue. -/
structure Kept (s : CallbackRun) : Prop where
  interest : s.channel.conn.iovecList ≠ [] → .epollout ∈ s.channel.item.events
  calls : ∀ queue ∈ s.calls, queue = []

/-- What a function of the connection may return on a connection with the mask `events`. -/
inductive Outcome (events : Finset Flag) : TcpConnection × List Effect → Prop
  | quiet {conn : TcpConnection} : (conn.iovecList ≠ [] → .epollout ∈ events) →
    Outcome events (conn, [])
  | queued (conn : TcpConnection) : Outcome events (conn, [.enableWriting true])
  | written {conn : TcpConnection} : conn.iovecList = [] → Outcome events (conn, [.writeComplete])
  | drained {conn : TcpConnection} : conn.iovecList = [] →
    Outcome events (conn, [.enableWriting false, .writeComplete])

theorem epollout_mem_enable (c : Channel) : .epollout ∈ (c.enableWriting true).item.events := by
  simp [Channel.enableWriting, kEventWrite]

/-- A call of the callback with an empty queue. -/
theorem Kept.called (h : ∀ s, Kept s → Kept (callback s)) (hq : s.channel.conn.iovecList = [])
    (hcalls : ∀ queue ∈ s.calls, queue = []) : Kept (s.effect callback .writeComplete) := by
  apply h
  refine ⟨fun hne => absurd hq hne, ?_⟩
  intro queue hqueue
  rcases List.mem_append.1 hqueue with hqueue | hqueue
  · exact hcalls queue hqueue
  · rw [List.mem_singleton.1 hqueue]
    exact hq

/-- **A function keeps the interest if its callback does.** -/
theorem Kept.perform (hs : Kept s) (h : ∀ s, Kept s → Kept (callback s))
    {r : TcpConnection × List Effect} (hr : Outcome s.channel.item.events r) :
    Kept (s.perform r callback) := by
  cases hr with
  | quiet hmem => exact ⟨hmem, hs.calls⟩
  | queued conn =>
    refine ⟨fun _ => ?_, hs.calls⟩
    exact epollout_mem_enable { s.channel with conn := conn }
  | written hq => exact .called h hq hs.calls
  | drained hq => exact .called (s := _) h hq hs.calls

/-! ## The functions of the connection -/

theorem outcome_sendInLoop (hs : Kept s) (buf size : BitVec 64) (answer : Answer) :
    Outcome s.channel.item.events (s.channel.conn.sendInLoop buf size answer) := by
  cases hc : s.channel.conn.isClosed with
  | true =>
    rw [sendInLoop_closed hc]
    exact .quiet hs.interest
  | false =>
    by_cases hq : s.channel.conn.iovecList = []
    · rw [sendInLoop_direct hc hq]
      split_ifs
      · exact .written hq
      · exact .queued _
    · rw [sendInLoop, if_neg (by simp [hc]), if_neg hq]
      split_ifs
      · exact .queued _
      · exact .quiet hs.interest

theorem outcome_sendListInLoop (hs : Kept s) (list : List Iovec) :
    Outcome s.channel.item.events (s.channel.conn.sendListInLoop list) := by
  cases hc : s.channel.conn.isClosed with
  | true =>
    rw [sendListInLoop_closed hc]
    exact .quiet hs.interest
  | false =>
    rw [sendListInLoop_open hc]
    split_ifs with hnil
    · exact .quiet fun hne => absurd hnil hne
    · exact .queued _

theorem outcome_onWrite (hs : Kept s) :
    Outcome s.channel.item.events (s.channel.conn.onWrite.1, s.channel.conn.onWrite.2.1) := by
  unfold onWrite
  split_ifs with hclosed hq
  · exact .quiet hs.interest
  · exact .drained hq
  · exact .quiet hs.interest

/-- A turn that leaves something found something. -/
theorem outcome_onWriteTurn (hs : Kept s) {answer : Answer} (ha : answer.isHard = false)
    {r : TcpConnection × List Effect × Bool} (h : s.channel.conn.onWriteTurn answer = some r) :
    Outcome s.channel.item.events (r.1, r.2.1) := by
  rcases onWriteTurn_cases h with ⟨n, vs, -, hconsume, hconn, heffects⟩ | ⟨e, rfl, hr⟩
  · rw [hconn, heffects]
    split_ifs with hvs
    · exact .drained hvs
    · exact .quiet fun hne => hs.interest (consume_ne_nil hconsume hne)
  · have htransient : e.transient = true := by simpa [Answer.isHard] using ha
    rw [if_pos htransient] at hr
    rw [hr]
    exact .quiet hs.interest

/-! ## Runs -/

/-- **A callback keeps the interest**, whatever it sends and whatever callbacks that causes. -/
theorem kept_reply (reply : Reply) : ∀ s, Kept s → Kept (reply.run s) := by
  induction reply with
  | done => exact fun s hs => hs
  | send buf size answer inner after ihInner ihAfter =>
    intro s hs
    exact ihAfter _ (hs.perform ihInner (outcome_sendInLoop hs buf size answer))
  | sendList list after ihAfter =>
    intro s hs
    exact ihAfter _ (hs.perform (fun _ h => h) (outcome_sendListInLoop hs list))

theorem Kept.setWriting (hs : Kept s) (writing : Bool) : Kept (s.setWriting writing) :=
  ⟨hs.interest, hs.calls⟩

theorem Kept.step (hs : Kept s) {e : CallbackEvent} (h : s.step e = some t) : Kept t := by
  cases e with
  | send buf size answer reply =>
    obtain ⟨-, h⟩ := Option.ite_none_right_eq_some.1 h
    cases h
    exact hs.perform (kept_reply reply) (outcome_sendInLoop hs buf size answer)
  | sendList list =>
    obtain ⟨-, h⟩ := Option.ite_none_right_eq_some.1 h
    cases h
    exact hs.perform (fun _ h => h) (outcome_sendListInLoop hs list)
  | onWrite reply =>
    obtain ⟨-, h⟩ := Option.ite_none_right_eq_some.1 h
    cases h
    exact (hs.perform (kept_reply reply) (outcome_onWrite hs)).setWriting _
  | writev answer reply =>
    obtain ⟨⟨-, ha⟩, h⟩ := Option.ite_none_right_eq_some.1 h
    obtain ⟨r, hr, rfl⟩ := Option.map_eq_some_iff.1 h
    exact (hs.perform (kept_reply reply) (outcome_onWriteTurn hs ha.2 hr)).setWriting _

theorem kept_start (sock : Socket) : Kept (start sock) := by
  refine ⟨fun hne => absurd rfl hne, ?_⟩
  intro queue hqueue
  cases hqueue

/-- **Whenever no handler runs, what is queued waits for `EPOLLOUT`, and `writeCompleteCb_` has
only been called with an empty queue.** -/
theorem interest_kept {sock : Socket} {es : List CallbackEvent}
    (h : run CallbackRun.step (start sock) es = some s) :
    (s.channel.phase = .idle → s.channel.conn.iovecList ≠ [] →
      .epollout ∈ s.channel.item.events) ∧ ∀ queue ∈ s.calls, queue = [] := by
  have hs := run_inv Kept (fun _ _ _ hs h => hs.step h) (kept_start sock) h
  exact ⟨fun _ => hs.interest, hs.calls⟩

/-- The last byte is written, and the callback sends more than the kernel takes. -/
theorem interest_reentered : ∃ s, run CallbackRun.step (start {})
    [.send 0x1000 5 (.count 2) .done, .onWrite .done,
      .writev (.count 3) (.send 0x2000 7 (.count 4) .done .done)] = some s ∧
    .epollout ∈ s.channel.item.events ∧ s.calls = [[]] := by
  obtain ⟨s, hs, hphase, hq, hcalls⟩ : ∃ s, run CallbackRun.step (start {})
      [.send 0x1000 5 (.count 2) .done, .onWrite .done,
        .writev (.count 3) (.send 0x2000 7 (.count 4) .done .done)] = some s ∧
      s.channel.phase = .idle ∧ s.channel.conn.iovecList ≠ [] ∧ s.calls = [[]] :=
    ⟨_, rfl, rfl, by decide, rfl⟩
  exact ⟨s, hs, (interest_kept hs).1 hphase hq, hcalls⟩

end CallbackRun

end HttpNest
