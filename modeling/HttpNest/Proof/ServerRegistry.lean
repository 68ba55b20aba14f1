import HttpNest.Proof.ChannelEntries

/-!
# The registries of a server

A `TcpServer` keeps its connections in `connections_`, the loop keeps them in `channels_`, and
the kernel their descriptors. `Tracked` says what an accepted connection is in each of them,
before and after it has been closed. Whatever way a connection takes into `OnClose`, the
first time it goes through `OnConnectionClose`, and no other time does anything.

* `server_registries`: the registries agree in every state of a run of the server.
-/

namespace HttpNest

open EventRun Epoll

namespace Reactor

variable {ι : Type*} [DecidableEq ι] {kind : ι → ChannelClass} {s t u : Reactor ι} {o : ι}
  {sock : Option ℤ} {e : ReactorStep ι}

/-- The steps of a server that has been started: those of its connections and its acceptor. -/
def ServerStep (kind : ι → ChannelClass) : ReactorStep ι → Prop
  | .connect _ _ _ | .start _ _ => False
  | e => kind (subject e) = .tcpConnection ∨ kind (subject e) = .acceptor

/-- An accepted connection is in both registries exactly while it is open, with a descriptor of its
own, and is destroyed once when it is closed. -/
structure Recorded (kind : ι → ChannelClass) (s : Reactor ι) (o : ι) : Prop where
  connections : o ∈ s.connections ↔ (s.object o).isClosed = false
  registered : s.Registered o ∧ s.kernel.interest (s.object o).fd = true ↔ o ∈ s.connections
  distinct : (s.object o).isClosed = false → ∀ k, kind k = .tcpConnection →
    (s.object k).accepted = true → (s.object k).isClosed = false →
    (s.object k).fd = (s.object o).fd → k = o
  destroyed : (s.object o).destroyed = if (s.object o).isClosed = true then 1 else 0
  /-- A descriptor that has been closed belongs to a connection that has been destroyed. -/
  before : ∀ n ∈ (s.object o).descriptors, s.kernel.closes n = 1 → (s.object o).destroyed = 1

/-- An accepted connection in the registries; `n` is the serial number of its descriptor. -/
structure Tracked (s : Reactor ι) (o : ι) (n : ℕ) : Prop where
  descriptors : (s.object o).descriptors = [n]
  serial : (s.object o).isClosed = false ∨ (s.object o).closing = true →
    s.kernel.serial (s.object o).fd = some n
  registered : s.Registered o ↔ (s.object o).isClosed = false
  connections : o ∈ s.connections ↔ (s.object o).isClosed = false
  closing : (s.object o).isClosed = false → (s.object o).closing = false
  destroyed : (s.object o).destroyed = if (s.object o).isClosed = true then 1 else 0

/-- The run invariant of a server. -/
structure Serves (kind : ι → ChannelClass) (s : Reactor ι) : Prop where
  coherent : Coherent s
  pristine : Pristine kind s
  tracked : ∀ o, kind o = .tcpConnection → (s.object o).accepted = true → ∃ n, Tracked s o n
  members : ∀ o, o ∈ s.connections → kind o = .tcpConnection ∧ (s.object o).accepted = true
  acceptors : ∀ o, kind o = .acceptor → (s.object o).closing = false

omit [DecidableEq ι] in
theorem Tracked.frame {n : ℕ} {k : ι} (h : Tracked s k n) (hc : Coherent s) (hf : Frame o s t)
    (hko : k ≠ o) : Tracked t k n where
  descriptors := by rw [hf.object k hko, h.descriptors]
  serial hopen := by
    rw [hf.object k hko] at hopen ⊢
    have hs := h.serial hopen
    have hfd : 0 ≤ (s.object k).fd := hc.kernel.nonneg _ (Descriptors.isOpen_iff.2 ⟨n, hs⟩)
    rw [hf.serial k hko hfd, hs]
  registered := by rw [hf.registered k hko, hf.object k hko, h.registered]
  connections := by rw [hf.connections k hko, hf.object k hko, h.connections]
  closing := by
    rw [hf.object k hko]
    exact h.closing
  destroyed := by rw [hf.object k hko, h.destroyed]

omit [DecidableEq ι] in
theorem Serves.recorded (h : Serves kind s) (hk : kind o = .tcpConnection)
    (ha : (s.object o).accepted = true) : Recorded kind s o := by
  obtain ⟨n, ht⟩ := h.tracked o hk ha
  refine ⟨ht.connections, ?_, ?_, ht.destroyed, ?_⟩
  · rw [ht.connections, ← ht.registered]
    exact and_iff_left_of_imp fun hr => (h.coherent.entry _ _ hr).2
  · -- one descriptor is held by one object
    intro hopen k hkk hka hkopen hfd
    have hs := ht.serial (.inl hopen)
    have hnonneg := h.coherent.kernel.nonneg _ (Descriptors.isOpen_iff.2 ⟨n, hs⟩)
    exact (h.coherent.distinct o k hnonneg hfd.symm).symm
  · intro m hm hclosed
    rw [ht.descriptors, List.mem_singleton] at hm
    subst hm
    -- an open descriptor has not been closed
    have hcl : (s.object o).isClosed = true := by
      by_contra hopen
      have hs := ht.serial (.inl (by simpa using hopen))
      rw [h.coherent.kernel.unclosed m (.inr ⟨_, hs⟩)] at hclosed
      cases hclosed
    rw [ht.destroyed, if_pos hcl]

/-- A step about `o` that keeps what the invariant says of `o`. -/
theorem Serves.next (h : Serves kind s) (hres : Result o s t) (hp : Pristine kind t)
    (hconn : kind o = .tcpConnection → ∃ n, Tracked t o n)
    (hmember : o ∈ t.connections → kind o = .tcpConnection ∧ (t.object o).accepted = true)
    (hacc : kind o = .acceptor → (t.object o).closing = false) : Serves kind t where
  coherent := hres.coherent
  pristine := hp
  tracked k hk ha := by
    by_cases hko : k = o
    · subst hko
      exact hconn hk
    · rw [hres.frame.object k hko] at ha
      obtain ⟨n, hn⟩ := h.tracked k hk ha
      exact ⟨n, hn.frame h.coherent hres.frame hko⟩
  members k hk := by
    by_cases hko : k = o
    · subst hko
      exact hmember hk
    · rw [hres.frame.object k hko]
      exact h.members k ((hres.frame.connections k hko).1 hk)
  acceptors k hk := by
    by_cases hko : k = o
    · subst hko
      exact hacc hk
    · rw [hres.frame.object k hko]
      exact h.acceptors k hk

/-! ## Connections -/

theorem accept_tracked {fd : ℤ} (h : Coherent s) (hnew : s.object o = {})
    (hr : ¬ s.Registered o) (ht : s.accept o fd = some t) :
    ∃ n, Tracked t o n := by
  obtain ⟨-, hob, hreg, hmem, hserial⟩ := accept_spec h hr ht
  have hto : t.object o = { fd := fd, accepted := true, descriptors := [s.kernel.next] } := by
    rw [hob, hnew]
  refine ⟨s.kernel.next, ⟨by rw [hto], fun _ => ?_, ?_, ?_, fun _ => by rw [hto], by simp [hto]⟩⟩
  · rw [hto]
    exact hserial
  · simp [hreg, hto]
  · simp [hmem, hto]

/-- The first `OnClose` of a connection. -/
theorem connectionOnClose_spec (h : Coherent s) (hopen : (s.object o).isClosed = false)
    (ht : s.baseOnClose o (fun s => s.onConnectionClose o) = some t) :
    t.object o = { s.object o with
        isClosed := true, closing := true, destroyed := (s.object o).destroyed + 1 } ∧
      ¬ t.Registered o ∧ o ∉ t.connections ∧ t.kernel.serial = s.kernel.serial := by
  unfold baseOnClose at ht
  split_ifs at ht with hcl
  · rw [hopen] at hcl
    cases hcl
  · obtain ⟨u, hu, rfl⟩ := Option.map_eq_some_iff.1 ht
    have hmod := h.result_modify (o := o)
      (f := fun c => { c with isClosed := true, closing := true }) rfl fun hm => hm
    have hcon := hmod.coherent.setConnections (s.connections.erase o)
    obtain ⟨-, hobj, hur, hconn, hserial⟩ := removeChannel_spec hcon hu
    refine ⟨?_, ?_, ?_, hserial⟩
    · rw [object_modify, if_pos rfl, hobj]
      simp
    · rwa [registered_modify (by rfl)]
    · rw [connections_modify, hconn]
      exact Finset.notMem_erase o _

/-- `OnClose` of a connection, whether it is the first one or not. -/
theorem Tracked.onClose {n : ℕ} (h : Tracked s o n) (hc : Coherent s)
    (ht : s.baseOnClose o (fun s => s.onConnectionClose o) = some t) : Tracked t o n := by
  by_cases hopen : (s.object o).isClosed = false
  · -- all three registries drop it; the descriptor is closed later
    obtain ⟨hob, hr, hconn, hserial⟩ := connectionOnClose_spec hc hopen ht
    have hs := h.serial (.inl hopen)
    refine ⟨?_, fun _ => ?_, ?_, ?_, ?_, ?_⟩
    · rw [hob, h.descriptors]
    · rw [hob, hserial, hs]
    · simp [hr, hob]
    · simp [hconn, hob]
    · simp [hob]
    · rw [hob, h.destroyed, hopen]
      rfl
  · rw [Bool.not_eq_false] at hopen
    simp only [baseOnClose, hopen, if_pos] at ht
    cases ht
    exact h

theorem Tracked.finishClose {n : ℕ} (h : Tracked s o n) (hc : Coherent s)
    (ht : s.finishClose o = some t) : Tracked t o n := by
  have hclosing := finishClose_closing ht
  have hcl : (s.object o).isClosed = true := by
    by_contra hopen
    rw [h.closing (by simpa using hopen)] at hclosing
    cases hclosing
  have hr : ¬ s.Registered o := by
    rw [h.registered, hcl]
    exact nofun
  obtain ⟨hob, htr, hconn, -⟩ := finishClose_spec hc hr ht
  refine ⟨?_, ?_, ?_, ?_, ?_, ?_⟩
  · rw [hob, h.descriptors]
  · -- it is closed, and closing no more
    rw [hob, hcl]
    rintro (hopen | hclosing) <;> contradiction
  · rw [hob, hcl]
    simp [htr]
  · rw [hconn, h.connections, hob]
  · rw [hob, hcl]
    exact fun hopen => (by cases hopen)
  · rw [hob, h.destroyed]

/-! ## The acceptor -/

/-- Nothing about an acceptor is closed step by step, and no connection is concerned. -/
theorem acceptorOpen_spec (h : Coherent s) (hr : ¬ s.Registered o)
    (ht : s.acceptorOpen o sock = some t) :
    (t.object o).closing = (s.object o).closing ∧ t.connections = s.connections := by
  rcases sock with _ | fd
  · cases ht
  · obtain ⟨u, hu, ht⟩ := Option.bind_eq_some_iff.1 ht
    obtain ⟨hclose, hconn, -, hob, -⟩ := close_spec h fun _ => hr
    have hcr := h.not_registered_close hr
    obtain ⟨hopen, hur, huconn, huob, -⟩ := openDescriptor_spec hclose.coherent hcr hu
    obtain ⟨-, htob, -, htconn, -⟩ := addChannel_spec hopen.coherent hur ht
    exact ⟨by rw [htob, huob, hob], by rw [htconn, huconn, hconn]⟩

/-! ## Runs -/

omit [DecidableEq ι] in
/-- An object that is being closed has been accepted. -/
theorem Serves.accepted_of_closing (h : Serves kind s) (hk : kind o = .tcpConnection)
    (hclosing : (s.object o).closing = true) : (s.object o).accepted = true := by
  by_contra ha
  rw [h.pristine o hk (by simpa using ha)] at hclosing
  cases hclosing

theorem connection_step (h : Serves kind s) (hk : kind (subject e) = .tcpConnection)
    (ht : s.step kind e = some t) : ∃ n, Tracked t (subject e) n := by
  -- an event, a timeout and a forced close all end in `OnClose`
  have hclose : ∀ {o sock}, kind o = .tcpConnection → s.Made kind o →
      s.onClose kind o sock = some t → ∃ n, Tracked t o n := by
    intro o sock hk hm hcl
    obtain ⟨n, hn⟩ := h.tracked o hk (hm hk)
    simp only [onClose, hk] at hcl
    exact ⟨n, hn.onClose h.coherent hcl⟩
  cases e with
  | accept o fd =>
    simp only [step] at ht
    split_ifs at ht
    have ha := accept_new ht
    exact accept_tracked h.coherent (h.pristine o hk ha)
      (h.pristine.not_registered h.coherent hk ha) ht
  | connect o sock answer =>
    -- `Connect`, `Start` and `Stop` are no calls of a connection
    rw [subject] at hk
    simp [step, hk] at ht
  | start o sock =>
    rw [subject] at hk
    simp [step, hk] at ht
  | stop o =>
    rw [subject] at hk
    simp [step, hk] at ht
  | handleEvent o revents fails sock =>
    rw [subject] at hk
    simp only [step] at ht
    split_ifs at ht with hm
    rcases onEvent_cases ht with hcl | rfl | ⟨hclient, -⟩
    · exact hclose hk hm hcl
    · exact h.tracked o hk (hm hk)
    · cases hk.symm.trans hclient
  | timeout o =>
    simp only [step] at ht
    split_ifs at ht with hm
    exact hclose hk hm.2 ht
  | forceClose o =>
    simp only [step] at ht
    split_ifs at ht with hm
    exact hclose hk hm.2 ht
  | finishClose o =>
    have hclosing := finishClose_closing ht
    -- it was accepted, since it is being closed
    obtain ⟨n, hn⟩ := h.tracked o hk (h.accepted_of_closing hk hclosing)
    exact ⟨n, hn.finishClose h.coherent ht⟩

theorem acceptor_step (h : Serves kind s) (he : ServerStep kind e)
    (hk : kind (subject e) = .acceptor) (ht : s.step kind e = some t) :
    (t.object (subject e)).closing = (s.object (subject e)).closing ∧
      t.connections = s.connections := by
  cases e with
  | accept o fd =>
    rw [subject] at hk
    simp [step, hk] at ht
  | connect => exact he.elim
  | start => exact he.elim
  | stop o =>
    rw [subject] at hk
    simp only [step, hk] at ht
    obtain ⟨-, hob, -, hconn, -⟩ := removeChannel_spec h.coherent ht
    exact ⟨by rw [hob], hconn⟩
  | handleEvent o revents fails sock =>
    rw [subject] at hk
    simp only [step] at ht
    split_ifs at ht
    rcases onEvent_cases ht with hcl | rfl | ⟨hclient, -⟩
    · -- an error of the acceptor: it is opened again
      simp only [onClose, hk] at hcl
      obtain ⟨u, hu, hcl⟩ := Option.bind_eq_some_iff.1 hcl
      obtain ⟨hrem, hob, hur, hconn, -⟩ := removeChannel_spec h.coherent hu
      obtain ⟨hclosing, hconn'⟩ := acceptorOpen_spec hrem.coherent hur hcl
      exact ⟨by rw [subject, hclosing, hob], hconn'.trans hconn⟩
    · exact ⟨rfl, rfl⟩
    · cases hk.symm.trans hclient
  | timeout o =>
    rw [subject] at hk
    simp [step, hk] at ht
  | forceClose o =>
    rw [subject] at hk
    simp [step, hk] at ht
  | finishClose o =>
    -- an acceptor never waits for the end of a close
    have hclosing := finishClose_closing ht
    rw [h.acceptors o hk] at hclosing
    cases hclosing

/-- **What a step of the server preserves.** -/
theorem step_serves (h : Serves kind s) (he : ServerStep kind e)
    (ht : s.step kind e = some t) : Serves kind t := by
  have hkind : kind (subject e) = .tcpConnection ∨ kind (subject e) = .acceptor := by
    cases e with
    | connect => exact he.elim
    | start => exact he.elim
    | _ => exact he
  -- a descriptor is closed only behind the removal of its channel
  have hu : s.Unregistered e := by
    cases e with
    | connect => exact he.elim
    | start => exact he.elim
    | finishClose o =>
      intro _ hr
      have hclosing := finishClose_closing ht
      rcases hkind with hk | hk
      · -- a connection that is being closed has been removed
        obtain ⟨n, hn⟩ := h.tracked o hk (h.accepted_of_closing hk hclosing)
        rw [hn.closing (hn.registered.1 hr)] at hclosing
        cases hclosing
      · rw [h.acceptors o hk] at hclosing
        cases hclosing
    | _ => trivial
  obtain ⟨hres, hp⟩ := step_result h.coherent h.pristine hu ht
  rcases hkind with hk | hk
  · have hconn := connection_step h hk ht
    -- a connection that no one accepted has no descriptor
    have hacc : (t.object (subject e)).accepted = true := by
      by_contra ha
      obtain ⟨n, hn⟩ := hconn
      have hdesc := hn.descriptors
      rw [hp _ hk (by simpa using ha)] at hdesc
      cases hdesc
    exact h.next hres hp (fun _ => hconn) (fun _ => ⟨hk, hacc⟩)
      fun hk' => (by rw [hk] at hk'; cases hk')
  -- an acceptor leaves the connections as they are
  · obtain ⟨hclosing, hconn⟩ := acceptor_step h he hk ht
    refine h.next hres hp (fun hk' => (by rw [hk] at hk'; cases hk')) (fun hmem => ?_) fun hk' => ?_
    · rw [hconn] at hmem
      exact absurd (h.members _ hmem).1 (by rw [hk]; exact nofun)
    · rw [hclosing, h.acceptors _ hk]

/-- A server that has just been started. -/
theorem serves_start {a : ι} {fd : ℤ} (ha : kind a = .acceptor)
    (ht : (init : Reactor ι).step kind (.start a (some fd)) = some s) : Serves kind s := by
  have hr : ¬ (init : Reactor ι).Registered a := nofun
  obtain ⟨hres, hp⟩ := step_result (e := .start a (some fd)) coherent_init pristine_init hr ht
  simp only [step, ha] at ht
  obtain ⟨hclosing, hconn⟩ := acceptorOpen_spec coherent_init hr ht
  have hobject : ∀ k, k ≠ a → s.object k = {} := fun k hk => hres.frame.object k hk
  have hnone : ∀ k, k ∉ s.connections := by
    intro k hk
    rw [hconn] at hk
    exact absurd hk (Finset.notMem_empty k)
  refine ⟨hres.coherent, hp, fun o hk hacc => ?_, fun o ho => absurd ho (hnone o), fun o hk => ?_⟩
  · have hoa : o ≠ a := by
      rintro rfl
      rw [ha] at hk
      cases hk
    rw [hobject o hoa] at hacc
    cases hacc
  · by_cases hoa : o = a
    · subst hoa
      rw [hclosing]
      rfl
    · rw [hobject o hoa]

/-- **The registries of a server agree in every state of its runs.** -/
theorem server_registries (kind : ι → ChannelClass) {a : ι} {fd : ℤ} {es : List (ReactorStep ι)}
    (ha : kind a = .acceptor)
    (hstart : (init : Reactor ι).step kind (.start a (some fd)) = some s)
    (hes : ∀ e ∈ es, ServerStep kind e) (hrun : run (step kind) s es = some t) :
    (∀ o, o ∈ t.connections → kind o = .tcpConnection ∧ (t.object o).accepted = true) ∧
      ∀ o, kind o = .tcpConnection → (t.object o).accepted = true → Recorded kind t o := by
  have hinv : Serves kind t := by
    have hmeets : Meets (step kind) (fun _ => ServerStep kind) s es := meets_of_forall hes
    exact run_inv_of_meets (Serves kind) (fun s e s' hs he h => step_serves hs he h)
      (serves_start ha hstart) hmeets hrun
  exact ⟨hinv.members, fun o hk hacc => hinv.recorded hk hacc⟩

/-- A connection that is accepted, meets an error, is forced to close in the callback of its
close and once more after it, while the next one is accepted. -/
theorem server_registries_reused : ∃ t : Reactor (Fin 3),
    run (step fun o => if o = 0 then .acceptor else .tcpConnection) (init : Reactor (Fin 3))
      [.start 0 (some 4), .accept 1 5, .handleEvent 1 {.epollerr} false none, .forceClose 1,
        .finishClose 1, .accept 2 5, .timeout 1] = some t ∧
    Recorded (fun o => if o = 0 then .acceptor else .tcpConnection) t 1 ∧
    Recorded (fun o => if o = 0 then .acceptor else .tcpConnection) t 2 := by
  obtain ⟨s, hs, t, ht, h1, h2⟩ : ∃ s, (init : Reactor (Fin 3)).step
        (fun o => if o = 0 then .acceptor else .tcpConnection) (.start 0 (some 4)) = some s ∧
      ∃ t, run (step fun o => if o = 0 then .acceptor else .tcpConnection) s
        [.accept 1 5, .handleEvent 1 {.epollerr} false none, .forceClose 1,
          .finishClose 1, .accept 2 5, .timeout 1] = some t ∧
      (t.object 1).accepted = true ∧ (t.object 2).accepted = true :=
    ⟨_, rfl, _, rfl, rfl, rfl⟩
  have hall := (server_registries (fun o => if o = 0 then .acceptor else .tcpConnection) rfl hs
    (by simp [ServerStep, subject]) ht).2
  exact ⟨t, run_cons_eq_some.2 ⟨s, hs, ht⟩, hall 1 rfl h1, hall 2 rfl h2⟩

end Reactor

end HttpNest
