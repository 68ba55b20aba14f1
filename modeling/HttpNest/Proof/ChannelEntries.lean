import HttpNest.Proof.Reactor

/-!
# The entries of `channels_`

An entry stays behind when a registered object gets another descriptor, or when its
descriptor is closed without `DelChannel`. `Orderly` excludes just these two steps.

* `onClose_result`, `step_result`: all other steps keep the reactor coherent, and in a
  coherent reactor `AddChannel` registers what has just been opened (`addChannel_spec`).
* `not_sound_of_registered`: each of the two leaves an entry behind.
* `entries_sound_iff`: so the condition is exact.
-/

namespace HttpNest

open EventRun

namespace Reactor

variable {ι : Type*} [DecidableEq ι] {kind : ι → ChannelClass} {s t u : Reactor ι} {o : ι}
  {sock : Option ℤ} {e : ReactorStep ι}

/-- Every entry of `channels_` is a channel whose own `fd_` is the key, which is open and
which epoll watches; and no call of `AddChannel` has returned early. -/
def Sound (s : Reactor ι) : Prop :=
  (∀ fd o, s.channels fd = some o →
    (s.object o).fd = fd ∧ s.kernel.IsOpen fd ∧ s.kernel.interest fd = true) ∧ s.skipped = 0

/-- No descriptor is opened for a registered channel, and none of a registered channel is
closed. -/
def Unregistered (s : Reactor ι) : ReactorStep ι → Prop
  | .connect o _ _ | .start o _ => ¬ s.Registered o
  | .finishClose o => 0 < (s.object o).fd → ¬ s.Registered o
  | _ => True

/-- The condition, for the steps that can be taken. -/
def Orderly (kind : ι → ChannelClass) (s : Reactor ι) (e : ReactorStep ι) : Prop :=
  (s.step kind e).isSome → s.Unregistered e

/-- The object that a step is about. -/
def subject : ReactorStep ι → ι
  | .accept o _ | .connect o _ _ | .start o _ | .stop o | .handleEvent o _ _ _ | .timeout o
  | .forceClose o | .finishClose o => o

omit [DecidableEq ι] in
theorem Coherent.sound (h : Coherent s) : s.Sound := by
  refine ⟨fun fd o hfd => ?_, h.skipped⟩
  obtain ⟨hfd, hlist⟩ := h.entry fd o hfd
  exact ⟨hfd, h.kernel.listed fd hlist, hlist⟩

/-! ## Closing -/

theorem baseOnClose_result (h : Coherent s) (ht : s.baseOnClose o some = some t) :
    Result o s t := by
  unfold baseOnClose at ht
  split_ifs at ht
  · cases ht
    exact h.result o
  · cases ht
    exact h.result_modify rfl fun hm => hm

theorem connectionOnClose_result (h : Coherent s)
    (ht : s.baseOnClose o (fun s => s.onConnectionClose o) = some t) : Result o s t := by
  unfold baseOnClose at ht
  split_ifs at ht
  · cases ht
    exact h.result o
  · obtain ⟨u, hu, rfl⟩ := Option.map_eq_some_iff.1 ht
    have hmod : Result o s (s.modify o fun c => { c with isClosed := true, closing := true }) :=
      h.result_modify rfl fun hm => hm
    have herase : ∀ k, k ≠ o → (k ∈ s.connections.erase o ↔ k ∈ s.connections) := by
      intro k hk
      rw [Finset.mem_erase, and_iff_right hk]
    have hcon := hmod.coherent.setConnections (s.connections.erase o)
    have hrem := (removeChannel_spec hcon hu).1
    have hlast := hrem.coherent.result_modify (o := o)
      (f := fun c => { c with destroyed := c.destroyed + 1 }) rfl fun hm => hm
    exact ((hmod.trans ⟨hcon, .setConnections herase⟩).trans hrem).trans hlast

theorem clientOnClose_result (h : Coherent s) (ht : s.clientOnClose o = some t) :
    Result o s t := by
  obtain ⟨u, hu, ht⟩ := Option.bind_eq_some_iff.1 ht
  have hrem : Result o s u := by
    split_ifs at hu
    · exact (removeChannel_spec h hu).1
    · cases hu
      exact h.result o
  have hmod := hrem.coherent.result_modify (o := o)
    (f := fun c => { c with status := .kTcpConStatusDisConnected }) rfl fun hm => hm
  exact (hrem.trans hmod).trans (baseOnClose_result hmod.coherent ht)

theorem udpClientOnClose_result (h : Coherent s) (ht : s.udpClientOnClose o = some t) :
    Result o s t := by
  unfold udpClientOnClose at ht
  split_ifs at ht
  · obtain ⟨u, hu, ht⟩ := Option.bind_eq_some_iff.1 ht
    have hrem := (removeChannel_spec h hu).1
    have hmod := hrem.coherent.result_modify (o := o)
      (f := fun c => { c with connected := false }) rfl fun hm => hm
    exact (hrem.trans hmod).trans (baseOnClose_result hmod.coherent ht)
  · cases ht
    exact h.result o

/-- A descriptor is opened for an object that is not registered, and registered. -/
theorem openAdd_result (h : Coherent s) (hr : ¬ s.Registered o) {fd : ℤ}
    {f : ChannelObject → ChannelObject} (hf : ∀ c, (f c).fd = c.fd)
    (hm : ∀ c, c.accepted = true → (f c).accepted = true)
    (hu : s.openDescriptor o (some fd) = some u) (ht : (u.modify o f).addChannel o = some t) :
    Result o s t := by
  obtain ⟨hopen, hur, -, -, -⟩ := openDescriptor_spec h hr hu
  have hmod := hopen.coherent.result_modify (o := o) (f := f) (hf _) (hm _)
  have hmr : ¬ (u.modify o f).Registered o := by rwa [registered_modify (hf _)]
  exact (hopen.trans hmod).trans (addChannel_spec hmod.coherent hmr ht).1

theorem acceptorOpen_result (h : Coherent s) (hr : ¬ s.Registered o)
    (ht : s.acceptorOpen o sock = some t) : Result o s t := by
  rcases sock with _ | fd
  · cases ht
  · obtain ⟨u, hu, ht⟩ := Option.bind_eq_some_iff.1 ht
    have hclose := (close_spec h fun _ => hr).1
    have hcr := h.not_registered_close hr
    obtain ⟨hopen, hur, -⟩ := openDescriptor_spec hclose.coherent hcr hu
    exact (hclose.trans hopen).trans (addChannel_spec hopen.coherent hur ht).1

/-- **`OnClose` of every class**: a UDP server that closes itself is still registered, and
its descriptor still open. -/
theorem onClose_result (h : Coherent s) (ht : s.onClose kind o sock = some t) :
    Result o s t := by
  unfold onClose at ht
  split at ht
  · exact connectionOnClose_result h ht
  · exact clientOnClose_result h ht
  · exact baseOnClose_result h ht
  · exact udpClientOnClose_result h ht
  · obtain ⟨u, hu, ht⟩ := Option.bind_eq_some_iff.1 ht
    obtain ⟨hrem, -, hur, -⟩ := removeChannel_spec h hu
    exact hrem.trans (acceptorOpen_result hrem.coherent hur ht)

theorem finishClose_closing (ht : s.finishClose o = some t) : (s.object o).closing = true := by
  unfold finishClose at ht
  split_ifs at ht with hclosing
  exact hclosing

theorem finishClose_result (h : Coherent s) (hr : 0 < (s.object o).fd → ¬ s.Registered o)
    (ht : s.finishClose o = some t) : Result o s t := by
  unfold finishClose at ht
  split_ifs at ht
  cases ht
  have hclose := (close_spec h hr).1
  exact hclose.trans (hclose.coherent.result_modify rfl fun hm => hm)

/-- The end of `OnClose` of an object that is not registered. -/
theorem finishClose_spec (h : Coherent s) (hr : ¬ s.Registered o)
    (ht : s.finishClose o = some t) :
    t.object o = { s.object o with
        closing := false, fd := if 0 < (s.object o).fd then -1 else (s.object o).fd } ∧
      ¬ t.Registered o ∧ t.connections = s.connections ∧
      ∀ n, s.kernel.serial (s.object o).fd = some n → 0 < (s.object o).fd →
        t.kernel.closes n = 1 := by
  unfold finishClose at ht
  split_ifs at ht
  cases ht
  obtain ⟨-, hconn, -, hob, hcloses⟩ := close_spec h fun _ => hr
  refine ⟨?_, ?_, hconn, hcloses⟩
  · rw [object_modify, if_pos rfl, hob]
  · rw [registered_modify (by rfl)]
    exact h.not_registered_close hr

/-- `OnRead` and `OnWrite` close the object or leave the reactor as it is; but for a client
that is connecting, which may find that it has connected. -/
theorem onReady_cases {handler : Handler} {fails : Bool}
    (ht : s.onReady kind o handler fails sock = some t) :
    s.onClose kind o sock = some t ∨ t = s ∨ kind o = .tcpClient ∧
      (s.object o).status = .kTcpConStatusConnecting ∧
      t = s.modify o fun c => { c with status := .kTcpConStatusConnected } := by
  have hif : ∀ {p : Prop} [Decidable p], (if p then s.onClose kind o sock else some s) = some t →
      s.onClose kind o sock = some t ∨ t = s := by
    intro p _ hp
    split_ifs at hp
    · exact .inl hp
    · cases hp
      exact .inr rfl
  unfold onReady at ht
  split at ht
  case h_4 hk =>
    split at ht
    case h_1 hst =>
      split_ifs at ht
      · exact .inl ht
      · cases ht
        exact .inr (.inr ⟨hk, hst, rfl⟩)
    case h_2 => exact (hif ht).imp_right .inl
    case h_3 =>
      cases ht
      exact .inr (.inl rfl)
  all_goals exact (hif ht).imp_right .inl

/-- The same is so for every event. -/
theorem onEvent_cases {revents : Finset Epoll.Flag} {fails : Bool}
    (ht : s.onEvent kind o revents fails sock = some t) :
    s.onClose kind o sock = some t ∨ t = s ∨ kind o = .tcpClient ∧
      (s.object o).status = .kTcpConStatusConnecting ∧
      t = s.modify o fun c => { c with status := .kTcpConStatusConnected } := by
  unfold onEvent at ht
  split at ht
  · exact .inl ht
  · exact .inl ht
  · exact onReady_cases ht
  · cases ht
    exact .inr (.inl rfl)

theorem onEvent_result {revents : Finset Epoll.Flag} {fails : Bool} (h : Coherent s)
    (ht : s.onEvent kind o revents fails sock = some t) : Result o s t := by
  rcases onEvent_cases ht with hcl | rfl | ⟨-, -, rfl⟩
  · exact onClose_result h hcl
  · exact h.result o
  · exact h.result_modify rfl fun hm => hm

/-! ## Opening -/

theorem clientConnect_result {answer : ConnectAnswer} (h : Coherent s) (hr : ¬ s.Registered o)
    (ht : s.clientConnect o sock answer = some t) : Result o s t := by
  obtain ⟨u, hu, ht⟩ := Option.bind_eq_some_iff.1 ht
  rcases sock with _ | fd
  · obtain ⟨hopen, -⟩ := openDescriptor_none_spec h hr hu
    exact hopen.trans (clientOnClose_result hopen.coherent ht)
  · obtain ⟨v, hv, ht⟩ := Option.bind_eq_some_iff.1 ht
    obtain ⟨w, hw, ht⟩ := Option.bind_eq_some_iff.1 ht
    have hadd : Result o s v := openAdd_result h hr
      (f := fun c => { c with status := .kTcpConStatusConnecting })
      (fun _ => rfl) (fun _ hm => hm) hu hv
    rw [updateChannel_eq hw] at ht
    split at ht
    · cases ht
      exact hadd.trans (hadd.coherent.result_modify rfl fun hm => hm)
    · cases ht
      exact hadd
    · exact hadd.trans (clientOnClose_result hadd.coherent ht)

theorem udpServerOpen_result (h : Coherent s) (hr : ¬ s.Registered o)
    (ht : s.udpServerOpen o sock = some t) : Result o s t := by
  obtain ⟨u, hu, ht⟩ := Option.bind_eq_some_iff.1 ht
  rcases sock with _ | fd
  · obtain ⟨hopen, -⟩ := openDescriptor_none_spec h hr hu
    exact hopen.trans (baseOnClose_result hopen.coherent ht)
  · obtain ⟨hopen, hur, -⟩ := openDescriptor_spec h hr hu
    exact hopen.trans (addChannel_spec hopen.coherent hur ht).1

theorem udpClientConnect_result (h : Coherent s) (hr : ¬ s.Registered o)
    (ht : s.udpClientConnect o sock = some t) : Result o s t := by
  obtain ⟨u, hu, ht⟩ := Option.bind_eq_some_iff.1 ht
  rcases sock with _ | fd
  · obtain ⟨hopen, -⟩ := openDescriptor_none_spec h hr hu
    exact hopen.trans (udpClientOnClose_result hopen.coherent ht)
  · exact openAdd_result h hr (f := fun c => { c with connected := true })
      (fun _ => rfl) (fun _ hm => hm) hu ht

theorem accept_new {fd : ℤ} (ht : s.accept o fd = some t) : (s.object o).accepted = false := by
  unfold accept at ht
  split_ifs at ht with hacc
  exact Bool.eq_false_iff.2 hacc

/-- An accepted connection is registered with a new descriptor, and in the server's set. -/
theorem accept_spec {fd : ℤ} (h : Coherent s) (hr : ¬ s.Registered o)
    (ht : s.accept o fd = some t) :
    Result o s t ∧ t.object o = { s.object o with
        fd := fd, accepted := true, descriptors := s.kernel.next :: (s.object o).descriptors } ∧
      t.Registered o ∧ o ∈ t.connections ∧ t.kernel.serial fd = some s.kernel.next := by
  unfold accept at ht
  split_ifs at ht
  obtain ⟨u, hu, ht⟩ := Option.bind_eq_some_iff.1 ht
  -- made, then opened, put into the set, and added to the loop
  have hmod := h.result_modify (o := o) (f := fun c => { c with accepted := true }) rfl fun _ => rfl
  have hmr : ¬ (s.modify o fun c => { c with accepted := true }).Registered o := by
    rwa [registered_modify (by rfl)]
  obtain ⟨hopen, hur, -, hob, -, hserial⟩ := openDescriptor_spec hmod.coherent hmr hu
  -- only the set’s entry for `o` changes
  have hinsert : ∀ k, k ≠ o → (k ∈ insert o u.connections ↔ k ∈ u.connections) := by
    intro k hk
    rw [Finset.mem_insert, or_iff_right hk]
  have hcon := hopen.coherent.setConnections (insert o u.connections)
  obtain ⟨hadd, hobj, hreg, hconn, hser⟩ := addChannel_spec hcon hur ht
  refine ⟨((hmod.trans hopen).trans ⟨hcon, .setConnections hinsert⟩).trans hadd, ?_, hreg, ?_, ?_⟩
  · rw [hobj]
    show u.object o = _
    rw [hob]
    simp
  · rw [hconn]
    exact Finset.mem_insert_self _ _
  · rw [hser]
    exact hserial

/-! ## Steps -/

/-- A connection object that has not been accepted is as it was constructed. -/
def Pristine (kind : ι → ChannelClass) (s : Reactor ι) : Prop :=
  ∀ o, kind o = .tcpConnection → (s.object o).accepted = false → s.object o = {}

omit [DecidableEq ι] in
theorem Pristine.frame (h : Pristine kind s) (hf : Frame o s t)
    (ho : kind o = .tcpConnection → (t.object o).accepted = true) : Pristine kind t := by
  intro k hk hacc
  by_cases hko : k = o
  · subst hko
    rw [ho hk] at hacc
    cases hacc
  · rw [hf.object k hko] at hacc ⊢
    exact h k hk hacc

omit [DecidableEq ι] in
theorem Pristine.not_registered (h : Pristine kind s) (hc : Coherent s)
    (hk : kind o = .tcpConnection) (hacc : (s.object o).accepted = false) : ¬ s.Registered o := by
  intro hr
  have hfd := hr.nonneg hc
  rw [h o hk hacc] at hfd
  exact absurd hfd (by decide)

/-- **What one step does.** -/
theorem step_result (h : Coherent s) (hp : Pristine kind s) (hu : s.Unregistered e)
    (ht : s.step kind e = some t) : Result (subject e) s t ∧ Pristine kind t := by
  -- a step about an object that has been made leaves it made
  have hmade : ∀ {o}, s.Made kind o → Result o s t → Result o s t ∧ Pristine kind t := by
    intro o ho hres
    exact ⟨hres, hp.frame hres.frame fun hk => hres.frame.made (ho hk)⟩
  have hother : ∀ {o}, kind o ≠ .tcpConnection → s.Made kind o := fun ho hk => absurd hk ho
  cases e with
  | accept o fd =>
    simp only [step] at ht
    split_ifs at ht with hk
    obtain ⟨hres, hob, -⟩ := accept_spec h (hp.not_registered h hk (accept_new ht)) ht
    have hacc' : (t.object o).accepted = true := by rw [hob]
    exact ⟨hres, hp.frame hres.frame fun _ => hacc'⟩
  | connect o sock answer =>
    simp only [step] at ht
    split at ht
    case h_1 hk => exact hmade (o := o) (hother (by simp [hk])) (clientConnect_result h hu ht)
    case h_2 hk => exact hmade (o := o) (hother (by simp [hk])) (udpClientConnect_result h hu ht)
    case h_3 => cases ht
  | start o sock =>
    simp only [step] at ht
    split at ht
    case h_1 hk => exact hmade (o := o) (hother (by simp [hk])) (udpServerOpen_result h hu ht)
    case h_2 hk => exact hmade (o := o) (hother (by simp [hk])) (acceptorOpen_result h hu ht)
    case h_3 => cases ht
  | stop o =>
    simp only [step] at ht
    split at ht
    case h_1 hk =>
      obtain ⟨u, hu, ht⟩ := Option.bind_eq_some_iff.1 ht
      have hrem := (removeChannel_spec h hu).1
      exact hmade (o := o) (hother (by simp [hk]))
        (hrem.trans (baseOnClose_result hrem.coherent ht))
    case h_2 hk => exact hmade (o := o) (hother (by simp [hk])) (removeChannel_spec h ht).1
    case h_3 => cases ht
  | handleEvent o revents fails sock =>
    simp only [step] at ht
    split_ifs at ht with hm
    exact hmade hm (onEvent_result h ht)
  | timeout o =>
    simp only [step] at ht
    split_ifs at ht with hm
    exact hmade hm.2 (onClose_result h ht)
  | forceClose o =>
    simp only [step] at ht
    split_ifs at ht with hm
    exact hmade hm.2 (onClose_result h ht)
  | finishClose o =>
    simp only [step] at ht
    refine hmade (fun hk => ?_) (finishClose_result h hu ht)
    -- nothing that is not made is being closed
    by_contra hacc
    rw [Bool.not_eq_true] at hacc
    simp [finishClose, hp o hk hacc] at ht

/-! ## Entries that are left behind -/

/-- The entry of `fd` is a channel that holds another descriptor, or none. -/
def Stale (fd : ℤ) (o : ι) (s : Reactor ι) : Prop :=
  s.channels fd = some o ∧ (s.object o).fd ≠ fd

omit [DecidableEq ι] in
theorem Stale.not_sound {fd : ℤ} (h : Stale fd o s) : ¬ s.Sound :=
  fun hs => h.2 (hs.1 fd o h.1).1

variable {fd : ℤ}

theorem Stale.modify {f : ChannelObject → ChannelObject} (h : Stale fd o s)
    (hf : (f (s.object o)).fd = (s.object o).fd) : Stale fd o (s.modify o f) := by
  refine ⟨h.1, ?_⟩
  rw [fd_modify hf]
  exact h.2

omit [DecidableEq ι] in
theorem Stale.addChannel (h : Stale fd o s) (ht : s.addChannel o = some t) : Stale fd o t := by
  simp only [Reactor.addChannel] at ht
  split at ht
  · cases ht
    exact h
  · obtain ⟨kernel, -, rfl⟩ := Option.map_eq_some_iff.1 ht
    exact ⟨by simp [h.2.symm, h.1], h.2⟩

omit [DecidableEq ι] in
theorem Stale.removeChannel (h : Stale fd o s) (ht : s.removeChannel o = some t) :
    Stale fd o t := by
  simp only [Reactor.removeChannel] at ht
  split at ht
  · cases ht
    exact h
  · obtain ⟨kernel, -, rfl⟩ := Option.map_eq_some_iff.1 ht
    exact ⟨by simp [h.2.symm, h.1], h.2⟩

theorem Stale.baseOnClose (h : Stale fd o s) (ht : s.baseOnClose o some = some t) :
    Stale fd o t := by
  unfold Reactor.baseOnClose at ht
  split_ifs at ht
  · cases ht
    exact h
  · cases ht
    exact h.modify rfl

theorem Stale.clientOnClose (h : Stale fd o s) (ht : s.clientOnClose o = some t) :
    Stale fd o t := by
  obtain ⟨u, hu, ht⟩ := Option.bind_eq_some_iff.1 ht
  have hrem : Stale fd o u := by
    split_ifs at hu
    · exact h.removeChannel hu
    · cases hu
      exact h
  have hmod : Stale fd o (u.modify o fun c => { c with status := .kTcpConStatusDisConnected }) :=
    hrem.modify rfl
  exact hmod.baseOnClose ht

theorem Stale.udpClientOnClose (h : Stale fd o s) (ht : s.udpClientOnClose o = some t) :
    Stale fd o t := by
  unfold Reactor.udpClientOnClose at ht
  split_ifs at ht
  · obtain ⟨u, hu, ht⟩ := Option.bind_eq_some_iff.1 ht
    have hmod : Stale fd o (u.modify o fun c => { c with connected := false }) :=
      (h.removeChannel hu).modify rfl
    exact hmod.baseOnClose ht
  · cases ht
    exact h

theorem openDescriptor_some {new : ℤ} (ht : s.openDescriptor o (some new) = some t) :
    s.kernel.Free new ∧ t.channels = s.channels ∧ (t.object o).fd = new := by
  simp only [openDescriptor] at ht
  split_ifs at ht with hfree
  cases ht
  exact ⟨hfree, rfl, by simp⟩

/-- A registered object gets another descriptor. -/
theorem stale_of_open (h : Coherent s) (hr : s.Registered o)
    (ht : s.openDescriptor o sock = some t) : Stale (s.object o).fd o t := by
  have hnonneg := hr.nonneg h
  rcases sock with _ | new
  · cases ht
    refine ⟨hr, ?_⟩
    simp only [object_modify, if_pos]
    omega
  · obtain ⟨hfree, hch, hfd⟩ := openDescriptor_some ht
    refine ⟨hch ▸ hr, ?_⟩
    -- the old descriptor is still open
    rw [hfd]
    rintro rfl
    exact hfree.2 (h.held o hnonneg)

theorem stale_clientConnect {answer : ConnectAnswer} (h : Coherent s) (hr : s.Registered o)
    (ht : s.clientConnect o sock answer = some t) : Stale (s.object o).fd o t := by
  obtain ⟨u, hu, ht⟩ := Option.bind_eq_some_iff.1 ht
  have hopen := stale_of_open h hr hu
  rcases sock with _ | new
  · exact hopen.clientOnClose ht
  · obtain ⟨v, hv, ht⟩ := Option.bind_eq_some_iff.1 ht
    obtain ⟨w, hw, ht⟩ := Option.bind_eq_some_iff.1 ht
    have hmod : Stale (s.object o).fd o
        (u.modify o fun c => { c with status := .kTcpConStatusConnecting }) := hopen.modify rfl
    have hadd := hmod.addChannel hv
    rw [updateChannel_eq hw] at ht
    split at ht
    · cases ht
      exact hadd.modify rfl
    · cases ht
      exact hadd
    · exact hadd.clientOnClose ht

theorem stale_udpServerOpen (h : Coherent s) (hr : s.Registered o)
    (ht : s.udpServerOpen o sock = some t) : Stale (s.object o).fd o t := by
  obtain ⟨u, hu, ht⟩ := Option.bind_eq_some_iff.1 ht
  have hopen := stale_of_open h hr hu
  rcases sock with _ | new
  · exact hopen.baseOnClose ht
  · exact hopen.addChannel ht

theorem stale_udpClientConnect (h : Coherent s) (hr : s.Registered o)
    (ht : s.udpClientConnect o sock = some t) : Stale (s.object o).fd o t := by
  obtain ⟨u, hu, ht⟩ := Option.bind_eq_some_iff.1 ht
  have hopen := stale_of_open h hr hu
  rcases sock with _ | new
  · exact hopen.udpClientOnClose ht
  · have hmod : Stale (s.object o).fd o (u.modify o fun c => { c with connected := true }) :=
      hopen.modify rfl
    exact hmod.addChannel ht

/-- `Channel::Close` of a registered object. -/
theorem stale_of_close (hr : s.Registered o) (hpos : 0 < (s.object o).fd) :
    Stale (s.object o).fd o (s.close o) := by
  unfold close
  rw [if_pos hpos]
  refine ⟨hr, ?_⟩
  simp only [object_modify, if_pos]
  omega

/-- A registered acceptor opens again: the kernel may give it the number that it has just
closed, and then its entry is not new. -/
theorem not_sound_acceptorOpen (h : Coherent s) (hr : s.Registered o)
    (ht : s.acceptorOpen o sock = some t) : ¬ t.Sound := by
  rcases sock with _ | new
  · cases ht
  obtain ⟨u, hu, ht⟩ := Option.bind_eq_some_iff.1 ht
  by_cases hpos : 0 < (s.object o).fd
  · have hclose := stale_of_close hr hpos
    obtain ⟨-, hch, hfd⟩ := openDescriptor_some hu
    by_cases hnew : new = (s.object o).fd
    · have hent : u.channels (u.object o).fd = some o := by rw [hch, hfd, hnew, hclose.1]
      intro hsound
      simp only [addChannel, hent] at ht
      cases ht
      exact absurd hsound.2 (Nat.succ_ne_zero _)
    · have hopen : Stale (s.object o).fd o u := ⟨hch ▸ hclose.1, by rwa [hfd]⟩
      exact (hopen.addChannel ht).not_sound
  · have hclose : s.close o = s := by
      unfold close
      rw [if_neg hpos]
    rw [hclose] at hu
    exact ((stale_of_open h hr hu).addChannel ht).not_sound

/-- **A step that is not orderly leaves an entry behind**, or an `AddChannel` finds one. -/
theorem not_sound_of_registered (h : Coherent s) (hu : ¬ s.Unregistered e)
    (ht : s.step kind e = some t) : ¬ t.Sound := by
  cases e with
  | connect o sock answer =>
    have hr : s.Registered o := not_not.1 hu
    simp only [step] at ht
    split at ht
    · exact (stale_clientConnect h hr ht).not_sound
    · exact (stale_udpClientConnect h hr ht).not_sound
    · cases ht
  | start o sock =>
    have hr : s.Registered o := not_not.1 hu
    simp only [step] at ht
    split at ht
    · exact (stale_udpServerOpen h hr ht).not_sound
    · exact not_sound_acceptorOpen h hr ht
    · cases ht
  | finishClose o =>
    simp only [Unregistered, not_forall, not_not] at hu
    obtain ⟨hpos, hr⟩ := hu
    simp only [step, finishClose] at ht
    split_ifs at ht
    cases ht
    have hstale := (stale_of_close hr hpos).modify (f := fun c => { c with closing := false }) rfl
    exact hstale.not_sound
  | _ => exact absurd trivial hu

/-! ## The entries of a run -/

omit [DecidableEq ι] in
theorem pristine_init : Pristine kind (init : Reactor ι) := fun _ _ _ => rfl

/-- **The entries of `channels_` are sound all along a run exactly if its steps are
orderly.** -/
theorem entries_sound_iff (kind : ι → ChannelClass) (es : List (ReactorStep ι)) :
    Passes (step kind) Sound init es ↔ Meets (step kind) (Orderly kind) init es := by
  refine passes_iff_meets (fun s => Coherent s ∧ Pristine kind s) (fun s hs => hs.1.sound) ?_ ?_
    ⟨coherent_init, pristine_init⟩
  · rintro s e t ⟨hc, hp⟩ hord ht
    obtain ⟨hres, hp'⟩ := step_result hc hp (hord (by rw [ht]; rfl)) ht
    exact ⟨hres.coherent, hp'⟩
  · rintro s e ⟨hc, -⟩ hord
    obtain ⟨hsome, hu⟩ := Classical.not_imp.1 hord
    obtain ⟨t, ht⟩ := Option.isSome_iff_exists.1 hsome
    exact ⟨t, ht, not_sound_of_registered hc hu ht⟩

/-- A UDP server that meets an error: its descriptor is closed, its entry stays, and the next
connection that gets the number is not registered. -/
theorem entries_unsound : ¬ ∀ (kind : Bool → ChannelClass) (es : List (ReactorStep Bool)),
    Passes (step kind) Sound init es := by
  intro h
  obtain ⟨kind, es, t, ht, hskip⟩ : ∃ kind es t, run (step kind) (init : Reactor Bool) es = some t ∧
      t.skipped = 1 :=
    ⟨fun o => if o then .udpServer else .tcpConnection,
      [.start true (some 5), .handleEvent true {.epollerr} false none, .finishClose true,
        .accept false 5], _, rfl, rfl⟩
  have hsound := h kind es es.length t (by rwa [List.take_length])
  rw [hsound.2] at hskip
  cases hskip

end Reactor

end HttpNest
