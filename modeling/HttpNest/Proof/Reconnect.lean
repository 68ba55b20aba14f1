import HttpNest.Proof.ChannelEntries

/-!
# Clients that connect again

A `TcpClient` goes through four phases (`Phase`), and what it has opened is accounted for in
each of them (`Phase.accounted`). `ConnectInLoop` belongs to the first phase only: it
overwrites `fd_`, and `isClosed_`, which `OnClose` of the base class has set, is never reset.
`Channel::Close` belongs to the third, but keeps the descriptor `0`. `Tidy` is that
condition.

* `Phase.step`: a step about a client that meets the condition takes it from phase to phase.
* `not_accounted_of_not_tidy`: a step that does not loses a descriptor, or leaves a client
  that is connecting and closed.
* `clients_accounted_iff`: so the condition is exact for the runs of any number of clients.
-/

namespace HttpNest

open EventRun

namespace Reactor

variable {ι : Type*} {s t u : Reactor ι} {o : ι} {sock : Option ℤ} {answer : ConnectAnswer}

/-- The client is connecting or connected. -/
def Up (s : Reactor ι) (o : ι) : Prop :=
  (s.object o).status = .kTcpConStatusConnecting ∨ (s.object o).status = .kTcpConStatusConnected

/-- The status tells whether the client is open and registered, and every descriptor that it has
opened is its own or has been closed once. A client that is `closing` is inside `OnClose`. -/
structure Accounted (s : Reactor ι) (o : ι) : Prop where
  status : s.Up o ↔ (s.object o).isClosed = false ∧ s.Registered o
  descriptors : ∀ n ∈ (s.object o).descriptors,
    (s.kernel.serial (s.object o).fd = some n ∧
      ((s.object o).isClosed = false ∨ (s.object o).closing = true)) ∨ s.kernel.closes n = 1

/-- A client that has not been used, that is up, that is inside `OnClose`, and that has been
closed. -/
inductive Phase (s : Reactor ι) (o : ι) : Prop
  | new (object : s.object o = {})
  | up (n : ℕ) (up : s.Up o) (isClosed : (s.object o).isClosed = false)
      (closing : (s.object o).closing = false) (registered : s.Registered o)
      (descriptors : (s.object o).descriptors = [n])
      (serial : s.kernel.serial (s.object o).fd = some n)
  | closing (status : (s.object o).status = .kTcpConStatusDisConnected)
      (isClosed : (s.object o).isClosed = true) (closing : (s.object o).closing = true)
      (registered : ¬ s.Registered o)
      (descriptors : ((s.object o).fd = -1 ∧ (s.object o).descriptors = []) ∨
        ∃ n, (s.object o).descriptors = [n] ∧ s.kernel.serial (s.object o).fd = some n)
  | closed (status : (s.object o).status = .kTcpConStatusDisConnected)
      (isClosed : (s.object o).isClosed = true) (closing : (s.object o).closing = false)
      (registered : ¬ s.Registered o) (fd : (s.object o).fd = -1)
      (descriptors : ∀ n ∈ (s.object o).descriptors, s.kernel.closes n = 1)

theorem not_up_of_disConnected (h : (s.object o).status = .kTcpConStatusDisConnected) :
    ¬ s.Up o := by
  rw [Up, h]
  exact nofun

theorem not_registered_of_fd (h : Coherent s) (hfd : (s.object o).fd = -1) :
    ¬ s.Registered o := by
  intro hr
  have hnonneg := hr.nonneg h
  rw [hfd] at hnonneg
  exact absurd hnonneg (by decide)

theorem Phase.accounted (h : Phase s o) (hc : Coherent s) : Accounted s o := by
  cases h with
  | new hob =>
    have hr : ¬ s.Registered o := not_registered_of_fd hc (by rw [hob])
    constructor
    · simp [Up, hob, hr]
    · simp [hob]
  | up n hup hcl _ hr hd hs =>
    refine ⟨iff_of_true hup ⟨hcl, hr⟩, fun m hm => ?_⟩
    -- its one descriptor is the current one
    rw [hd, List.mem_singleton] at hm
    exact .inl ⟨by rw [hs, hm], .inl hcl⟩
  | closing hst hcl hclosing hr hd =>
    refine ⟨iff_of_false (not_up_of_disConnected hst) fun h => hr h.2, fun m hm => ?_⟩
    rcases hd with ⟨-, hd⟩ | ⟨n, hd, hs⟩
    · rw [hd] at hm
      cases hm
    · rw [hd, List.mem_singleton] at hm
      exact .inl ⟨by rw [hs, hm], .inr hclosing⟩
  | closed hst hcl hclosing hr hfd hd =>
    exact ⟨iff_of_false (not_up_of_disConnected hst) fun h => hr h.2, fun m hm => .inr (hd m hm)⟩

/-- A step about another object leaves the client in its phase. -/
theorem Phase.frame {k : ι} (h : Phase s k) (hc : Coherent s) (hf : Frame o s t) (hko : k ≠ o) :
    Phase t k := by
  have hob := hf.object k hko
  have hr := hf.registered k hko
  -- nobody else closes the descriptor of `k`
  have hserial : ∀ n, s.kernel.serial (s.object k).fd = some n →
      t.kernel.serial (s.object k).fd = some n := by
    intro n hs
    rw [hf.serial k hko (hc.kernel.nonneg _ (Descriptors.isOpen_iff.2 ⟨n, hs⟩)), hs]
  cases h with
  | new h => exact .new (hob.trans h)
  | up n hup hcl hclosing hreg hd hs =>
    exact .up n (by rwa [Up, hob]) (by rwa [hob]) (by rwa [hob]) (hr.2 hreg) (by rwa [hob])
      (by rw [hob, hserial n hs])
  | closing hst hcl hclosing hreg hd =>
    refine .closing (by rwa [hob]) (by rwa [hob]) (by rwa [hob]) (hr.not.2 hreg) ?_
    rw [hob]
    rcases hd with hd | ⟨n, hd, hs⟩
    · exact .inl hd
    · exact .inr ⟨n, hd, hserial n hs⟩
  | closed hst hcl hclosing hreg hfd hd =>
    refine .closed (by rwa [hob]) (by rwa [hob]) (by rwa [hob]) (hr.not.2 hreg) (by rwa [hob]) ?_
    rw [hob]
    exact fun n hn => hf.closed n (hd n hn)

/-! ## `OnClose` -/

variable [DecidableEq ι]

theorem clientOnClose_spec (h : Coherent s) (hr : s.Registered o → s.Up o)
    (ht : s.clientOnClose o = some t) :
    t.object o = { s.object o with
        status := .kTcpConStatusDisConnected
        isClosed := true
        closing := (s.object o).closing || !(s.object o).isClosed } ∧
      ¬ t.Registered o ∧ t.kernel.serial = s.kernel.serial := by
  obtain ⟨u, hu, ht⟩ := Option.bind_eq_some_iff.1 ht
  obtain ⟨huob, hur, hserial⟩ : u.object = s.object ∧ ¬ u.Registered o ∧
      u.kernel.serial = s.kernel.serial := by
    split_ifs at hu with hup
    · obtain ⟨-, hob, hreg, -, hserial⟩ := removeChannel_spec h hu
      exact ⟨hob, hreg, hserial⟩
    · cases hu
      exact ⟨rfl, fun hreg => hup (hr hreg), rfl⟩
  -- neither the status nor the two flags matter for the registration
  unfold baseOnClose at ht
  split_ifs at ht with hcl
  · cases ht
    rw [object_modify, if_pos rfl, huob] at hcl ⊢
    refine ⟨?_, by rwa [registered_modify (by rfl)], hserial⟩
    simp only at hcl
    simp [hcl]
  · cases ht
    rw [object_modify, if_pos rfl, huob] at hcl
    refine ⟨?_, ?_, hserial⟩
    · simp only [Bool.not_eq_true] at hcl
      simp [huob, hcl]
    · rwa [registered_modify (by rfl), registered_modify (by rfl)]

theorem Phase.onClose (h : Phase s o) (hc : Coherent s) (ht : s.clientOnClose o = some t) :
    Phase t o := by
  have hreg : s.Registered o → s.Up o := by
    intro hr
    cases h with
    | new hob => exact absurd hr (not_registered_of_fd hc (by rw [hob]))
    | up n hup => exact hup
    | closing _ _ _ hnr => exact absurd hr hnr
    | closed _ _ _ hnr => exact absurd hr hnr
  -- the descriptor stays open until `Channel::Close`
  obtain ⟨hob, hr, hserial⟩ := clientOnClose_spec hc hreg ht
  have hclosed := (clientOnClose_result hc ht).frame.closed
  cases h with
  | new h =>
    rw [h] at hob
    exact .closing (by rw [hob]) (by rw [hob]) (by rw [hob]; rfl) hr (.inl (by simp [hob]))
  | up n _ hcl _ _ hd hs =>
    refine .closing (by rw [hob]) (by rw [hob]) (by simp [hob, hcl]) hr (.inr ⟨n, ?_, ?_⟩)
    · rw [hob, hd]
    · rw [hob, hserial, hs]
  | closing _ _ hclosing _ hd =>
    refine .closing (by rw [hob]) (by rw [hob]) (by simp [hob, hclosing]) hr ?_
    rw [hob, hserial]
    exact hd
  | closed _ hcl hclosing _ hfd hd =>
    refine .closed (by rw [hob]) (by rw [hob]) (by simp [hob, hclosing, hcl]) hr ?_ ?_
    · rw [hob, hfd]
    · rw [hob]
      exact fun m hm => hclosed m (hd m hm)

theorem Phase.finishClose (h : Phase s o) (hc : Coherent s) (hfd : (s.object o).fd ≠ 0)
    (ht : s.finishClose o = some t) : Phase t o := by
  have hcg := finishClose_closing ht
  cases h with
  | new h =>
    rw [h] at hcg
    cases hcg
  | up n _ _ hclosing =>
    rw [hclosing] at hcg
    cases hcg
  | closed _ _ hclosing =>
    rw [hclosing] at hcg
    cases hcg
  | closing hst hcl _ hr hd =>
    obtain ⟨hob, htr, -, hcloses⟩ := finishClose_spec hc hr ht
    -- `Close` tests `fd_ > 0`, which is enough as the descriptor is not `0`
    have hdesc : (s.object o).fd = -1 ∧ (s.object o).descriptors = [] ∨ 0 < (s.object o).fd ∧
        ∃ n, (s.object o).descriptors = [n] ∧ s.kernel.serial (s.object o).fd = some n := by
      rcases hd with hd | ⟨n, hd, hs⟩
      · exact .inl hd
      · have := hc.kernel.nonneg _ (Descriptors.isOpen_iff.2 ⟨n, hs⟩)
        exact .inr ⟨by omega, n, hd, hs⟩
    refine .closed ?_ ?_ ?_ htr ?_ ?_
    · rw [hob, hst]
    · rw [hob, hcl]
    · rw [hob]
    · rw [hob]
      rcases hdesc with ⟨hneg, -⟩ | ⟨hpos, -⟩
      · simp [hneg]
      · simp [hpos]
    · rw [hob]
      rcases hdesc with ⟨-, hd⟩ | ⟨hpos, n, hd, hs⟩
      · simp [hd]
      · simpa [hd] using hcloses n hs hpos

/-! ## `ConnectInLoop` -/

/-- The outcomes after which the client stays open. -/
def Kept (answer : ConnectAnswer) : Prop := answer = .connected ∨ answer = .inProgress

/-- Without a descriptor, and without one before, nothing but `OnClose` happens. -/
theorem clientConnect_none (hfd : (s.object o).fd = -1) :
    s.clientConnect o none answer = s.clientOnClose o := by
  have hsame : (s.modify o fun c => { c with fd := -1 }) = s := by
    have hob : { s.object o with fd := -1 } = s.object o := by rw [← hfd]
    simp only [modify, hob, Function.update_eq_self]
  simp [clientConnect, openDescriptor, hsame]

/-- A client that is not registered connects. -/
theorem clientConnect_spec {fd : ℤ} (h : Coherent s) (hr : ¬ s.Registered o)
    (ht : s.clientConnect o (some fd) answer = some t) :
    ∃ n, t.kernel.serial fd = some n ∧ (t.object o).fd = fd ∧
      (t.object o).descriptors = n :: (s.object o).descriptors ∧
      (Kept answer → t.Up o ∧ t.Registered o ∧
        (t.object o).isClosed = (s.object o).isClosed ∧
        (t.object o).closing = (s.object o).closing) ∧
      (¬ Kept answer → (t.object o).status = .kTcpConStatusDisConnected ∧ ¬ t.Registered o ∧
        (t.object o).isClosed = true ∧
        (t.object o).closing = ((s.object o).closing || !(s.object o).isClosed)) := by
  obtain ⟨u, hu, ht⟩ := Option.bind_eq_some_iff.1 ht
  obtain ⟨v, hv, ht⟩ := Option.bind_eq_some_iff.1 ht
  obtain ⟨w, hw, ht⟩ := Option.bind_eq_some_iff.1 ht
  -- `fd_` is the new descriptor, and `AddChannel` registers it
  obtain ⟨hopen, hur, -, huob, -, hserial⟩ := openDescriptor_spec h hr hu
  have hmod := hopen.coherent.result_modify (o := o)
    (f := fun c => { c with status := .kTcpConStatusConnecting }) rfl fun hm => hm
  have hmr : ¬ (u.modify o fun c => { c with status := .kTcpConStatusConnecting }).Registered o :=
    by rwa [registered_modify (by rfl)]
  obtain ⟨hadd, hvob, hvr, -, hvserial⟩ := addChannel_spec hmod.coherent hmr hv
  have hv : v.object o = { s.object o with
      fd := fd
      descriptors := s.kernel.next :: (s.object o).descriptors
      status := .kTcpConStatusConnecting } := by
    rw [hvob, object_modify, if_pos rfl, huob]
  have hvs : v.kernel.serial fd = some s.kernel.next := by rw [hvserial]; exact hserial
  rw [updateChannel_eq hw] at ht
  refine ⟨s.kernel.next, ?_⟩
  split at ht
  case h_1 =>
    cases ht
    refine ⟨hvs, by simp [hv], by simp [hv],
      fun _ => ⟨.inr (by simp), ?_, by simp [hv], by simp [hv]⟩, fun hk => absurd (.inl rfl) hk⟩
    rwa [registered_modify (by rfl)]
  case h_2 =>
    cases ht
    exact ⟨hvs, by rw [hv], by rw [hv], fun _ => ⟨.inl (by rw [hv]), hvr, by rw [hv], by rw [hv]⟩,
      fun hk => absurd (.inr rfl) hk⟩
  case h_3 h1 h2 =>
    -- `connect` fails at once, and `OnClose` takes the registration back
    obtain ⟨htob, htr, htserial⟩ :=
      clientOnClose_spec hadd.coherent (fun _ => .inl (by rw [hv])) ht
    rw [hv] at htob
    refine ⟨by rw [htserial, hvs], by rw [htob], by rw [htob], fun hk => ?_,
      fun _ => ⟨by rw [htob], htr, by rw [htob], by rw [htob]⟩⟩
    rcases hk with hk | hk
    · exact absurd hk h1
    · exact absurd hk h2

/-- The first `Connect` of a client. -/
theorem clientConnect_new (h : Coherent s) (hob : s.object o = {})
    (ht : s.clientConnect o sock answer = some t) : Phase t o := by
  have hr : ¬ s.Registered o := not_registered_of_fd h (by rw [hob])
  rcases sock with _ | fd
  · rw [clientConnect_none (by rw [hob])] at ht
    exact (Phase.new hob).onClose h ht
  · obtain ⟨n, hs, hfd, hd, hkept, hlost⟩ := clientConnect_spec h hr ht
    rw [hob] at hd hkept hlost
    rw [← hfd] at hs
    by_cases hk : Kept answer
    · obtain ⟨hup, htr, hcl, hclosing⟩ := hkept hk
      exact .up n hup hcl hclosing htr hd hs
    · obtain ⟨hst, htr, hcl, hclosing⟩ := hlost hk
      exact .closing hst hcl hclosing htr (.inr ⟨n, hd, hs⟩)

/-! ## Steps -/

/-- `Connect` finds a client that has not been used. It may also find one without a
descriptor, and get none, or, in the callback of a close, get one that is closed behind
it. A client that is closed does not hold the descriptor `0`. -/
def Tidy (s : Reactor ι) (e : ReactorStep ι) : Prop :=
  (s.step (fun _ => .tcpClient) e).isSome →
    match e with
    | .connect o sock answer => (s.object o).status = .kTcpConStatusInit ∨
        (s.object o).fd = -1 ∧ (sock = none ∨ (s.object o).closing = true ∧ ¬ Kept answer)
    | .finishClose o => (s.object o).fd ≠ 0
    | _ => True

theorem Phase.connect (h : Phase s o) (hc : Coherent s)
    (htidy : (s.object o).status = .kTcpConStatusInit ∨
      (s.object o).fd = -1 ∧ (sock = none ∨ (s.object o).closing = true ∧ ¬ Kept answer))
    (ht : s.clientConnect o sock answer = some t) : Phase t o := by
  rcases htidy with hst | ⟨hfd, rfl | ⟨hclosing, hk⟩⟩
  · cases h with
    | new hob => exact clientConnect_new hc hob ht
    | up n hup => exact absurd hup (by simp [Up, hst])
    | closing hdis => cases hst.symm.trans hdis
    | closed hdis => cases hst.symm.trans hdis
  · rw [clientConnect_none hfd] at ht
    exact h.onClose hc ht
  · have hr := not_registered_of_fd hc hfd
    rcases sock with _ | fd
    · rw [clientConnect_none hfd] at ht
      exact h.onClose hc ht
    obtain ⟨n, hs, htfd, htd, -, hlost⟩ := clientConnect_spec hc hr ht
    obtain ⟨hst, htr, hcl, hcg⟩ := hlost hk
    rw [← htfd] at hs
    -- the first attempt had no descriptor
    have hd : (s.object o).descriptors = [] := by
      cases h with
      | new hob => rw [hob]
      | up n _ _ hnot => rw [hnot] at hclosing; cases hclosing
      | closed _ _ hnot => rw [hnot] at hclosing; cases hclosing
      | closing _ _ _ _ hd =>
        rcases hd with ⟨-, hd⟩ | ⟨m, -, hm⟩
        · exact hd
        · have := hc.kernel.nonneg _ (Descriptors.isOpen_iff.2 ⟨m, hm⟩)
          omega
    exact .closing hst hcl (by simp [hcg, hclosing]) htr (.inr ⟨n, by rw [htd, hd], hs⟩)

/-- **What a step that meets the condition does with its client.** -/
theorem Phase.step {e : ReactorStep ι} (h : Phase s (subject e)) (hc : Coherent s)
    (htidy : s.Tidy e) (ht : s.step (fun _ => .tcpClient) e = some t) : Phase t (subject e) := by
  have htidy := htidy (by rw [ht]; rfl)
  cases e with
  | accept o fd => cases ht
  | start o sock => cases ht
  | stop o => cases ht
  | connect o sock answer => exact h.connect hc htidy ht
  | finishClose o => exact h.finishClose hc htidy ht
  | timeout o =>
    simp only [Reactor.step] at ht
    split_ifs at ht
    exact h.onClose hc ht
  | forceClose o =>
    simp only [Reactor.step] at ht
    split_ifs at ht
    exact h.onClose hc ht
  | handleEvent o revents fails sock =>
    simp only [Reactor.step] at ht
    split_ifs at ht
    rcases onEvent_cases ht with hcl | rfl | ⟨-, hst, rfl⟩
    · exact h.onClose hc hcl
    · exact h
    · rw [subject] at h ⊢
      -- `OnWrite` finds that it has connected, which only a client that is up can
      cases h with
      | new hob => simp [hob] at hst
      | closing hdis => cases hst.symm.trans hdis
      | closed hdis => cases hst.symm.trans hdis
      | up n _ hcl hclosing hr hd hs =>
        refine .up n (.inr (by simp)) (by simp [hcl]) (by simp [hclosing]) ?_ (by simp [hd]) ?_
        · rwa [registered_modify (by rfl)]
        · rw [fd_modify rfl]
          exact hs

/-- A step that meets the condition opens and closes no descriptor of a registered client. -/
theorem Tidy.unregistered {e : ReactorStep ι} (h : s.Tidy e) (hc : Coherent s)
    (hp : Phase s (subject e)) (hsome : (s.step (fun _ => .tcpClient) e).isSome) :
    s.Unregistered e := by
  have htidy := h hsome
  cases e with
  | connect o sock answer =>
    rcases htidy with hst | ⟨hfd, -⟩
    · cases hp with
      | new hob => exact not_registered_of_fd hc (by rw [subject] at hob; rw [hob])
      | up n hup => exact absurd hup (by simp [Up, hst, subject])
      | closing _ _ _ hr => exact hr
      | closed _ _ _ hr => exact hr
    · exact not_registered_of_fd hc hfd
  | finishClose o =>
    intro _
    obtain ⟨t, ht⟩ := Option.isSome_iff_exists.1 hsome
    have hclosing := finishClose_closing ht
    rw [subject] at hp
    cases hp with
    | new hob => exact not_registered_of_fd hc (by rw [hob])
    | up n _ _ hnot =>
      rw [hclosing] at hnot
      cases hnot
    | closing _ _ _ hr => exact hr
    | closed _ _ _ hr => exact hr
  | start o sock => cases hsome
  | _ => trivial

/-! ## Descriptors that are lost -/

/-- The object has opened `n`, which is still open under a number that it does not hold. -/
structure Lost (n : ℕ) (o : ι) (s : Reactor ι) : Prop where
  kernel : s.kernel.Ok
  serial : ∃ fd, s.kernel.serial fd = some n ∧ (s.object o).fd ≠ fd
  mem : n ∈ (s.object o).descriptors

variable {n : ℕ}

omit [DecidableEq ι] in
theorem Lost.not_accounted (h : Lost n o s) : ¬ Accounted s o := by
  intro hacc
  obtain ⟨fd, hs, hne⟩ := h.serial
  rcases hacc.descriptors n h.mem with ⟨hfd, -⟩ | hclosed
  · exact hne (h.kernel.inj _ _ n hfd hs)
  · rw [h.kernel.unclosed n (.inr ⟨fd, hs⟩)] at hclosed
    cases hclosed

theorem Lost.modify {f : ChannelObject → ChannelObject} (h : Lost n o s)
    (hf : (f (s.object o)).fd = (s.object o).fd)
    (hd : (f (s.object o)).descriptors = (s.object o).descriptors) : Lost n o (s.modify o f) where
  kernel := h.kernel
  serial := by
    rw [fd_modify hf]
    exact h.serial
  mem := by
    rw [object_modify, if_pos rfl, hd]
    exact h.mem

omit [DecidableEq ι] in
theorem Lost.addChannel (h : Lost n o s) (ht : s.addChannel o = some t) : Lost n o t := by
  simp only [Reactor.addChannel] at ht
  split at ht
  · cases ht
    exact ⟨h.kernel, h.serial, h.mem⟩
  · obtain ⟨kernel, hk, rfl⟩ := Option.map_eq_some_iff.1 ht
    have hok := h.kernel.ctlAdd hk
    obtain ⟨-, -, rfl⟩ := Descriptors.ctlAdd_eq_some.1 hk
    exact ⟨hok, h.serial, h.mem⟩

omit [DecidableEq ι] in
theorem Lost.removeChannel (h : Lost n o s) (ht : s.removeChannel o = some t) : Lost n o t := by
  simp only [Reactor.removeChannel] at ht
  split at ht
  · cases ht
    exact h
  · obtain ⟨kernel, hk, rfl⟩ := Option.map_eq_some_iff.1 ht
    have hok := h.kernel.ctlDel hk
    obtain ⟨-, rfl⟩ := Descriptors.ctlDel_eq_some.1 hk
    exact ⟨hok, h.serial, h.mem⟩

theorem Lost.clientOnClose (h : Lost n o s) (ht : s.clientOnClose o = some t) : Lost n o t := by
  obtain ⟨u, hu, ht⟩ := Option.bind_eq_some_iff.1 ht
  have hrem : Lost n o u := by
    split_ifs at hu
    · exact h.removeChannel hu
    · cases hu
      exact h
  have hmod : Lost n o (u.modify o fun c => { c with status := .kTcpConStatusDisConnected }) :=
    hrem.modify rfl rfl
  unfold baseOnClose at ht
  split_ifs at ht
  · cases ht
    exact hmod
  · cases ht
    exact hmod.modify rfl rfl

/-- `ConnectInLoop` of a client that holds a descriptor. -/
theorem lost_clientConnect (h : Coherent s) (hs : s.kernel.serial (s.object o).fd = some n)
    (hd : n ∈ (s.object o).descriptors) (ht : s.clientConnect o sock answer = some t) :
    Lost n o t := by
  have hnonneg := h.kernel.nonneg _ (Descriptors.isOpen_iff.2 ⟨n, hs⟩)
  obtain ⟨u, hu, ht⟩ := Option.bind_eq_some_iff.1 ht
  rcases sock with _ | new
  · cases hu
    have hopen : Lost n o (s.modify o fun c => { c with fd := -1 }) := by
      refine ⟨h.kernel, ⟨_, hs, ?_⟩, by simpa using hd⟩
      simp only [object_modify, if_pos]
      omega
    exact hopen.clientOnClose ht
  · obtain ⟨v, hv, ht⟩ := Option.bind_eq_some_iff.1 ht
    obtain ⟨w, hw, ht⟩ := Option.bind_eq_some_iff.1 ht
    have hopen : Lost n o u := by
      simp only [openDescriptor] at hu
      split_ifs at hu with hfree
      cases hu
      -- the old descriptor is still open, so the new one has another number
      have hne : (s.object o).fd ≠ new := by
        rintro rfl
        exact hfree.2 (Descriptors.isOpen_iff.2 ⟨n, hs⟩)
      refine ⟨h.kernel.opened hfree, ⟨(s.object o).fd, ?_, ?_⟩, ?_⟩
      · rw [Descriptors.serial_opened, if_neg hne, hs]
      · simpa using hne.symm
      · simp [hd]
    have hmod : Lost n o (u.modify o fun c => { c with status := .kTcpConStatusConnecting }) :=
      hopen.modify rfl rfl
    have hadd := hmod.addChannel hv
    rw [updateChannel_eq hw] at ht
    split at ht
    · cases ht
      exact hadd.modify rfl rfl
    · cases ht
      exact hadd
    · exact hadd.clientOnClose ht

/-- A client that has been closed opens a descriptor again, and nothing will close it; or it
is connecting and closed. -/
theorem not_accounted_of_reopen {fd : ℤ} (h : Coherent s) (hr : ¬ s.Registered o)
    (hcl : (s.object o).isClosed = true)
    (hnot : (s.object o).closing = false ∨ Kept answer)
    (ht : s.clientConnect o (some fd) answer = some t) : ¬ Accounted t o := by
  intro hacc
  have hok : t.kernel.Ok := (clientConnect_result h hr ht).coherent.kernel
  obtain ⟨n, hs, htfd, hd, hkept, hlost⟩ := clientConnect_spec h hr ht
  by_cases hk : Kept answer
  · obtain ⟨hup, -, htcl, -⟩ := hkept hk
    rw [hcl] at htcl
    have := (hacc.status.1 hup).1
    rw [htcl] at this
    cases this
  · obtain ⟨-, -, htcl, hclosing⟩ := hlost hk
    rw [hcl, hnot.resolve_right hk] at hclosing
    rcases hacc.descriptors n (by simp [hd]) with ⟨-, hopen | hcg⟩ | hclosed
    · rw [htcl] at hopen
      cases hopen
    · rw [hclosing] at hcg
      cases hcg
    · rw [hok.unclosed n (.inr ⟨fd, hs⟩)] at hclosed
      cases hclosed

/-- **Behind a step that does not meet the condition the client is not accounted for.** -/
theorem not_accounted_of_not_tidy {e : ReactorStep ι} (h : Coherent s)
    (hp : Phase s (subject e)) (htidy : ¬ s.Tidy e) :
    ∃ t, s.step (fun _ => .tcpClient) e = some t ∧ ¬ Accounted t (subject e) := by
  obtain ⟨hsome, hnot⟩ := Classical.not_imp.1 htidy
  obtain ⟨t, ht⟩ := Option.isSome_iff_exists.1 hsome
  refine ⟨t, ht, ?_⟩
  cases e with
  | connect o sock answer =>
    obtain ⟨hst, hfd⟩ := not_or.1 hnot
    rw [subject] at hp ⊢
    cases hp with
    | new hob => exact absurd (by rw [hob]) hst
    | up n _ _ _ _ hd hs => exact (lost_clientConnect h hs (by simp [hd]) ht).not_accounted
    | closing _ hcl hclosing hr hd =>
      rcases hd with ⟨hneg, -⟩ | ⟨n, hd, hs⟩
      · have hnone : ¬ (sock = none ∨ (s.object o).closing = true ∧ ¬ Kept answer) :=
          fun hsock => hfd ⟨hneg, hsock⟩
        obtain ⟨hsock, hk⟩ := not_or.1 hnone
        obtain ⟨fd, rfl⟩ := Option.ne_none_iff_exists'.1 hsock
        have hk : Kept answer := by
          by_contra hno
          exact hk ⟨hclosing, hno⟩
        exact not_accounted_of_reopen h hr hcl (.inr hk) ht
      · exact (lost_clientConnect h hs (by simp [hd]) ht).not_accounted
    | closed _ hcl hclosing hr hneg hd =>
      have hsock : sock ≠ none := fun hsock => hfd ⟨hneg, .inl hsock⟩
      obtain ⟨fd, rfl⟩ := Option.ne_none_iff_exists'.1 hsock
      exact not_accounted_of_reopen h hr hcl (.inl hclosing) ht
  | finishClose o =>
    have hzero : (s.object o).fd = 0 := not_not.1 hnot
    rw [subject] at hp ⊢
    have hclosing := finishClose_closing ht
    simp only [Reactor.step, finishClose, if_pos hclosing] at ht
    cases ht
    -- `Channel::Close` does nothing
    have hclose : s.close o = s := by
      unfold close
      rw [if_neg (by omega)]
    rw [hclose]
    cases hp with
    | new hob =>
      rw [hob] at hclosing
      cases hclosing
    | up n _ _ hno =>
      rw [hno] at hclosing
      cases hclosing
    | closed _ _ hno =>
      rw [hno] at hclosing
      cases hclosing
    | closing _ hcl _ _ hd =>
      rcases hd with ⟨hneg, -⟩ | ⟨n, hd, hs⟩
      · omega
      · intro hacc
        rcases hacc.descriptors n (by simp [hd]) with ⟨-, hopen⟩ | hclosed
        · simp [hcl] at hopen
        · rw [kernel_modify, h.kernel.unclosed n (.inr ⟨_, hs⟩)] at hclosed
          cases hclosed
  | _ => exact absurd trivial hnot

/-! ## Runs -/

/-- The run invariant of a loop whose channels are clients. -/
structure Clients (s : Reactor ι) : Prop where
  coherent : Coherent s
  phase : ∀ o, Phase s o

theorem Clients.step {e : ReactorStep ι} (h : Clients s) (htidy : s.Tidy e)
    (ht : s.step (fun _ => .tcpClient) e = some t) : Clients t := by
  have hu := htidy.unregistered h.coherent (h.phase _) (by rw [ht]; rfl)
  have hp : Pristine (fun _ => .tcpClient) s := fun o hk => nomatch hk
  obtain ⟨hres, -⟩ := step_result h.coherent hp hu ht
  refine ⟨hres.coherent, fun o => ?_⟩
  by_cases ho : o = subject e
  · rw [ho]
    exact (h.phase _).step h.coherent htidy ht
  · exact (h.phase o).frame h.coherent hres.frame ho

/-- **The clients of a loop are accounted for all along a run exactly if its steps meet the
condition.** -/
theorem clients_accounted_iff (es : List (ReactorStep ι)) :
    Passes (step fun _ => .tcpClient) (fun s => ∀ o, Accounted s o) init es ↔
      Meets (step fun _ => .tcpClient) Tidy init es := by
  refine passes_iff_meets Clients (fun s hs o => (hs.phase o).accounted hs.coherent)
    (fun s e t hs htidy ht => hs.step htidy ht) (fun s e hs htidy => ?_)
    ⟨coherent_init, fun _ => .new rfl⟩
  obtain ⟨t, ht, hnot⟩ := not_accounted_of_not_tidy hs.coherent (hs.phase _) htidy
  exact ⟨t, ht, fun hacc => hnot (hacc _)⟩

/-- A client that is closed by its peer connects again: it is registered, and `isClosed_` is
still set. -/
theorem client_not_accounted : ¬ ∀ es : List (ReactorStep Unit),
    Passes (step fun _ => .tcpClient) (fun s => ∀ o, Accounted s o) init es := by
  intro h
  obtain ⟨es, t, ht, hst, hcl⟩ : ∃ es t,
      run (step fun _ => .tcpClient) (init : Reactor Unit) es = some t ∧
      (t.object ()).status = .kTcpConStatusConnected ∧ (t.object ()).isClosed = true :=
    ⟨[.connect () (some 5) .inProgress, .handleEvent () {.epollout} false none,
        .handleEvent () {.epollin} true none, .finishClose (), .connect () (some 5) .connected],
      _, rfl, rfl, rfl⟩
  have hacc := h es es.length t (by rwa [List.take_length]) ()
  have hopen := (hacc.status.1 (.inr hst)).1
  rw [hcl] at hopen
  cases hopen

end Reactor

end HttpNest
