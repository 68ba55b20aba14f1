import HttpNest.Spec.SharedObjects

/-!
# Connections that are never destroyed

A server clears the context of a connection that is closed, so the connection is destroyed with
the last reference from outside. `HttpClient` does not: a `TcpClient` that has once been connected
and its `HttpContext` keep each other for ever (`connection_alive_iff`).
-/

namespace HttpNest

open EventRun SharedObject SharedHeap

namespace SharedObjects

variable {ι : Type*} [DecidableEq ι] {s t : SharedObjects ι} {c : ι} {e : OwnerEvent ι}

/-- What holds of the references, before and behind the destruction of objects. -/
structure Linked (s : SharedObjects ι) : Prop where
  known : ∀ c, c ∈ s.connections ∨ c ∈ s.tcpClients ∨ c ∈ s.channels → connection c ∈ s.alive
  kept : ∀ o, 0 < s.kept o → o ∈ s.alive
  attached : ∀ c ∈ s.attached, connection c ∈ s.alive ∧ context c ∈ s.alive
  context : ∀ c, context c ∈ s.alive → connection c ∈ s.alive
  registered : ∀ c ∈ s.served, c ∈ s.attached → c ∈ s.connections
  status : ∀ c ∈ s.served, s.status c = .kTcpConStatusInit
  posted : ∀ c ∈ s.posted, c ∉ s.served
  fresh : ∀ c ∉ s.created, c ∉ s.served ∧ c ∉ s.posted ∧ connection c ∉ s.alive ∧
    s.status c = .kTcpConStatusInit

/-- Behind it, every object has an owner. -/
structure Kept (s : SharedObjects ι) : Prop extends Linked s where
  owned : ∀ o ∈ s.alive, s.heap.Owned s.alive o

theorem roots_connection_pos : 0 < s.heap.roots (connection c) ↔
    (c ∈ s.connections ∨ c ∈ s.tcpClients ∨ c ∈ s.channels) ∨ 0 < s.kept (connection c) := by
  show 0 < (if c ∈ s.connections then 1 else 0) + (if c ∈ s.tcpClients then 1 else 0) +
    (if c ∈ s.channels then 1 else 0) + s.kept (connection c) ↔ _
  split_ifs <;> simp_all

/-- What is referred to from outside has not been destroyed. -/
theorem Linked.rooted (h : Linked s) : ∀ o, 0 < s.heap.roots o → o ∈ s.alive
  | connection c, ho => (roots_connection_pos.1 ho).elim (h.known c) (h.kept _)
  | .context _, ho => h.kept _ ho

theorem Linked.settle (h : Linked s) : Kept { s with alive := s.heap.settle } where
  known c hc := by
    have hroot : 0 < s.heap.roots (connection c) := roots_connection_pos.2 (.inl hc)
    exact mem_settle_of_root (h.rooted _ hroot) hroot
  kept o ho := by
    have hroot : 0 < s.heap.roots o := by
      cases o with
      | connection c => exact roots_connection_pos.2 (.inr ho)
      | context c => exact ho
    exact mem_settle_of_root (h.rooted _ hroot) hroot
  attached c hc := by
    have howns : SharedObject.context c ∈ s.heap.owns (connection c) := by
      simp [heap, show c ∈ s.attached from hc]
    obtain ⟨hconn, hcxt⟩ := h.attached c hc
    -- the two objects own each other
    have hboth : ∀ o ∈ ({connection c, SharedObject.context c} : Finset (SharedObject ι)),
        s.heap.Owned {connection c, SharedObject.context c} o := by
      intro o ho
      rcases Finset.mem_insert.1 ho with rfl | ho
      · exact .inr ⟨SharedObject.context c, by simp, by simp [heap]⟩
      · rw [Finset.mem_singleton.1 ho]
        exact .inr ⟨connection c, by simp, howns⟩
    have hsub :
        ({connection c, SharedObject.context c} : Finset (SharedObject ι)) ⊆ s.heap.alive := by
      intro o ho
      rcases Finset.mem_insert.1 ho with rfl | ho
      · exact hconn
      · rw [Finset.mem_singleton.1 ho]
        exact hcxt
    exact ⟨mem_settle_iff.2 ⟨_, hsub, hboth, by simp⟩, mem_settle_iff.2 ⟨_, hsub, hboth, by simp⟩⟩
  context c hc :=
    mem_settle_of_owner (h := s.heap) (h.context c (s.heap.settle_subset hc)) hc (by simp [heap])
  registered := h.registered
  status := h.status
  posted := h.posted
  fresh c hc := by
    obtain ⟨hserved, hposted, halive, hstatus⟩ := h.fresh c hc
    exact ⟨hserved, hposted, fun ha => halive (s.heap.settle_subset ha), hstatus⟩
  owned o ho := owned_of_mem_settle (h := s.heap) ho

/-! ## Events -/

theorem Linked.onClose (h : Linked s) (hc : connection c ∈ s.alive) : Linked (s.onClose c) := by
  obtain ⟨hknown, hkept, hattached, hcontext, hregistered, hstatus, hposted, hfresh⟩ := h
  unfold SharedObjects.onClose
  split_ifs <;> constructor <;> grind

/-- **No event leaves a reference to an object that has been destroyed**, and every context that
is attached has a connection that is. -/
theorem Linked.act (h : Linked s) (ht : s.act e = some t) : Linked t := by
  obtain ⟨hknown, hkept, hattached, hcontext, hregistered, hstatus, hposted, hfresh⟩ := id h
  cases e with
  | accept c =>
    simp only [SharedObjects.act] at ht
    split_ifs at ht with hnew
    cases ht
    constructor <;> grind
  | get old c =>
    simp only [SharedObjects.act] at ht
    split_ifs at ht with hno
    cases ht
    obtain ⟨hnew, hold⟩ := not_or.1 hno
    have hsub : ∀ d ∈ old.elim s.tcpClients s.tcpClients.erase, d ∈ s.tcpClients := by
      cases old with
      | none => exact fun d hd => hd
      | some o => exact fun d hd => Finset.mem_of_mem_erase hd
    constructor <;> grind
  | connect c =>
    simp only [SharedObjects.act] at ht
    split_ifs at ht with hc
    cases ht
    constructor <;> grind
  | connected c =>
    simp only [SharedObjects.act] at ht
    split_ifs at ht with hc
    cases ht
    constructor <;> grind
  | close c =>
    simp only [SharedObjects.act] at ht
    split_ifs at ht with hc
    cases ht
    exact h.onClose hc
  | destroyClient c =>
    simp only [SharedObjects.act] at ht
    split_ifs at ht with hc
    cases ht
    constructor <;> grind
  | keep o =>
    simp only [SharedObjects.act] at ht
    split_ifs at ht with ho
    cases ht
    constructor <;> grind
  | release o =>
    simp only [SharedObjects.act] at ht
    split_ifs at ht with ho
    cases ht
    constructor <;> grind

theorem Kept.step (h : Kept s) (ht : s.step e = some t) : Kept t := by
  obtain ⟨u, hu, rfl⟩ := Option.map_eq_some_iff.1 ht
  exact (h.toLinked.act hu).settle

/-- A client's context is attached when the connection comes up, and stays. -/
theorem Linked.attached_act (h : Linked s) (ht : s.act e = some t) (c : ι) :
    c ∈ t.attached ∧ c ∉ t.served ↔ (c ∈ s.attached ∧ c ∉ s.served) ∨ e = .connected c := by
  obtain ⟨-, -, hattached, -, -, hstatus, -, hfresh⟩ := h
  cases e with
  | close d =>
    simp only [SharedObjects.act, SharedObjects.onClose] at ht
    split_ifs at ht
    all_goals grind
  | accept d | get old d | connect d | connected d | destroyClient d | keep o | release o =>
    simp only [SharedObjects.act] at ht
    split_ifs at ht
    all_goals grind

theorem attached_run {es : List (OwnerEvent ι)} (c : ι) : ∀ {s t : SharedObjects ι}, Kept s →
    run step s es = some t →
    (c ∈ t.attached ∧ c ∉ t.served ↔ (c ∈ s.attached ∧ c ∉ s.served) ∨ .connected c ∈ es) := by
  induction es with
  | nil =>
    intro s t _ h
    cases h
    simp
  | cons e es ih =>
    intro s t hs h
    obtain ⟨u, hu, h⟩ := run_cons_eq_some.1 h
    obtain ⟨v, hv, rfl⟩ := Option.map_eq_some_iff.1 hu
    rw [ih (hs.step hu) h, List.mem_cons, ← or_assoc, eq_comm (a := OwnerEvent.connected c)]
    exact or_congr_left (hs.toLinked.attached_act hv c)

theorem kept_start : Kept ({} : SharedObjects ι) := by
  constructor
  · constructor <;> simp
  · simp

/-- What keeps a connection: a reference from outside, or its context, which it has in turn. -/
theorem Kept.owner_iff (h : Kept s) (c : ι) :
    connection c ∈ s.alive ↔ 0 < s.references c ∨ c ∈ s.attached := by
  constructor
  · intro hc
    rcases h.owned _ hc with hroot | ⟨p, hp, hown⟩
    · exact .inl (Nat.add_pos_left hroot _)
    · cases p with
      | connection d => grind [heap]
      | context d =>
        obtain rfl : c = d := by simpa [heap] using hown
        rcases h.owned _ hp with hroot | ⟨q, hq, hown'⟩
        · exact .inl (Nat.add_pos_right _ hroot)
        · cases q with
          | connection d => grind [heap]
          | context d => simp [heap] at hown'
  · rintro (hpos | hc)
    · rcases Nat.add_pos_iff_pos_or_pos.1 hpos with hroot | hroot
      · exact h.rooted _ hroot
      · exact h.context c (h.rooted _ hroot)
    · exact (h.attached c hc).1

/-- **How long a connection lives**: as long as somebody refers to it or to its context. Only the
connections of `HttpClient` that have come up are never destroyed. -/
theorem connection_alive_iff {es : List (OwnerEvent ι)} (h : run step {} es = some t) (c : ι) :
    connection c ∈ t.alive ↔ 0 < t.references c ∨ .connected c ∈ es := by
  have hkept : Kept t := run_inv Kept (fun _ _ _ hs ht => hs.step ht) kept_start h
  have hup := attached_run c kept_start h
  rw [hkept.owner_iff]
  constructor
  · rintro (hpos | hc)
    · exact .inl hpos
    · by_cases hserved : c ∈ t.served
      · -- the server's own reference
        have hroot : 0 < t.heap.roots (connection c) :=
          roots_connection_pos.2 (.inl (.inl (hkept.registered c hserved hc)))
        exact .inl (Nat.add_pos_left hroot _)
      · exact .inr ((hup.1 ⟨hc, hserved⟩).resolve_left fun hno => by cases hno.1)
  · rintro (hpos | hmem)
    · exact .inl hpos
    · exact .inr (hup.2 (.inr hmem)).1

/-- A connection that comes up and is closed again, whose client is destroyed. -/
def leaked : List (OwnerEvent ℕ) :=
  [.get none 0, .connect 0, .connected 0, .close 0, .destroyClient 0]

theorem alive_leaked : ∃ t, run step {} leaked = some t ∧ t.references 0 = 0 ∧
    connection 0 ∈ t.alive := by
  obtain ⟨t, ht, hzero⟩ : ∃ t, run step {} leaked = some t ∧ t.references 0 = 0 := ⟨_, rfl, rfl⟩
  exact ⟨t, ht, hzero, (connection_alive_iff ht 0).2 (.inr (by decide))⟩

end SharedObjects

end HttpNest
