import HttpNest.Spec.Reactor

/-!
# What the steps of a reactor do to descriptors and entries

`Coherent` says that every entry of `channels_` is the channel that holds its key, and that
the key is open and in the interest list; that no two objects hold the same descriptor; and
that no `AddChannel` has returned early. `Frame o` says that a step about the object `o`
leaves the others alone. Both are proved here for each operation that the steps are made of,
with what the operation does for `o`.

A descriptor must not be opened for a registered object, nor closed (`Registered`): these
are the two ways in which an entry is left behind.
-/

namespace HttpNest

namespace Reactor

variable {ι : Type*} {s t u : Reactor ι} {o : ι}

/-- The object is in `channels_` under the descriptor it holds. -/
def Registered (s : Reactor ι) (o : ι) : Prop := s.channels (s.object o).fd = some o

structure Coherent (s : Reactor ι) : Prop where
  kernel : s.kernel.Ok
  held : ∀ o, 0 ≤ (s.object o).fd → s.kernel.IsOpen (s.object o).fd
  distinct : ∀ o o', 0 ≤ (s.object o).fd → (s.object o).fd = (s.object o').fd → o = o'
  entry : ∀ fd o, s.channels fd = some o → (s.object o).fd = fd ∧ s.kernel.interest fd = true
  skipped : s.skipped = 0

/-- The objects other than `o` keep their state, their registration and their descriptors;
what has been closed stays closed, and what has been constructed stays so. -/
structure Frame (o : ι) (s t : Reactor ι) : Prop where
  object : ∀ k, k ≠ o → t.object k = s.object k
  registered : ∀ k, k ≠ o → (t.Registered k ↔ s.Registered k)
  connections : ∀ k, k ≠ o → (k ∈ t.connections ↔ k ∈ s.connections)
  serial : ∀ k, k ≠ o → 0 ≤ (s.object k).fd →
    t.kernel.serial (s.object k).fd = s.kernel.serial (s.object k).fd
  closed : ∀ n, s.kernel.closes n = 1 → t.kernel.closes n = 1
  made : (s.object o).accepted = true → (t.object o).accepted = true

theorem Frame.refl (o : ι) (s : Reactor ι) : Frame o s s :=
  ⟨fun _ _ => rfl, fun _ _ => .rfl, fun _ _ => .rfl, fun _ _ _ => rfl, fun _ h => h, fun h => h⟩

theorem Frame.trans (h : Frame o s t) (h' : Frame o t u) : Frame o s u where
  object k hk := (h'.object k hk).trans (h.object k hk)
  registered k hk := (h'.registered k hk).trans (h.registered k hk)
  connections k hk := (h'.connections k hk).trans (h.connections k hk)
  serial k hk hfd := by
    have hfd' : 0 ≤ (t.object k).fd := by rwa [h.object k hk]
    have := h'.serial k hk hfd'
    rw [h.object k hk] at this
    exact this.trans (h.serial k hk hfd)
  closed n hn := h'.closed n (h.closed n hn)
  made hm := h'.made (h.made hm)

/-! ## Entries -/

/-- The entry of a descriptor that an object holds is that object. -/
theorem Coherent.entry_eq (h : Coherent s) {k : ι} (hk : s.channels (s.object o).fd = some k) :
    k = o := by
  obtain ⟨hfd, hlist⟩ := h.entry _ k hk
  have hopen := h.kernel.listed _ hlist
  exact h.distinct k o (by rw [hfd]; exact h.kernel.nonneg _ hopen) hfd

theorem Registered.nonneg (hr : s.Registered o) (h : Coherent s) : 0 ≤ (s.object o).fd :=
  h.kernel.nonneg _ (h.kernel.listed _ (h.entry _ o hr).2)

/-- An object that is not registered has no entry at all. -/
theorem Coherent.no_entry (h : Coherent s) (hr : ¬ s.Registered o) (fd : ℤ) :
    s.channels fd ≠ some o := by
  intro hfd
  obtain ⟨rfl, -⟩ := h.entry fd o hfd
  exact hr hfd

theorem Coherent.channels_eq_none (h : Coherent s) (hr : ¬ s.Registered o) :
    s.channels (s.object o).fd = none := by
  rcases hc : s.channels (s.object o).fd with _ | k
  · rfl
  · rw [h.entry_eq hc] at hc
    exact absurd hc hr

/-- What the operations on the descriptor of `o` have in common. -/
structure Result (o : ι) (s t : Reactor ι) : Prop where
  coherent : Coherent t
  frame : Frame o s t

theorem Result.trans (h : Result o s t) (h' : Result o t u) : Result o s u :=
  ⟨h'.coherent, h.frame.trans h'.frame⟩

theorem Coherent.result (h : Coherent s) (o : ι) : Result o s s := ⟨h, .refl o s⟩

theorem Coherent.setConnections (h : Coherent s) (c : Finset ι) :
    Coherent { s with connections := c } :=
  ⟨h.kernel, h.held, h.distinct, h.entry, h.skipped⟩

theorem Frame.setConnections {c : Finset ι} (hc : ∀ k, k ≠ o → (k ∈ c ↔ k ∈ s.connections)) :
    Frame o s { s with connections := c } :=
  ⟨fun _ _ => rfl, fun _ _ => .rfl, hc, fun _ _ _ => rfl, fun _ h => h, fun h => h⟩

theorem addChannel_spec (h : Coherent s) (hr : ¬ s.Registered o)
    (ht : s.addChannel o = some t) :
    Result o s t ∧ t.object = s.object ∧ t.Registered o ∧ t.connections = s.connections ∧
      t.kernel.serial = s.kernel.serial := by
  have hnone := h.channels_eq_none hr
  simp only [addChannel, hnone] at ht
  obtain ⟨kernel, hk, rfl⟩ := Option.map_eq_some_iff.1 ht
  have hok := h.kernel.ctlAdd hk
  obtain ⟨hopen, hlist, rfl⟩ := Descriptors.ctlAdd_eq_some.1 hk
  refine ⟨⟨⟨hok, h.held, h.distinct, ?_, h.skipped⟩, ⟨fun _ _ => rfl, fun k hko => ?_,
    fun _ _ => .rfl, fun _ _ _ => rfl, fun _ h => h, fun h => h⟩⟩, rfl, ?_, rfl, rfl⟩
  · intro fd k hfd
    simp only [Function.update_apply] at hfd ⊢
    split_ifs at hfd ⊢ with hfdo
    · cases hfd
      exact ⟨hfdo.symm, rfl⟩
    · exact h.entry fd k hfd
  · simp only [Registered, Function.update_apply]
    split_ifs with hfd
    · -- nobody else holds the descriptor
      refine ⟨fun he => absurd (Option.some.inj he).symm hko, fun he => ?_⟩
      rw [hfd, hnone] at he
      cases he
    · rfl
  · simp [Registered]

theorem removeChannel_spec (h : Coherent s) (ht : s.removeChannel o = some t) :
    Result o s t ∧ t.object = s.object ∧ ¬ t.Registered o ∧ t.connections = s.connections ∧
      t.kernel.serial = s.kernel.serial := by
  unfold removeChannel at ht
  rcases hc : s.channels (s.object o).fd with _ | k
  · simp only [hc] at ht
    cases ht
    refine ⟨h.result o, rfl, fun hr => ?_, rfl, rfl⟩
    rw [Registered, hc] at hr
    cases hr
  · simp only [hc] at ht
    obtain ⟨kernel, hk, rfl⟩ := Option.map_eq_some_iff.1 ht
    have hok := h.kernel.ctlDel hk
    obtain ⟨hlist, rfl⟩ := Descriptors.ctlDel_eq_some.1 hk
    refine ⟨⟨⟨hok, h.held, h.distinct, ?_, h.skipped⟩, ⟨fun _ _ => rfl, fun k hko => ?_,
      fun _ _ => .rfl, fun _ _ _ => rfl, fun _ h => h, fun h => h⟩⟩, rfl, ?_, rfl, rfl⟩
    · intro fd k hfd
      simp only [Function.update_apply] at hfd ⊢
      split_ifs at hfd ⊢ with hfdo
      exact h.entry fd k hfd
    · simp only [Registered, Function.update_apply]
      split_ifs with hfd
      · refine ⟨fun he => (by cases he), fun he => ?_⟩
        rw [hfd] at he
        exact absurd (h.entry_eq he) hko
      · rfl
    · simp [Registered]

theorem updateChannel_eq (h : s.updateChannel o = some t) : t = s := by
  unfold updateChannel at h
  rcases hc : s.channels (s.object o).fd with _ | k
  · simp only [hc] at h
    cases h
    rfl
  · simp only [hc, Descriptors.ctlMod] at h
    split_ifs at h
    · cases h
      rfl
    · cases h

/-! ## Fields -/

theorem coherent_init : Coherent (init : Reactor ι) where
  kernel := Descriptors.ok_empty
  held o h := absurd h (by simp [init])
  distinct o o' h := absurd h (by simp [init])
  entry fd o h := by cases h
  skipped := rfl

variable [DecidableEq ι]

@[simp] theorem object_modify (k : ι) (f : ChannelObject → ChannelObject) :
    (s.modify o f).object k = if k = o then f (s.object o) else s.object k := by
  simp [modify, Function.update_apply]

@[simp] theorem channels_modify (f : ChannelObject → ChannelObject) :
    (s.modify o f).channels = s.channels := rfl

@[simp] theorem kernel_modify (f : ChannelObject → ChannelObject) :
    (s.modify o f).kernel = s.kernel := rfl

@[simp] theorem skipped_modify (f : ChannelObject → ChannelObject) :
    (s.modify o f).skipped = s.skipped := rfl

@[simp] theorem connections_modify (f : ChannelObject → ChannelObject) :
    (s.modify o f).connections = s.connections := rfl

variable {f : ChannelObject → ChannelObject}

theorem fd_modify (hf : (f (s.object o)).fd = (s.object o).fd) (k : ι) :
    ((s.modify o f).object k).fd = (s.object k).fd := by
  rw [object_modify]
  split_ifs with hk
  · rw [hk, hf]
  · rfl

theorem registered_modify (hf : (f (s.object o)).fd = (s.object o).fd) (k : ι) :
    (s.modify o f).Registered k ↔ s.Registered k := by
  rw [Registered, Registered, fd_modify hf, channels_modify]

/-- Fields other than `fd_` do not matter. -/
theorem Coherent.modify (h : Coherent s) (hf : (f (s.object o)).fd = (s.object o).fd) :
    Coherent (s.modify o f) where
  kernel := h.kernel
  held k hk := by
    rw [fd_modify hf] at hk ⊢
    exact h.held k hk
  distinct k k' hk hkk' := by
    rw [fd_modify hf] at hk
    rw [fd_modify hf, fd_modify hf] at hkk'
    exact h.distinct k k' hk hkk'
  entry fd k hk := by
    rw [fd_modify hf]
    exact h.entry fd k hk
  skipped := h.skipped

theorem Frame.modify (hf : (f (s.object o)).fd = (s.object o).fd)
    (hm : (s.object o).accepted = true → (f (s.object o)).accepted = true) :
    Frame o s (s.modify o f) where
  object k hk := by rw [object_modify, if_neg hk]
  registered k _ := registered_modify hf k
  connections _ _ := .rfl
  serial _ _ _ := rfl
  closed _ h := h
  made := by simpa using hm

theorem Coherent.result_modify (h : Coherent s) (hf : (f (s.object o)).fd = (s.object o).fd)
    (hm : (s.object o).accepted = true → (f (s.object o)).accepted = true) :
    Result o s (s.modify o f) := ⟨h.modify hf, .modify hf hm⟩

/-! ## Descriptors -/

/-- An object that is not registered gets another descriptor, or none. -/
theorem Coherent.setFd (h : Coherent s) (hr : ¬ s.Registered o) {kernel : Descriptors}
    (hok : kernel.Ok)
    (hheld : ∀ k, k ≠ o → 0 ≤ (s.object k).fd → kernel.IsOpen (s.object k).fd)
    (hinterest : ∀ k, k ≠ o → s.kernel.interest (s.object k).fd = true →
      kernel.interest (s.object k).fd = true)
    (hfd : 0 ≤ (f (s.object o)).fd → kernel.IsOpen (f (s.object o)).fd ∧
      ∀ k, (s.object k).fd ≠ (f (s.object o)).fd) :
    Coherent { s.modify o f with kernel := kernel } where
  kernel := hok
  held k hk := by
    rw [object_modify] at hk ⊢
    split_ifs at hk ⊢ with hko
    · exact (hfd hk).1
    · exact hheld k hko hk
  distinct k k' hk hkk' := by
    rw [object_modify] at hk hkk'
    rw [object_modify] at hkk'
    split_ifs at hk hkk' with hko hko' hko'
    · rw [hko, hko']
    · exact absurd hkk'.symm ((hfd hk).2 k')
    · rw [hkk'] at hk
      exact absurd hkk' ((hfd hk).2 k)
    · exact h.distinct k k' hk hkk'
  entry fd k hk := by
    have hko : k ≠ o := by
      rintro rfl
      exact h.no_entry hr fd hk
    obtain ⟨rfl, hlist⟩ := h.entry fd k hk
    rw [object_modify, if_neg hko]
    exact ⟨rfl, hinterest k hko hlist⟩
  skipped := h.skipped

theorem Frame.setFd {kernel : Descriptors}
    (hserial : ∀ k, k ≠ o → 0 ≤ (s.object k).fd →
      kernel.serial (s.object k).fd = s.kernel.serial (s.object k).fd)
    (hclosed : ∀ n, s.kernel.closes n = 1 → kernel.closes n = 1)
    (hm : (s.object o).accepted = true → (f (s.object o)).accepted = true) :
    Frame o s { s.modify o f with kernel := kernel } where
  object k hk := by rw [object_modify, if_neg hk]
  registered k hk := by
    rw [Registered, Registered, object_modify, if_neg hk, channels_modify]
  connections _ _ := .rfl
  serial := hserial
  closed := hclosed
  made := by simpa using hm

/-- A new descriptor for an object that is not registered. -/
theorem openDescriptor_spec (h : Coherent s) (hr : ¬ s.Registered o) {fd : ℤ}
    (ht : s.openDescriptor o (some fd) = some t) :
    Result o s t ∧ ¬ t.Registered o ∧ t.connections = s.connections ∧
      t.object o = { s.object o with
        fd := fd, descriptors := s.kernel.next :: (s.object o).descriptors } ∧
      s.kernel.Free fd ∧ t.kernel.serial fd = some s.kernel.next := by
  simp only [openDescriptor] at ht
  split_ifs at ht with hfree
  cases ht
  -- nobody holds a number that is free
  have hnew : ∀ k, (s.object k).fd ≠ fd := by
    rintro k rfl
    exact hfree.2 (h.held k hfree.1)
  refine ⟨⟨h.setFd hr (h.kernel.opened hfree) ?_ ?_ ?_,
    .setFd ?_ (fun _ hn => hn) fun hm => hm⟩, ?_, rfl, ?_,
    hfree, ?_⟩
  · intro k _ hk
    exact (Descriptors.isOpen_opened _).2 (.inr (h.held k hk))
  · exact fun k _ hk => hk
  · exact fun _ => ⟨(Descriptors.isOpen_opened _).2 (.inl rfl), hnew⟩
  · intro k _ _
    rw [Descriptors.serial_opened, if_neg (hnew k)]
  · intro hro
    exact h.no_entry hr _ (by simpa [Registered] using hro)
  · simp
  · simp

/-- `socket` fails. -/
theorem openDescriptor_none_spec (h : Coherent s) (hr : ¬ s.Registered o)
    (ht : s.openDescriptor o none = some t) :
    Result o s t ∧ ¬ t.Registered o ∧ t.connections = s.connections ∧
      t.object o = { s.object o with fd := -1 } ∧ t.kernel = s.kernel := by
  cases ht
  have hframe : Frame o s { s.modify o (fun c => { c with fd := -1 }) with kernel := s.kernel } :=
    .setFd (fun _ _ _ => rfl) (fun _ hn => hn) fun hm => hm
  have hcoh : Coherent { s.modify o (fun c => { c with fd := -1 }) with kernel := s.kernel } :=
    h.setFd hr h.kernel (fun k _ => h.held k) (fun _ _ hk => hk) fun hneg => (by simp at hneg)
  refine ⟨⟨hcoh, hframe⟩, ?_, rfl, by simp, rfl⟩
  · intro hro
    exact h.no_entry hr _ (by simpa [Registered] using hro)

/-- `Channel::Close` of an object that is not registered. -/
theorem close_spec (h : Coherent s) (hr : 0 < (s.object o).fd → ¬ s.Registered o) :
    Result o s (s.close o) ∧ (s.close o).connections = s.connections ∧
      (s.close o).channels = s.channels ∧
      (s.close o).object o = { s.object o with
        fd := if 0 < (s.object o).fd then -1 else (s.object o).fd } ∧
      ∀ n, s.kernel.serial (s.object o).fd = some n → 0 < (s.object o).fd →
        (s.close o).kernel.closes n = 1 := by
  unfold close
  split_ifs with hpos
  · have hr := hr hpos
    have hother : ∀ k, k ≠ o → (s.object k).fd ≠ (s.object o).fd := by
      intro k hk heq
      exact hk (h.distinct o k hpos.le heq.symm).symm
    refine ⟨⟨h.setFd hr (h.kernel.close _) ?_ ?_ ?_, .setFd ?_ ?_ fun hm => hm⟩, rfl, rfl,
      by simp, ?_⟩
    · intro k hk hfd
      exact (Descriptors.isOpen_close _).2 ⟨hother k hk, h.held k hfd⟩
    · intro k hk hlist
      rwa [Descriptors.interest_close_of_ne (hother k hk)]
    · intro hneg
      simp at hneg
    · intro k hk _
      rw [Descriptors.serial_close, if_neg (hother k hk)]
    · exact fun n hn => h.kernel.closed_close hn
    · intro n hn _
      exact h.kernel.closes_close hn
  · exact ⟨h.result o, rfl, rfl, rfl, fun n _ hpos' => absurd hpos' hpos⟩

theorem Coherent.not_registered_close (h : Coherent s) (hr : ¬ s.Registered o) :
    ¬ (s.close o).Registered o := by
  obtain ⟨-, -, hch, -⟩ := close_spec h fun _ => hr
  intro hreg
  rw [Registered, hch] at hreg
  exact h.no_entry hr _ hreg

end Reactor

end HttpNest
