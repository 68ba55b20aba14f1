import Mathlib

/-!
# epoll and the sockets it watches

A `Socket` is what the kernel knows of a stream socket, `ready` the flags it would be
reported with, and `SocketEvent` what can happen to it without a call of its owner.

An `Item` is a descriptor in the interest list, with the flags it is registered for.
It is queued when it is added or modified while ready (`ctl`) and by the wake-ups that
a change of the socket gives it (`wake`); `wait` hands it out with all flags that are
ready by then. An edge-triggered item is not queued any more after that; a
level-triggered one is, as long as it is ready.

`ready_queued` is the reason why an edge is not lost before it is handed out.
-/

namespace Epoll

inductive Flag
  | epollin
  | epollpri
  | epollout
  | epollerr
  | epollhup
  | epollet
  deriving DecidableEq, Repr

/-! ## Sockets -/

structure Socket where
  unread : ℕ := 0
  eof : Bool := false
  urgent : Bool := false
  writable : Bool := false
  error : Bool := false
  hangup : Bool := false
  deriving DecidableEq, Repr

/-- `again` says whether the event wakes a socket up that is readable already. -/
inductive SocketEvent
  | arrives (n : ℕ) (again : Bool)
  | ends (again : Bool)
  | urgent
  | drains
  | fills
  | fails
  | hangsUp
  deriving DecidableEq, Repr

namespace Socket

/-- There are bytes to read, or the end of the stream. -/
def Readable (s : Socket) : Prop := 0 < s.unread ∨ s.eof = true

instance (s : Socket) : Decidable s.Readable := inferInstanceAs (Decidable (_ ∨ _))

/-- A flag under a condition. -/
def flagIf (p : Prop) [Decidable p] (f : Flag) : Finset Flag := if p then {f} else ∅

@[simp] theorem mem_flagIf {p : Prop} [Decidable p] {f g : Flag} :
    g ∈ flagIf p f ↔ p ∧ g = f := by
  unfold flagIf
  split_ifs with h <;> simp [h]

/-- The flags that the socket is ready for. -/
def ready (s : Socket) : Finset Flag :=
  flagIf s.Readable .epollin ∪ flagIf (s.urgent = true) .epollpri ∪
    flagIf (s.writable = true) .epollout ∪ flagIf (s.error = true) .epollerr ∪
    flagIf (s.hangup = true) .epollhup

@[simp] theorem epollin_mem_ready (s : Socket) : .epollin ∈ s.ready ↔ s.Readable := by
  simp [ready]

@[simp] theorem epollout_mem_ready (s : Socket) : .epollout ∈ s.ready ↔ s.writable = true := by
  simp [ready]

/-- The socket after an event. -/
def after (s : Socket) : SocketEvent → Socket
  | .arrives n _ => { s with unread := s.unread + n }
  | .ends _ => { s with eof := true }
  | .urgent => { s with urgent := true }
  | .drains => { s with writable := true }
  | .fills => { s with writable := false }
  | .fails => { s with error := true }
  | .hangsUp => { s with hangup := true }

/-- The flags that an event gives a wake-up for. -/
def wakes (s : Socket) : SocketEvent → Finset Flag
  | .arrives _ again | .ends again => flagIf (¬ (s.Readable ∧ again = false)) .epollin
  | .urgent => {.epollpri}
  | .drains => flagIf (s.writable = false) .epollout
  | .fills => ∅
  | .fails => {.epollerr}
  | .hangsUp => {.epollhup}

/-- A socket that becomes writable wakes its item up. -/
theorem epollout_wakes {s : Socket} {e : SocketEvent} (h : (s.after e).writable = true) :
    s.writable = true ∨ .epollout ∈ s.wakes e := by
  rcases hw : s.writable with _ | _
  · right
    cases e <;> simp_all [after, wakes]
  · exact .inl rfl

/-- A socket that becomes readable wakes its item up. -/
theorem epollin_wakes {s : Socket} {e : SocketEvent} (h : (s.after e).Readable) :
    s.Readable ∨ .epollin ∈ s.wakes e := by
  by_cases hr : s.Readable
  · exact .inl hr
  · right
    cases e <;> simp_all [after, wakes, Readable]

end Socket

/-! ## Items -/

structure Item where
  events : Finset Flag := ∅
  queued : Bool := false
  deriving DecidableEq

/-- Of some flags, those that an item registered for `events` is reported with. -/
def reported (flags events : Finset Flag) : Finset Flag := flags ∩ (events ∪ {.epollerr, .epollhup})

theorem mem_reported {f : Flag} {flags events : Finset Flag} (h₁ : f ∈ flags) (h₂ : f ∈ events) :
    f ∈ reported flags events := by
  simp [reported, h₁, h₂]

namespace Item

variable {i : Item} {flags events : Finset Flag}

/-- The item has something to report. -/
def wake (i : Item) (flags : Finset Flag) : Item :=
  { i with queued := i.queued || decide (reported flags i.events).Nonempty }

/-- `EPOLL_CTL_ADD` and `EPOLL_CTL_MOD`. -/
def ctl (i : Item) (events ready : Finset Flag) : Item := { i with events := events }.wake ready

/-- `epoll_wait`: what the item is handed out with, if that is not empty. -/
def wait (i : Item) (ready : Finset Flag) : Finset Flag × Item :=
  (reported ready i.events,
    { i with queued := decide ((reported ready i.events).Nonempty ∧ .epollet ∉ i.events) })

@[simp] theorem events_wake : (i.wake flags).events = i.events := rfl

@[simp] theorem events_ctl : (i.ctl events flags).events = events := rfl

/-- A queued item stays queued until it is handed out. -/
theorem queued_wake (h : i.queued = true) : (i.wake flags).queued = true := by
  simp [wake, h]

theorem queued_ctl (h : i.queued = true) : (i.ctl events flags).queued = true :=
  queued_wake (i := { i with events := events }) h

/-- A wake-up for a registered flag queues the item. -/
theorem wake_queued {f : Flag} (h₁ : f ∈ flags) (h₂ : f ∈ i.events) :
    (i.wake flags).queued = true := by
  have : (reported flags i.events).Nonempty := ⟨f, mem_reported h₁ h₂⟩
  simp [wake, this]

/-- **An item that is modified while ready is queued.** -/
theorem ready_queued {f : Flag} (h₁ : f ∈ flags) (h₂ : f ∈ events) :
    (i.ctl events flags).queued = true :=
  wake_queued (i := { i with events := events }) h₁ h₂

/-- A level-triggered item stays queued when it is handed out. -/
theorem queued_wait (h : .epollet ∉ i.events) (hne : (i.wait flags).1 ≠ ∅) :
    (i.wait flags).2.queued = true := by
  have : (reported flags i.events).Nonempty := Finset.nonempty_iff_ne_empty.2 hne
  simp [wait, h, this]

end Item

end Epoll
