import Mathlib

/-!
# The descriptors of a process

`serial fd` is the serial number of the open file that the number `fd` stands for, if it is
open; numbers are used again, serial numbers are not. `closes n` counts the calls of `close`
that closed the open file `n`. `interest` is the interest list of an epoll instance: a
descriptor leaves it when it is closed.

`Ok` is kept by all operations, and says that an open file is open under one number, or has
been closed exactly once.
-/

structure Descriptors where
  serial : ℤ → Option ℕ := fun _ => none
  next : ℕ := 0
  closes : ℕ → ℕ := fun _ => 0
  interest : ℤ → Bool := fun _ => false

namespace Descriptors

variable {d : Descriptors} {fd : ℤ}

def IsOpen (d : Descriptors) (fd : ℤ) : Prop := d.serial fd ≠ none

instance : Decidable (d.IsOpen fd) := inferInstanceAs (Decidable (_ ≠ _))

/-- The kernel may hand the number out. -/
def Free (d : Descriptors) (fd : ℤ) : Prop := 0 ≤ fd ∧ ¬ d.IsOpen fd

instance : Decidable (d.Free fd) := inferInstanceAs (Decidable (_ ∧ _))

/-- A new open file gets the number. -/
def opened (d : Descriptors) (fd : ℤ) : Descriptors :=
  { d with serial := Function.update d.serial fd (some d.next), next := d.next + 1 }

/-- `close`; a number that is not open is an error, and nothing happens. -/
def close (d : Descriptors) (fd : ℤ) : Descriptors :=
  match d.serial fd with
  | none => d
  | some n =>
    { d with
      serial := Function.update d.serial fd none
      closes := Function.update d.closes n (d.closes n + 1)
      interest := Function.update d.interest fd false }

/-- `epoll_ctl` with `EPOLL_CTL_ADD`; `none` is a failure. -/
def ctlAdd (d : Descriptors) (fd : ℤ) : Option Descriptors :=
  if d.IsOpen fd ∧ d.interest fd = false then
    some { d with interest := Function.update d.interest fd true }
  else none

/-- `EPOLL_CTL_MOD`, which leaves the list as it is. -/
def ctlMod (d : Descriptors) (fd : ℤ) : Option Descriptors :=
  if d.interest fd = true then some d else none

/-- `EPOLL_CTL_DEL` -/
def ctlDel (d : Descriptors) (fd : ℤ) : Option Descriptors :=
  if d.interest fd = true then
    some { d with interest := Function.update d.interest fd false }
  else none

/-- What holds in every process. -/
structure Ok (d : Descriptors) : Prop where
  nonneg : ∀ fd, d.IsOpen fd → 0 ≤ fd
  lt : ∀ fd n, d.serial fd = some n → n < d.next
  inj : ∀ fd fd' n, d.serial fd = some n → d.serial fd' = some n → fd = fd'
  listed : ∀ fd, d.interest fd = true → d.IsOpen fd
  unclosed : ∀ n, (d.next ≤ n ∨ ∃ fd, d.serial fd = some n) → d.closes n = 0
  once : ∀ n, n < d.next → (∀ fd, d.serial fd ≠ some n) → d.closes n = 1

theorem ok_empty : Ok {} where
  nonneg fd h := absurd rfl h
  lt fd n h := by cases h
  inj fd fd' n h := by cases h
  listed fd h := by cases h
  unclosed n _ := rfl
  once n h := absurd h (Nat.not_lt_zero n)

theorem isOpen_iff : d.IsOpen fd ↔ ∃ n, d.serial fd = some n := Option.ne_none_iff_exists'

/-! ## Opening -/

@[simp] theorem serial_opened (k : ℤ) :
    (d.opened fd).serial k = if k = fd then some d.next else d.serial k := by
  simp [opened, Function.update_apply]

@[simp] theorem isOpen_opened (k : ℤ) : (d.opened fd).IsOpen k ↔ k = fd ∨ d.IsOpen k := by
  by_cases hk : k = fd <;> simp [IsOpen, hk]

@[simp] theorem interest_opened : (d.opened fd).interest = d.interest := rfl

theorem Ok.opened (h : d.Ok) (hfree : d.Free fd) : (d.opened fd).Ok where
  nonneg k hk := by
    rcases (isOpen_opened k).1 hk with rfl | hk
    · exact hfree.1
    · exact h.nonneg k hk
  lt k n hk := by
    rw [serial_opened] at hk
    split_ifs at hk
    · cases hk
      exact Nat.lt_succ_self _
    · exact Nat.lt_succ_of_lt (h.lt k n hk)
  inj k k' n hk hk' := by
    rw [serial_opened] at hk hk'
    split_ifs at hk hk' with h1 h2 h2
    · rw [h1, h2]
    · cases hk
      exact absurd (h.lt k' _ hk') (lt_irrefl _)
    · cases hk'
      exact absurd (h.lt k _ hk) (lt_irrefl _)
    · exact h.inj k k' n hk hk'
  listed k hk := (isOpen_opened k).2 (.inr (h.listed k hk))
  unclosed n hn := by
    refine h.unclosed n ?_
    rcases hn with hn | ⟨k, hk⟩
    · exact .inl (Nat.le_of_succ_le hn)
    · rw [serial_opened] at hk
      split_ifs at hk
      · cases hk
        exact .inl le_rfl
      · exact .inr ⟨k, hk⟩
  once n hn hnot := by
    have hne : n ≠ d.next := by
      rintro rfl
      exact hnot fd (by simp)
    refine h.once n (lt_of_le_of_ne (Nat.le_of_lt_succ hn) hne) fun k hk => ?_
    have hkfd : k ≠ fd := by
      rintro rfl
      exact hfree.2 (isOpen_iff.2 ⟨n, hk⟩)
    exact hnot k (by rw [serial_opened, if_neg hkfd, hk])

/-! ## Closing -/

@[simp] theorem serial_close (k : ℤ) :
    (d.close fd).serial k = if k = fd then none else d.serial k := by
  unfold close
  split
  case h_1 hs =>
    split_ifs with hk
    · rw [hk, hs]
    · rfl
  case h_2 n hs => simp [Function.update_apply]

@[simp] theorem isOpen_close (k : ℤ) : (d.close fd).IsOpen k ↔ k ≠ fd ∧ d.IsOpen k := by
  by_cases hk : k = fd <;> simp [IsOpen, hk]

@[simp] theorem next_close : (d.close fd).next = d.next := by
  unfold close
  split <;> rfl

theorem interest_close_of_ne {k : ℤ} (hk : k ≠ fd) :
    (d.close fd).interest k = d.interest k := by
  unfold close
  split
  · rfl
  · simp [hk]

theorem Ok.close (h : d.Ok) (fd : ℤ) : (d.close fd).Ok where
  nonneg k hk := h.nonneg k ((isOpen_close k).1 hk).2
  lt k n hk := by
    rw [serial_close] at hk
    rw [next_close]
    split_ifs at hk
    exact h.lt k n hk
  inj k k' n hk hk' := by
    rw [serial_close] at hk hk'
    split_ifs at hk hk'
    exact h.inj k k' n hk hk'
  listed k hk := by
    by_cases hkfd : k = fd
    · -- a closed descriptor has left the list
      subst hkfd
      unfold Descriptors.close at hk
      split at hk
      case h_1 hs => exact absurd hs (h.listed k hk)
      case h_2 => simp at hk
    · rw [interest_close_of_ne hkfd] at hk
      exact (isOpen_close k).2 ⟨hkfd, h.listed k hk⟩
  unclosed n hn := by
    have hold : d.closes n = 0 := by
      refine h.unclosed n ?_
      rcases hn with hn | ⟨k, hk⟩
      · rw [next_close] at hn
        exact .inl hn
      · rw [serial_close] at hk
        split_ifs at hk
        exact .inr ⟨k, hk⟩
    unfold Descriptors.close at hn ⊢
    split
    case h_1 => exact hold
    case h_2 m hs =>
      -- the file that is closed is open under no other number
      have hne : n ≠ m := by
        rintro rfl
        rw [hs] at hn
        rcases hn with hn | ⟨k, hk⟩
        · exact absurd (h.lt fd n hs) (not_lt.2 hn)
        · simp only [Function.update_apply] at hk
          split_ifs at hk with hkfd
          exact hkfd (h.inj k fd n hk hs)
      simp [hne, hold]
  once n hn hnot := by
    rw [next_close] at hn
    unfold Descriptors.close at hnot ⊢
    split at hnot
    case h_1 => exact h.once n hn hnot
    case h_2 m hs =>
      by_cases hne : n = m
      · subst hne
        simp [h.unclosed n (.inr ⟨fd, hs⟩)]
      · simp only [ne_eq, hne, not_false_eq_true, Function.update_of_ne]
        refine h.once n hn fun k hk => ?_
        have hkfd : k ≠ fd := by
          rintro rfl
          rw [hs] at hk
          cases hk
          exact hne rfl
        exact hnot k (by simp [hkfd, hk])

/-- What has been closed stays closed. -/
theorem Ok.closed_close (h : d.Ok) {n : ℕ} (hn : d.closes n = 1) : (d.close fd).closes n = 1 := by
  unfold Descriptors.close
  split
  case h_1 => exact hn
  case h_2 m hs =>
    have hne : n ≠ m := by
      rintro rfl
      rw [h.unclosed n (.inr ⟨fd, hs⟩)] at hn
      cases hn
    simp [hne, hn]

theorem Ok.closes_close (h : d.Ok) {n : ℕ} (hn : d.serial fd = some n) :
    (d.close fd).closes n = 1 := by
  simp [Descriptors.close, hn, h.unclosed n (.inr ⟨fd, hn⟩)]

/-! ## The interest list -/

theorem ctlAdd_eq_some {d' : Descriptors} : d.ctlAdd fd = some d' ↔
    d.IsOpen fd ∧ d.interest fd = false ∧
      d' = { d with interest := Function.update d.interest fd true } := by
  unfold ctlAdd
  split_ifs with h
  · simp [h, eq_comm]
  · simp only [false_iff]
    exact fun hd => h ⟨hd.1, hd.2.1⟩

theorem ctlDel_eq_some {d' : Descriptors} : d.ctlDel fd = some d' ↔
    d.interest fd = true ∧ d' = { d with interest := Function.update d.interest fd false } := by
  unfold ctlDel
  split_ifs with h
  · simp [h, eq_comm]
  · simp [h]

/-- A change of the interest list that only lists open descriptors. -/
theorem Ok.list (h : d.Ok) {interest : ℤ → Bool}
    (hlist : ∀ k, interest k = true → d.IsOpen k) : Ok { d with interest := interest } where
  nonneg := h.nonneg
  lt := h.lt
  inj := h.inj
  listed := hlist
  unclosed := h.unclosed
  once := h.once

theorem Ok.ctlAdd {d' : Descriptors} (h : d.Ok) (hd : d.ctlAdd fd = some d') : d'.Ok := by
  obtain ⟨hopen, -, rfl⟩ := ctlAdd_eq_some.1 hd
  refine h.list fun k hk => ?_
  rw [Function.update_apply] at hk
  split_ifs at hk with hkfd
  · rw [hkfd]
    exact hopen
  · exact h.listed k hk

theorem Ok.ctlDel {d' : Descriptors} (h : d.Ok) (hd : d.ctlDel fd = some d') : d'.Ok := by
  obtain ⟨-, rfl⟩ := ctlDel_eq_some.1 hd
  refine h.list fun k hk => ?_
  rw [Function.update_apply] at hk
  split_ifs at hk
  exact h.listed k hk

end Descriptors
