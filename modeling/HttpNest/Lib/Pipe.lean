import Mathlib

/-!
# Pipes

A pipe holds records of one size in `slots` pages of `page` records each. A write goes to
the page of the last one if there is room in it, and to a new page otherwise; a page is
given back when all its records have been read, and all pages are when the pipe is empty.
So a pipe that has been full takes no record again before its first page has been read to
the end. With pages of one record only the number of unread records counts
(`room_iff_unread_lt`).

The records are counted from the last time the pipe was empty.

Which writes notify an edge-triggered watcher of a pipe differs from kernel to kernel, and is
part of a `PipeKernel`.
-/

structure Pipe where
  written : ℕ := 0
  taken : ℕ := 0
  le : taken ≤ written := by decide

namespace Pipe

variable {slots page : ℕ} {p p' : Pipe}

def unread (p : Pipe) : ℕ := p.written - p.taken

/-- The next record has a place: the pages from the first one that is not given back. -/
def Room (slots page : ℕ) (p : Pipe) : Prop := p.written < (p.taken / page + slots) * page

instance : Decidable (p.Room slots page) := inferInstanceAs (Decidable (_ < _))

/-- A write that does not block; it fails without room. -/
def write (slots page : ℕ) (p : Pipe) : Option Pipe :=
  if p.Room slots page then some ⟨p.written + 1, p.taken, Nat.le_succ_of_le p.le⟩ else none

/-- A read of one record. -/
def read (p : Pipe) : Pipe :=
  if h : p.taken + 1 < p.written then ⟨p.written, p.taken + 1, h.le⟩ else {}

theorem write_eq_none : p.write slots page = none ↔ ¬ p.Room slots page := by
  simp [write]

theorem unread_write (h : p.write slots page = some p') : p'.unread = p.unread + 1 := by
  unfold write at h
  split_ifs at h
  cases h
  have := p.le
  simp only [unread]
  omega

theorem unread_read : p.read.unread = p.unread - 1 := by
  unfold read
  split_ifs with h
  · simp only [unread]
    omega
  · simp only [unread]
    omega

/-- Single records need no page to be given back. -/
theorem room_iff_unread_lt : p.Room slots 1 ↔ p.unread < slots := by
  have := p.le
  simp only [Room, unread, Nat.div_one, Nat.mul_one]
  omega

end Pipe

/-- The pipes of a kernel, and what their watchers hear of: `notifies p` says that a write to the
pipe `p` is a notification, be it done or refused. -/
structure PipeKernel where
  slots : ℕ
  page : ℕ
  slots_pos : 0 < slots := by decide
  page_pos : 0 < page := by decide
  notifies : Pipe → Bool

namespace PipeKernel

/-- What a watcher is promised: a write that is done is a notification. -/
def onData : PipeKernel where
  slots := 16
  page := 512
  notifies p := p.Room 16 512

/-- Only a write to an empty pipe is one, as in Linux 5.5 to 5.13. -/
def onEmpty : PipeKernel where
  slots := 16
  page := 512
  notifies p := p.unread = 0

/-- Every write is one, also when it is refused, as in Linux from 5.14 on. -/
def onWrite : PipeKernel where
  slots := 16
  page := 512
  notifies _ := true

/-- A pipe without room has unread records. -/
theorem unread_pos_of_not_room (K : PipeKernel) {p : Pipe} (h : ¬ p.Room K.slots K.page) :
    0 < p.unread := by
  have hfull : (p.taken / K.page + K.slots) * K.page ≤ p.written := Nat.le_of_not_lt h
  have hlt : p.taken < (p.taken / K.page + 1) * K.page := by
    rw [mul_comm]
    exact Nat.lt_mul_div_succ p.taken K.page_pos
  have hpages : (p.taken / K.page + 1) * K.page ≤ (p.taken / K.page + K.slots) * K.page :=
    Nat.mul_le_mul_right _ (Nat.add_le_add_left K.slots_pos _)
  exact Nat.sub_pos_of_lt (hlt.trans_le (hpages.trans hfull))

end PipeKernel
