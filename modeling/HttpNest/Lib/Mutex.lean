import Mathlib

/-!
# Exclusive locks and who waits for whom

`owner k` is the thread that holds the lock `k`, `wants t` the lock that the thread `t` has
to take before it can go on. A thread `Waits` for the owner of the lock it wants, and the
threads are `Deadlocked` if one of them waits for itself, through others.

* `not_deadlocked_of_order`: locks that are taken upwards in a strict order do not deadlock.
* `deadlocked_of_serial`: finitely many threads that each wait for one of them do;
  `exists_serial_of_cycle` finds such threads on a circle.
-/

namespace Mutex

open Relation

variable {κ τ : Type*} {wants : τ → Option κ} {owner : κ → Option τ}

/-- The thread `a` is blocked on a lock that `b` holds. -/
def Waits (wants : τ → Option κ) (owner : κ → Option τ) (a b : τ) : Prop :=
  ∃ k, wants a = some k ∧ owner k = some b

/-- A thread is blocked on a lock held by a thread that is blocked, directly or through
others, on one of its own. -/
def Deadlocked (wants : τ → Option κ) (owner : κ → Option τ) : Prop :=
  ∃ a, TransGen (Waits wants owner) a a

/-- Along a chain of waiting threads the locks that are wanted go upwards. -/
theorem order_of_chain {r : κ → κ → Prop} (htrans : ∀ i j k, r i j → r j k → r i k)
    (hup : ∀ k t k', owner k = some t → wants t = some k' → r k k') {a b : τ} {k : κ}
    (hk : wants a = some k) (h : TransGen (Waits wants owner) a b) :
    ∃ k', owner k' = some b ∧ (k' = k ∨ r k k') := by
  induction h with
  | single h =>
    obtain ⟨k', hk', ho⟩ := h
    rw [hk] at hk'
    cases hk'
    exact ⟨k, ho, .inl rfl⟩
  | tail _ h ih =>
    obtain ⟨k', ho, hr⟩ := ih
    obtain ⟨l, hl, ho'⟩ := h
    have hstep : r k' l := hup k' _ l ho hl
    refine ⟨l, ho', .inr ?_⟩
    rcases hr with rfl | hr
    · exact hstep
    · exact htrans _ _ _ hr hstep

/-- **Lock order.** If a thread that holds a lock only wants locks above it, no threads
wait for each other. -/
theorem not_deadlocked_of_order {r : κ → κ → Prop} (htrans : ∀ i j k, r i j → r j k → r i k)
    (hirrefl : ∀ k, ¬ r k k)
    (hup : ∀ k t k', owner k = some t → wants t = some k' → r k k') :
    ¬ Deadlocked wants owner := by
  rintro ⟨a, h⟩
  obtain ⟨b, ⟨k, hk, -⟩, -⟩ := TransGen.head'_iff.1 h
  obtain ⟨k', ho, hr⟩ := order_of_chain htrans hup hk h
  have hcycle : r k' k := hup k' a k ho hk
  rcases hr with rfl | hr
  · exact hirrefl _ hcycle
  · exact hirrefl _ (htrans _ _ _ hr hcycle)

/-- Following a successor function in a finite set leads round a circle. -/
theorem exists_cycle_of_serial {W : τ → τ → Prop} {S : Finset τ} (hne : S.Nonempty)
    (hW : ∀ a ∈ S, ∃ b ∈ S, W a b) : ∃ a ∈ S, TransGen W a a := by
  choose! next hmem hnext using hW
  obtain ⟨a, ha⟩ := hne
  have hin : ∀ n, next^[n] a ∈ S := by
    intro n
    induction n with
    | zero => exact ha
    | succ n ih =>
      rw [Function.iterate_succ_apply']
      exact hmem _ ih
  have hchain : ∀ m n, TransGen W (next^[m] a) (next^[m + n + 1] a) := by
    intro m n
    induction n with
    | zero =>
      rw [Nat.add_zero, Function.iterate_succ_apply']
      exact .single (hnext _ (hin m))
    | succ n ih =>
      rw [show m + (n + 1) + 1 = (m + n + 1) + 1 by omega, Function.iterate_succ_apply']
      exact ih.tail (hnext _ (hin _))
  -- two of the infinitely many steps are at the same place
  obtain ⟨m, n, hne, heq⟩ := Finite.exists_ne_map_eq_of_infinite
    (fun n : ℕ => (⟨next^[n] a, hin n⟩ : S))
  have heq : next^[m] a = next^[n] a := congrArg Subtype.val heq
  rcases hne.lt_or_gt with hlt | hlt
  · obtain ⟨d, rfl⟩ := Nat.exists_eq_add_of_lt hlt
    refine ⟨_, hin m, ?_⟩
    nth_rewrite 2 [heq]
    exact hchain m d
  · obtain ⟨d, rfl⟩ := Nat.exists_eq_add_of_lt hlt
    refine ⟨_, hin n, ?_⟩
    nth_rewrite 2 [← heq]
    exact hchain n d

/-- A circle is a finite set in which everyone has a successor. -/
theorem exists_serial_of_cycle {W : τ → τ → Prop} {a : τ} (h : TransGen W a a) :
    ∃ S : Finset τ, S.Nonempty ∧ ∀ b ∈ S, ∃ c ∈ S, W b c := by
  classical
  have hpath : ∀ {b : τ}, TransGen W b a →
      ∃ S : Finset τ, b ∈ S ∧ ∀ c ∈ S, ∃ d ∈ insert a S, W c d := by
    intro b hb
    induction hb using TransGen.head_induction_on with
    | single hb => exact ⟨{_}, Finset.mem_singleton_self _, by simpa using .inl hb⟩
    | @head b c hbc _ ih =>
      obtain ⟨S, hc, hS⟩ := ih
      refine ⟨insert b S, Finset.mem_insert_self .., fun x hx => ?_⟩
      rcases Finset.mem_insert.1 hx with rfl | hx
      · exact ⟨c, by simp [hc], hbc⟩
      · obtain ⟨d, hd, hW⟩ := hS x hx
        rcases Finset.mem_insert.1 hd with rfl | hd
        · exact ⟨d, by simp, hW⟩
        · exact ⟨d, by simp [hd], hW⟩
  obtain ⟨S, ha, hS⟩ := hpath h
  rw [Finset.insert_eq_of_mem ha] at hS
  exact ⟨S, ⟨a, ha⟩, hS⟩

/-- Finitely many threads that each wait for one of them are deadlocked. -/
theorem deadlocked_of_serial {S : Finset τ} (hne : S.Nonempty)
    (hW : ∀ a ∈ S, ∃ b ∈ S, Waits wants owner a b) : Deadlocked wants owner := by
  obtain ⟨a, -, ha⟩ := exists_cycle_of_serial hne hW
  exact ⟨a, ha⟩

end Mutex
