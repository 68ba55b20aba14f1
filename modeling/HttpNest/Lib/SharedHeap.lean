import Mathlib.Data.Finset.Card
import Mathlib.Logic.Function.Iterate

/-!
# Reference counts

Objects that own each other, and references from outside. An object without an owner is
destroyed, and what it has owned loses this owner (`settle`). What is left is the largest set of
objects that own each other or are referred to (`mem_settle_iff`), so it does not matter in which
order they are destroyed. Objects that own each other are left without any reference from outside.
-/

/-- `owns p` are the objects that `p` has a reference to, and `roots` counts the references that
are not in an object. -/
structure SharedHeap (ο : Type*) where
  alive : Finset ο
  roots : ο → ℕ
  owns : ο → Finset ο

namespace SharedHeap

variable {ο : Type*} [DecidableEq ο] {h : SharedHeap ο} {S : Finset ο} {o p : ο}

/-- A reference from outside, or from one of the objects. -/
def Owned (h : SharedHeap ο) (S : Finset ο) (o : ο) : Prop :=
  0 < h.roots o ∨ ∃ p ∈ S, o ∈ h.owns p

instance (h : SharedHeap ο) (S : Finset ο) (o : ο) : Decidable (h.Owned S o) :=
  inferInstanceAs (Decidable (_ ∨ _))

/-- The objects without an owner are destroyed. -/
def sweep (h : SharedHeap ο) (S : Finset ο) : Finset ο := S.filter fun o => h.Owned S o

/-- The objects that are left when all of them have an owner. -/
def settle (h : SharedHeap ο) : Finset ο := h.sweep^[h.alive.card] h.alive

omit [DecidableEq ο] in
theorem Owned.mono (hp : h.Owned S o) {S' : Finset ο} (hS : S ⊆ S') : h.Owned S' o :=
  hp.imp_right fun ⟨p, hmem, hown⟩ => ⟨p, hS hmem, hown⟩

theorem sweep_subset (h : SharedHeap ο) (S : Finset ο) : h.sweep S ⊆ S := Finset.filter_subset _ _

/-- A set whose objects all have an owner in it is not touched. -/
theorem subset_sweep {K : Finset ο} (hK : ∀ o ∈ K, h.Owned K o) (hsub : K ⊆ S) : K ⊆ h.sweep S :=
  fun o ho => Finset.mem_filter.2 ⟨hsub ho, (hK o ho).mono hsub⟩

theorem iterate_sweep_subset (h : SharedHeap ο) (n : ℕ) : ∀ S, h.sweep^[n] S ⊆ S := by
  induction n with
  | zero => exact fun S => Finset.Subset.refl S
  | succ n ih =>
    intro S
    rw [Function.iterate_succ_apply]
    exact (ih _).trans (h.sweep_subset S)

theorem subset_iterate_sweep {K : Finset ο} (hK : ∀ o ∈ K, h.Owned K o) (n : ℕ) :
    ∀ S, K ⊆ S → K ⊆ h.sweep^[n] S := by
  induction n with
  | zero => exact fun S hsub => hsub
  | succ n ih =>
    intro S hsub
    rw [Function.iterate_succ_apply]
    exact ih _ (subset_sweep hK hsub)

/-- Every round destroys an object, or all of them have an owner. -/
theorem owned_of_mem_iterate (h : SharedHeap ο) (n : ℕ) :
    ∀ S, S.card ≤ n → ∀ o ∈ h.sweep^[n] S, h.Owned (h.sweep^[n] S) o := by
  induction n with
  | zero =>
    intro S hcard o ho
    rw [Finset.card_eq_zero.1 (Nat.le_zero.1 hcard)] at ho
    cases ho
  | succ n ih =>
    intro S hcard
    rcases eq_or_ne (h.sweep S) S with heq | hne
    · rw [Function.iterate_fixed heq]
      intro o ho
      rw [← heq] at ho
      exact (Finset.mem_filter.1 ho).2
    · rw [Function.iterate_succ_apply]
      have hlt := Finset.card_lt_card ((h.sweep_subset S).ssubset_of_ne hne)
      exact ih _ (by omega)

theorem settle_subset (h : SharedHeap ο) : h.settle ⊆ h.alive := h.iterate_sweep_subset _ _

theorem owned_of_mem_settle (ho : o ∈ h.settle) : h.Owned h.settle o :=
  h.owned_of_mem_iterate _ _ le_rfl o ho

/-- **What is left is the largest set** of objects that have an owner in it or outside. -/
theorem mem_settle_iff :
    o ∈ h.settle ↔ ∃ K ⊆ h.alive, (∀ p ∈ K, h.Owned K p) ∧ o ∈ K := by
  constructor
  · exact fun ho => ⟨h.settle, h.settle_subset, fun p hp => owned_of_mem_settle hp, ho⟩
  · rintro ⟨K, hsub, hK, ho⟩
    exact subset_iterate_sweep hK _ _ hsub ho

/-- An object with a reference from outside is not destroyed. -/
theorem mem_settle_of_root (ho : o ∈ h.alive) (hroot : 0 < h.roots o) : o ∈ h.settle := by
  refine mem_settle_iff.2 ⟨{o}, Finset.singleton_subset_iff.2 ho, fun p hp => .inl ?_,
    Finset.mem_singleton_self o⟩
  rwa [Finset.mem_singleton.1 hp]

/-- Neither is what such an object owns. -/
theorem mem_settle_of_owner (ho : o ∈ h.alive) (hp : p ∈ h.settle) (hown : o ∈ h.owns p) :
    o ∈ h.settle := by
  refine mem_settle_iff.2 ⟨insert o h.settle, Finset.insert_subset ho h.settle_subset,
    fun q hq => ?_, Finset.mem_insert_self _ _⟩
  rcases Finset.mem_insert.1 hq with rfl | hq
  · exact .inr ⟨p, Finset.mem_insert_of_mem hp, hown⟩
  · exact (owned_of_mem_settle hq).mono (Finset.subset_insert _ _)

end SharedHeap
