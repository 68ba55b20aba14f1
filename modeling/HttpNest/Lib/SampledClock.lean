import Mathlib.Algebra.Order.Ring.Int
import Mathlib.Data.List.Chain
import Mathlib.Tactic.Linarith
import Mathlib.Tactic.Ring

/-!
# A clock that is read now and then

A unit of time is counted at a reading that is at least a unit behind the last one that counted;
these readings are the `marks`, and the first reading is one too. What happens between two
readings is noted, with its time and the number of marks before it.

The counted units are not those that pass. The `n`-th mark behind a note comes a unit early at
most, and late by what the readings miss: each unit takes up to a unit and the gap between two
readings (`Sound.inTime`). When this time has passed, the mark has been made (`Sound.marked`).
-/

/-- `time` is that of the last event. -/
structure SampledClock where
  time : ℤ := 0
  readings : List ℤ := []
  marks : List ℤ := []
  notes : List (ℕ × ℤ) := []

namespace SampledClock

/-! ## Chains -/

/-- What a chain does in one step, and composes, it does in `n` steps. -/
theorem rel_of_isChain {α : Type*} {R : α → α → Prop} (S : ℕ → α → α → Prop)
    (hzero : ∀ a, S 0 a a) (hsucc : ∀ n a b c, S n a b → R b c → S (n + 1) a c) {l : List α}
    (h : l.IsChain R) {i n : ℕ} {a b : α} (ha : l[i]? = some a) (hb : l[i + n]? = some b) :
    S n a b := by
  induction n generalizing b with
  | zero =>
    rw [Nat.add_zero, ha] at hb
    cases hb
    exact hzero a
  | succ n ih =>
    obtain ⟨hlt, rfl⟩ := List.getElem?_eq_some_iff.1 hb
    exact hsucc n a _ _ (ih (List.getElem?_eq_getElem (by omega)))
      (List.isChain_iff_getElem.1 h (i + n) hlt)

variable {unit x now : ℤ} {s : SampledClock} {k n g : ℕ}

theorem le_add_mul {u : ℤ} {l : List ℤ} (h : l.IsChain fun a b => b ≤ a + u) {i : ℕ} {a b : ℤ}
    (ha : l[i]? = some a) (hb : l[i + n]? = some b) : b ≤ a + n * u := by
  refine rel_of_isChain (fun n a b => b ≤ a + n * u) (fun a => by simp) ?_ h ha hb
  intro n a b c hab hbc
  push_cast
  linarith

/-! ## Events -/

def read (unit now : ℤ) (s : SampledClock) : SampledClock :=
  { s with
    time := now
    readings := s.readings ++ [now]
    marks := if ∀ m ∈ s.marks.getLast?, m + unit ≤ now then s.marks ++ [now] else s.marks }

theorem marks_read_of_le (h : ∀ m ∈ s.marks.getLast?, m + unit ≤ now) :
    (s.read unit now).marks = s.marks ++ [now] := if_pos h

theorem marks_read_of_lt {m : ℤ} (hm : m ∈ s.marks.getLast?) (hlt : now < m + unit) :
    (s.read unit now).marks = s.marks := if_neg fun hall => absurd (hall m hm) (by omega)

def note (x : ℤ) (s : SampledClock) : SampledClock :=
  { s with time := x, notes := s.notes ++ [(s.marks.length, x)] }

/-- Something else happens. -/
def wait (x : ℤ) (s : SampledClock) : SampledClock := { s with time := x }

/-- No reading comes more than `g` behind the one before. -/
def Gaps (g : ℕ) (s : SampledClock) : Prop := s.readings.IsChain fun a b : ℤ => b ≤ a + g

/-- The reading `r` is `n` units behind `x`, as the clock counts them. -/
structure InTime (unit : ℤ) (s : SampledClock) (x : ℤ) (n : ℕ) (r : ℤ) : Prop where
  early : x + (n - 1) * unit ≤ r
  late : ∀ g, s.Gaps g → ∀ first ∈ s.readings.head?, r ≤ max x first + n * (unit - 1 + g)

/-- The clock has been read so late behind `x` that it must have counted `n` units. -/
def Over (unit : ℤ) (s : SampledClock) (x : ℤ) (n : ℕ) : Prop :=
  ∃ g first r, s.Gaps g ∧ first ∈ s.readings.head? ∧ r ∈ s.readings.getLast? ∧
    max x first + (n - 1) * (unit - 1 + g) + unit ≤ r

/-- What holds if the events come in the order of their times. -/
structure Sound (unit : ℤ) (s : SampledClock) : Prop where
  past : ∀ r ∈ s.readings, r ≤ s.time
  mem : ∀ m ∈ s.marks, m ∈ s.readings
  head : s.marks.head? = s.readings.head?
  last : ∀ r ∈ s.readings.getLast?, ∃ m ∈ s.marks.getLast?, m ≤ r ∧ r < m + unit
  apart : s.marks.IsChain fun a b => a + unit ≤ b
  close : ∀ g, s.Gaps g → s.marks.IsChain fun a b => b ≤ a + (unit - 1 + g)
  noted : ∀ k x, (k, x) ∈ s.notes → k ≤ s.marks.length ∧ x ≤ s.time ∧
    (∀ m, s.marks[k]? = some m → x ≤ m) ∧ ∀ i m, k = i + 1 → s.marks[i]? = some m → m ≤ x

theorem Sound.wait (h : s.Sound unit) (hx : s.time ≤ x) : (s.wait x).Sound unit := by
  refine ⟨fun r hr => (h.past r hr).trans hx, h.mem, h.head, h.last, h.apart, h.close, ?_⟩
  intro k y hy
  obtain ⟨hk, hle, hrest⟩ := h.noted k y hy
  exact ⟨hk, hle.trans hx, hrest⟩

theorem Sound.note (h : s.Sound unit) (hx : s.time ≤ x) : (s.note x).Sound unit := by
  refine ⟨fun r hr => (h.past r hr).trans hx, h.mem, h.head, h.last, h.apart, h.close, ?_⟩
  intro k y hy
  rcases List.mem_append.1 hy with hy | hy
  · obtain ⟨hk, hle, hrest⟩ := h.noted k y hy
    exact ⟨hk, hle.trans hx, hrest⟩
  · obtain ⟨rfl, rfl⟩ := Prod.mk.inj (List.mem_singleton.1 hy)
    refine ⟨le_rfl, le_rfl, fun m hm => ?_, fun i m _ hm => ?_⟩
    · rw [show (s.note y).marks = s.marks from rfl, List.getElem?_eq_none le_rfl] at hm
      cases hm
    · exact (h.past m (h.mem m (List.mem_of_getElem? hm))).trans hx

/-- A reading less than a unit behind the last mark, which is not counted. -/
theorem Sound.read_kept (h : s.Sound unit) (hnow : s.time ≤ now) {m : ℤ}
    (hm : m ∈ s.marks.getLast?) (hlt : now < m + unit) : (s.read unit now).Sound unit := by
  have hmarks := marks_read_of_lt hm hlt
  have hpast : ∀ r ∈ s.readings, r ≤ now := fun r hr => (h.past r hr).trans hnow
  refine ⟨?_, ?_, ?_, ?_, ?_, ?_, ?_⟩
  · intro r hr
    rcases List.mem_append.1 hr with hr | hr
    · exact hpast r hr
    · exact (List.mem_singleton.1 hr).le
  · rw [hmarks]
    exact fun m hm => List.mem_append_left _ (h.mem m hm)
  · have hsome : s.readings.head?.isSome := by
      rw [← h.head, List.isSome_head?]
      exact List.ne_nil_of_mem (List.mem_of_getLast? hm)
    show (s.read unit now).marks.head? = (s.readings ++ [now]).head?
    rw [hmarks, h.head, List.head?_append, Option.or_of_isSome hsome]
  · intro r hr
    rw [show (s.read unit now).readings = s.readings ++ [now] from rfl,
      List.getLast?_concat] at hr
    cases hr
    rw [hmarks]
    exact ⟨m, hm, hpast m (h.mem m (List.mem_of_getLast? hm)), hlt⟩
  · rw [hmarks]
    exact h.apart
  · intro g hg
    rw [hmarks]
    exact h.close g hg.left_of_append
  · intro k y hy
    obtain ⟨hk, hle, hrest⟩ := h.noted k y hy
    rw [hmarks]
    exact ⟨hk, hle.trans hnow, hrest⟩

/-- A reading that is counted, or the first one. -/
theorem Sound.read_marked (h : s.Sound unit) (hunit : 0 < unit) (hnow : s.time ≤ now)
    (hmark : ∀ m ∈ s.marks.getLast?, m + unit ≤ now) : (s.read unit now).Sound unit := by
  have hmarks := marks_read_of_le hmark
  have hpast : ∀ r ∈ s.readings, r ≤ now := fun r hr => (h.past r hr).trans hnow
  refine ⟨?_, ?_, ?_, ?_, ?_, ?_, ?_⟩
  · intro r hr
    rcases List.mem_append.1 hr with hr | hr
    · exact hpast r hr
    · exact (List.mem_singleton.1 hr).le
  · rw [hmarks]
    intro m hm
    rcases List.mem_append.1 hm with hm | hm
    · exact List.mem_append_left _ (h.mem m hm)
    · exact List.mem_append_right _ hm
  · show (s.read unit now).marks.head? = (s.readings ++ [now]).head?
    rw [hmarks, List.head?_append, List.head?_append, h.head]
  · intro r hr
    rw [show (s.read unit now).readings = s.readings ++ [now] from rfl,
      List.getLast?_concat] at hr
    cases hr
    rw [hmarks, List.getLast?_concat]
    exact ⟨now, rfl, le_rfl, by omega⟩
  · rw [hmarks]
    refine h.apart.append (.singleton now) fun m hm y hy => ?_
    cases hy
    exact hmark m hm
  · intro g hg
    rw [hmarks]
    refine (h.close g hg.left_of_append).append (.singleton now) fun m hm y hy => ?_
    cases hy
    -- the last reading is less than a unit behind the last mark
    have hne : s.readings ≠ [] := List.ne_nil_of_mem (h.mem m (List.mem_of_getLast? hm))
    have hr := List.getLast?_eq_some_getLast hne
    obtain ⟨m', hm', -, hlt⟩ := h.last _ hr
    cases Option.mem_unique hm hm'
    have hgap := (List.isChain_append.1 hg).2.2 _ hr now rfl
    omega
  · intro k y hy
    obtain ⟨hk, hle, hnext, hbefore⟩ := h.noted k y hy
    rw [hmarks]
    refine ⟨?_, hle.trans hnow, fun m hm => ?_, fun i m hi hm => ?_⟩
    · rw [List.length_append]
      omega
    · rcases hk.lt_or_eq with hlt | rfl
      · rw [List.getElem?_append_left hlt] at hm
        exact hnext m hm
      · rw [List.getElem?_concat_length] at hm
        cases hm
        exact hle.trans hnow
    · rw [List.getElem?_append_left (by omega)] at hm
      exact hbefore i m hi hm

theorem Sound.read (h : s.Sound unit) (hunit : 0 < unit) (hnow : s.time ≤ now) :
    (s.read unit now).Sound unit := by
  by_cases hmark : ∀ m ∈ s.marks.getLast?, m + unit ≤ now
  · exact h.read_marked hunit hnow hmark
  · push Not at hmark
    obtain ⟨m, hm, hlt⟩ := hmark
    exact h.read_kept hnow hm hlt

/-! ## Marks behind a note -/

/-- The last mark before a note, or the first reading if there is none. -/
theorem Sound.base_le (h : s.Sound unit) (hx : (k, x) ∈ s.notes) {m first : ℤ}
    (hm : s.marks[k - 1]? = some m) (hfirst : first ∈ s.readings.head?) : m ≤ max x first := by
  obtain ⟨-, -, -, hbefore⟩ := h.noted k x hx
  cases k with
  | zero =>
    rw [Nat.zero_sub, ← List.head?_eq_getElem?, h.head] at hm
    cases Option.mem_unique hfirst hm
    exact le_max_right ..
  | succ i => exact (hbefore i m rfl hm).trans (le_max_left ..)

/-- **The mark has been made** when it is over, however the clock has been read. -/
theorem Sound.marked (h : s.Sound unit) (hunit : 0 < unit) (hx : (k, x) ∈ s.notes)
    (hover : s.Over unit x n) : k - 1 + n < s.marks.length := by
  obtain ⟨g, first, r, hg, hfirst, hr, hle⟩ := hover
  by_contra hlen
  obtain ⟨m, hm, -, hlt⟩ := h.last r hr
  obtain ⟨hk, -⟩ := h.noted k x hx
  rw [Option.mem_def, List.getLast?_eq_getElem?] at hm
  obtain ⟨hpos, -⟩ := List.getElem?_eq_some_iff.1 hm
  have hbase := List.getElem?_eq_getElem (l := s.marks) (i := k - 1) (by omega)
  obtain ⟨j, hj⟩ : ∃ j, s.marks.length - 1 = k - 1 + j := Nat.exists_eq_add_of_le (by omega)
  rw [hj] at hm
  have hmul := le_add_mul (h.close g hg) hbase hm
  have hmax := h.base_le hx hbase hfirst
  -- no more than these units are behind the note
  have hjn : (j : ℤ) * (unit - 1 + g) ≤ (n - 1) * (unit - 1 + g) :=
    Int.mul_le_mul_of_nonneg_right (by omega) (by omega)
  linarith

end SampledClock
