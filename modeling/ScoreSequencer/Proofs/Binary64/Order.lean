import Mathlib
import ScoreSequencer.Binary64.Basic
/-!
# Classes and ranks of binary64 data

The rank of the total order tells every two bit patterns apart. Numbers are the
data whose magnitude is at most infinity; their ranks lie between those of the
two infinities.
-/

namespace ScoreSequencer.Binary64

/-! ## Ranks -/

theorem rank_injective {x y : Binary64} (h : x.rank = y.rank) : x = y := by
  obtain ⟨xs, xm, hx⟩ := x
  obtain ⟨ys, ym, hy⟩ := y
  simp only [rank] at h
  split at h <;> split at h <;> simp_all <;> omega

theorem negative_iff {x : Binary64} : x.negative = true ↔ x.rank < 0 := by
  unfold rank
  split_ifs with h
  · simp only [h, true_iff]
    omega
  · simp only [h, Bool.false_eq_true, false_iff]
    omega

theorem rank_bounds {x : Binary64} (h : x.magnitude ≤ infinite) :
    -(infinite : Int) - 1 ≤ x.rank ∧ x.rank ≤ infinite := by
  unfold rank
  split_ifs <;> omega

theorem rank_of_infinite {x : Binary64} (h : x.magnitude = infinite) :
    x.rank = infinite ∨ x.rank = -(infinite : Int) - 1 := by
  unfold rank
  split_ifs
  · exact .inr (by rw [h])
  · exact .inl (by rw [h])

/-! ## Classes of numbers -/

/-- A number from the positive zero up, the infinite one included. -/
structure Nonneg (x : Binary64) : Prop where
  positive : x.negative = false
  number : x.magnitude ≤ infinite

theorem isNaN_eq_false {x : Binary64} : x.isNaN = false ↔ x.magnitude ≤ infinite := by
  simp [isNaN]

theorem isFinite_iff {x : Binary64} : x.isFinite ↔ x.magnitude < infinite := by
  simp [isFinite]

theorem isNaN_of_isFinite {x : Binary64} (h : x.isFinite) : x.isNaN = false :=
  isNaN_eq_false.2 (isFinite_iff.1 h).le

theorem isInfinite_eq_false {x : Binary64} (h : x.magnitude < infinite) : x.isInfinite = false := by
  simp [isInfinite, h.ne]

theorem Nonneg.rank_eq {x : Binary64} (h : x.Nonneg) : x.rank = x.magnitude := by
  simp [rank, h.positive]

/-- On numbers the numeric order follows the total order. -/
theorem le_of_rank {x y : Binary64} (hx : x.isNaN = false) (hy : y.isNaN = false) (h : x.rank ≤ y.rank) : x.le y := by
  have hlevel : x.level ≤ y.level := by
    unfold rank at h
    unfold level
    split_ifs at h ⊢ <;> omega
  simp [le, hx, hy, hlevel]

/-- A strictly positive finite number, taken apart. -/
theorem of_isPositive {x : Binary64} (h : x.isPositive) :
    x.negative = false ∧ 0 < x.magnitude ∧ x.magnitude < infinite := by
  simp only [isPositive, isFinite, lt, level, zero, Bool.and_eq_true, decide_eq_true_eq] at h
  obtain ⟨hfin, -, hpos⟩ := h
  have hlevel : (0 : Int) < if x.negative then -(x.magnitude : Int) else x.magnitude := by simpa using hpos
  split_ifs at hlevel with hneg
  · omega
  · exact ⟨by simpa using hneg, by omega, hfin⟩

end ScoreSequencer.Binary64
