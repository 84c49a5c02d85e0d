import Mathlib
import ScoreSequencer.Proofs.Binary64.Sums
/-!
# Where rounding overflows

In rounding, infinity stands for 2 ^ 1024. Halfway between it and the greatest finite
number lies `limit`, 2 ^ 1024 - 2 ^ 970. What is below is rounded to a finite number, and
the tie goes to infinity, which is the even one of the two. So a sum or a product of finite
numbers is finite just when the exact result is below the limit (`add_isFinite_iff`,
`mul_isFinite_iff`).
-/

namespace ScoreSequencer

/-- What is less than half a step above a whole number is not rounded up from it. -/
theorem roundHalfEven_le {num den k : Nat} (h : 2 * num < (2 * k + 1) * den) : roundHalfEven num den ≤ k := by
  have hden : 0 < den := Nat.pos_of_ne_zero (by rintro rfl; simp at h)
  have hdiv := Nat.div_add_mod num den
  rcases lt_trichotomy (num / den) k with hlt | rfl | hgt
  · exact (roundHalfEven_le_succ num den).trans hlt
  · have hrest : 2 * (num % den) < den := by nlinarith
    rw [roundHalfEven, if_pos hrest]
  · have : (k + 1) * den ≤ num := (Nat.mul_le_mul_right den hgt).trans (Nat.div_mul_le_self num den)
    nlinarith

namespace Binary64

variable {a x z : Binary64}

/-! ## The exact value -/

/-- The exact value of a finite number. -/
def value (x : Binary64) : ℚ := x.units / unitsInOne

/-- The least number that is rounded to infinity. -/
def limit : ℚ := 2 ^ 1024 - 2 ^ 970

/-- The same in units. -/
def limitUnits : Nat := (2 ^ 54 - 1) * 2 ^ 2044

theorem limit_eq : limit = limitUnits / unitsInOne := by
  have hunits : (unitsInOne : ℚ) = 2 ^ 1074 := by rw [unitsInOne_eq, Nat.cast_pow, Nat.cast_ofNat]
  have hlimit : (limitUnits : ℚ) = (2 ^ 54 - 1) * 2 ^ 2044 := by
    rw [limitUnits, Nat.cast_mul, Nat.cast_pow, Nat.cast_ofNat]
    norm_num
  rw [hunits, hlimit, eq_div_iff (pow_ne_zero _ two_ne_zero), limit, show 1024 = 54 + 970 from rfl,
    show 2044 = 970 + 1074 from rfl, pow_add, pow_add, ← mul_assoc, sub_one_mul]

theorem unitsInOne_cast_pos : (0 : ℚ) < unitsInOne := by exact_mod_cast unitsInOne_pos

/-! ## Rounding -/

theorem log2_lt {n k : Nat} (hk : 0 < k) (h : n < 2 ^ k) : n.log2 < k := by
  rcases Nat.eq_zero_or_pos n with rfl | hn
  · rwa [Nat.log2_zero]
  · exact (Nat.log2_lt hn.ne').2 h

theorem nearest_limitUnits : nearest limitUnits 1 = infinite := by decide +kernel

/-- A fraction is rounded to a finite magnitude just when it is below the limit. -/
theorem nearest_lt_infinite_iff {num den : Nat} (hden : 0 < den) :
    nearest num den < infinite ↔ num < limitUnits * den := by
  constructor
  · intro h
    by_contra hge
    have hmono : nearest limitUnits 1 ≤ nearest num den := nearest_mono one_pos hden (by omega)
    rw [nearest_limitUnits] at hmono
    omega
  · intro h
    rw [nearest_eq, infinite_eq]
    refine (min_le_left _ _).trans_lt ?_
    have hdiv : num / den < 2 ^ 2098 := by
      refine ((Nat.div_lt_iff_lt_mul hden).2 h).trans ?_
      rw [limitUnits, show 2098 = 54 + 2044 from rfl, pow_add]
      exact Nat.mul_lt_mul_of_pos_right (show 2 ^ 54 - 1 < 2 ^ 54 by decide) (pow_pos two_pos _)
    have hlog := log2_lt (by decide) hdiv
    rcases Nat.lt_or_ge ((num / den).log2 - 52) 2045 with hlow | hhigh
    · have := round_le_of_shift (n := num) (d := den) (s := (num / den).log2 - 52) (by omega)
      omega
    · -- In the last binade the fraction is below the middle of the step that leads out of it.
      rw [show (num / den).log2 - 52 = 2045 by omega]
      have hround : roundHalfEven num (den * 2 ^ 2045) ≤ 2 ^ 53 - 1 := by
        apply roundHalfEven_le
        calc 2 * num < 2 * (limitUnits * den) := by omega
          _ = (2 * (2 ^ 53 - 1) + 1) * (den * 2 ^ 2045) := by
            rw [limitUnits, pow_succ 2 2044]
            generalize 2 ^ 2044 = p
            ring
      omega

/-! ## Finite results -/

theorem Nonneg.value_eq (hx : x.Nonneg) : x.value = weight x.magnitude / unitsInOne := by
  rw [value, units, hx.positive, if_neg Bool.false_ne_true, Int.cast_natCast]

theorem Nonneg.value_nonneg (hx : x.Nonneg) : 0 ≤ x.value := by
  rw [hx.value_eq]
  positivity

/-- A whole number of units is rounded to a finite number just when it is below the limit. -/
theorem rounded_lt_infinite_iff (n : Int) : (rounded n).natAbs < infinite ↔ |(n / unitsInOne : ℚ)| < limit := by
  have habs : |(n : ℚ)| = (n.natAbs : ℚ) := by rw [Nat.cast_natAbs, Int.cast_abs]
  have hnear : (rounded n).natAbs = nearest n.natAbs 1 := by
    rw [rounded, natAbs_level]
    rfl
  rw [hnear, nearest_lt_infinite_iff one_pos, mul_one, abs_div, abs_of_pos unitsInOne_cast_pos, limit_eq,
    div_lt_div_iff_of_pos_right unitsInOne_cast_pos, habs, Nat.cast_lt]

theorem abs_value_lt (hx : x.isFinite) : |x.value| < limit := by
  refine (rounded_lt_infinite_iff x.units).1 ?_
  rw [rounded_units hx, natAbs_level]
  exact isFinite_iff.1 hx

/-- A sum of finite numbers is finite just when the exact sum is below the limit. -/
theorem add_isFinite_iff (ha : a.isFinite) (hx : x.isFinite) :
    (a + x).isFinite ↔ |a.value + x.value| < limit := by
  rw [isFinite_iff, ← natAbs_level, level_add ha hx, rounded_lt_infinite_iff, value, value, ← add_div]
  push_cast
  rfl

/-- Likewise a product of finite numbers from zero up. -/
theorem mul_isFinite_iff (hx : x.Nonneg) (hfin : x.isFinite) (hz : z.isPositive) :
    (x * z).isFinite ↔ x.value * z.value < limit := by
  obtain ⟨hsign, -, hzfin⟩ := of_isPositive hz
  have hznonneg : z.Nonneg := ⟨hsign, hzfin.le⟩
  have hone := unitsInOne_cast_pos
  rw [mul_eq hx hz, if_neg (by simp [isInfinite_eq_false (isFinite_iff.1 hfin)]), isFinite_iff]
  show nearest _ _ < _ ↔ _
  rw [nearest_lt_infinite_iff unitsInOne_pos, hx.value_eq, hznonneg.value_eq, limit_eq, div_mul_div_comm, ← div_div,
    div_lt_div_iff_of_pos_right hone, div_lt_iff₀ hone]
  exact_mod_cast Iff.rfl

/-- The quotient of small natural numbers is finite. -/
theorem div_ofNat_isFinite {n d : Nat} (hn : n < 2 ^ 53) (hd : d < 2 ^ 53) (hd0 : 0 < d) :
    (ofNat n / ofNat d).isFinite := by
  rw [div_ofNat hn hd hd0, isFinite_iff]
  show nearest _ _ < _
  rw [nearest_lt_infinite_iff (Nat.mul_pos hd0 unitsInOne_pos)]
  have hlimit : 2 ^ 53 * unitsInOne ≤ limitUnits := by
    rw [unitsInOne_eq, limitUnits, pow_add 2 970 1074, ← mul_assoc]
    refine Nat.mul_le_mul_right _ (Nat.le_trans ?_ (Nat.le_mul_of_pos_right _ (pow_pos two_pos _)))
    decide
  calc n * unitsInOne * unitsInOne < 2 ^ 53 * unitsInOne * unitsInOne := by
        exact Nat.mul_lt_mul_of_pos_right (Nat.mul_lt_mul_of_pos_right hn unitsInOne_pos) unitsInOne_pos
    _ ≤ limitUnits * (1 * unitsInOne) := by rw [one_mul]; exact Nat.mul_le_mul_right _ hlimit
    _ ≤ limitUnits * (d * unitsInOne) := Nat.mul_le_mul_left _ (Nat.mul_le_mul_right _ hd0)

/-- A sum is finite only if its second operand is, too. -/
theorem finite_of_add_right (ha : a.isFinite) (h : (a + x).isFinite) : x.isFinite := by
  rcases isFinite_or_isInfinite (number_of_add (isNaN_of_isFinite h)).2 with hxf | hxi
  · exact hxf
  · rwa [add_infinite ha hxi] at h

/-- What lies between finite numbers is finite. -/
theorem isFinite_of_le_of_le (ha : a.isFinite) (hax : a.le x) (hxz : x.le z) (hz : z.isFinite) : x.isFinite := by
  rw [finite_iff] at ha hz ⊢
  have hlower := (le_iff.1 hax).2.2
  have hupper := (le_iff.1 hxz).2.2
  omega

end Binary64

end ScoreSequencer
