import Mathlib
import ScoreSequencer.Proofs.Binary64.Order
import ScoreSequencer.Proofs.Binary64.Rounding
/-!
# Arithmetic keeps the order

Sums are monotone in an operand in the total order of bit patterns, and products
with a positive number are monotone on `Nonneg` numbers. Quotients of small
natural numbers are ordered as the fractions are, since both are exact before
the division rounds.
-/

namespace ScoreSequencer.Binary64

/-! ## Sums -/

theorem units_mono {x y : Binary64} (h : x.rank ≤ y.rank) : x.units ≤ y.units := by
  unfold rank at h
  unfold units
  split_ifs at h ⊢ with hx hy hy
  · exact Int.neg_le_neg (by exact_mod_cast weight_mono (by omega))
  · omega
  · omega
  · exact_mod_cast weight_mono (by omega)

/-- A whole number of units that is not zero, rounded. -/
theorem rank_ofUnits_mono {m n : Int} (h : m ≤ n) :
    (ofUnits (m < 0) m.natAbs 1).rank ≤ (ofUnits (n < 0) n.natAbs 1).rank := by
  rcases lt_or_ge m 0 with hm | hm <;> rcases lt_or_ge n 0 with hn | hn
  · have hle : nearest n.natAbs 1 ≤ nearest m.natAbs 1 := nearest_mono one_pos one_pos (by omega)
    simp only [rank, ofUnits, hm, hn, decide_true, if_true]
    omega
  · simp only [rank, ofUnits, hm, hn.not_gt, decide_true, decide_false, if_true, Bool.false_eq_true, if_false]
    omega
  · omega
  · have hle : nearest m.natAbs 1 ≤ nearest n.natAbs 1 := nearest_mono one_pos one_pos (by omega)
    simp only [rank, ofUnits, hm.not_gt, hn.not_gt, decide_false, Bool.false_eq_true, if_false]
    omega

theorem rank_ofUnits_neg {n : Int} (h : n < 0) : (ofUnits (n < 0) n.natAbs 1).rank < 0 := by
  simp only [rank, ofUnits, h, decide_true, if_true]
  omega

theorem rank_ofUnits_nonneg {n : Int} (h : 0 ≤ n) : 0 ≤ (ofUnits (n < 0) n.natAbs 1).rank := by
  simp [rank, ofUnits, h.not_gt]

/-- The sum of finite numbers, as a rank: the exact sum of the units is rounded,
an exact zero taking its sign from the operands. -/
theorem rank_addNumbers {a x : Binary64} (ha : a.magnitude < infinite) (hx : x.magnitude < infinite) :
    (addNumbers a x).rank =
      if a.units + x.units = 0 then (if a.negative && x.negative then -1 else 0)
      else (ofUnits (a.units + x.units < 0) (a.units + x.units).natAbs 1).rank := by
  unfold addNumbers
  rw [isInfinite_eq_false ha, isInfinite_eq_false hx]
  simp only [Bool.false_eq_true, if_false]
  split
  · cases a.negative && x.negative <;> simp [rank, zero]
  · rfl

theorem addNumbers_infinite {a x : Binary64} (ha : a.magnitude < infinite) (hx : x.isInfinite) :
    addNumbers a x = x := by
  unfold addNumbers
  rw [isInfinite_eq_false ha, if_neg (by simp), if_pos hx]

theorem addNumbers_number {a x : Binary64} (ha : a.magnitude < infinite) (hx : x.magnitude ≤ infinite) :
    (addNumbers a x).magnitude ≤ infinite := by
  unfold addNumbers
  rw [isInfinite_eq_false ha]
  simp only [Bool.false_eq_true, if_false]
  split_ifs
  · exact hx
  · exact Nat.zero_le _
  · exact nearest_le_infinite _ _

theorem addNumbers_mono_of_finite {a x y : Binary64} (ha : a.magnitude < infinite) (hx : x.magnitude < infinite)
    (hy : y.magnitude < infinite) (h : x.rank ≤ y.rank) : (addNumbers a x).rank ≤ (addNumbers a y).rank := by
  have hunits := units_mono h
  rw [rank_addNumbers ha hx, rank_addNumbers ha hy]
  by_cases hx0 : a.units + x.units = 0 <;> by_cases hy0 : a.units + y.units = 0
  · -- Both sums are exact zeros: the sign of the second operand may only turn from minus to plus.
    rw [if_pos hx0, if_pos hy0]
    have hsign : y.negative = true → x.negative = true := fun hy => negative_iff.2 (h.trans_lt (negative_iff.1 hy))
    cases a.negative <;> cases hxn : x.negative <;> cases hyn : y.negative <;> simp_all
  · rw [if_pos hx0, if_neg hy0]
    refine le_trans ?_ (rank_ofUnits_nonneg (by omega))
    split_ifs <;> omega
  · rw [if_neg hx0, if_pos hy0]
    have hneg := rank_ofUnits_neg (n := a.units + x.units) (by omega)
    split_ifs <;> omega
  · rw [if_neg hx0, if_neg hy0]
    exact rank_ofUnits_mono (by omega)

theorem add_eq_addNumbers {a x : Binary64} (ha : a.isFinite) (hx : x.isNaN = false) : a + x = addNumbers a x := by
  show lift addNumbers a x = _
  rw [lift, isNaN_of_isFinite ha, hx, if_neg (by simp), if_neg (by simp)]

/-- Adding to a finite number keeps the total order. -/
theorem add_mono {a x y : Binary64} (ha : a.isFinite) (hx : x.isNaN = false) (hy : y.isNaN = false)
    (h : x.rank ≤ y.rank) : (a + x).rank ≤ (a + y).rank := by
  rw [add_eq_addNumbers ha hx, add_eq_addNumbers ha hy]
  have hafin := isFinite_iff.1 ha
  rw [isNaN_eq_false] at hx hy
  have hbx := rank_bounds hx
  have hby := rank_bounds hy
  rcases hx.lt_or_eq with hxf | hxi
  · rcases hy.lt_or_eq with hyf | hyi
    · exact addNumbers_mono_of_finite hafin hxf hyf h
    · have hbsum := rank_bounds (addNumbers_number hafin hx)
      rw [addNumbers_infinite (x := y) hafin (by simp [isInfinite, hyi])]
      rcases rank_of_infinite hyi with hr | hr
      · omega
      · have hxy := rank_injective (le_antisymm h (by omega))
        exact absurd hyi (hxy ▸ hxf.ne)
  · have hbsum := rank_bounds (addNumbers_number hafin hy)
    rw [addNumbers_infinite hafin (by simp [isInfinite, hxi])]
    rcases rank_of_infinite hxi with hr | hr
    · obtain rfl := rank_injective (le_antisymm h (by omega))
      rw [addNumbers_infinite hafin (by simp [isInfinite, hxi])]
    · omega

theorem add_isNaN {a x : Binary64} (ha : a.isFinite) (hx : x.isNaN = false) : (a + x).isNaN = false := by
  rw [add_eq_addNumbers ha hx, isNaN_eq_false]
  exact addNumbers_number (isFinite_iff.1 ha) (isNaN_eq_false.1 hx)

/-- A finite number is the rounding of its own units. -/
theorem rank_ofUnits_units {x : Binary64} (hx : x.magnitude < infinite) (h : x.units ≠ 0) :
    (ofUnits (x.units < 0) x.units.natAbs 1).rank = x.rank := by
  unfold units at h ⊢
  have hround := nearest_weight hx
  by_cases hneg : x.negative
  · simp only [hneg, if_true] at h ⊢
    have hlt : -(weight x.magnitude : Int) < 0 := by omega
    simp only [rank, ofUnits, hneg, hlt, decide_true, if_true, Int.natAbs_neg, Int.natAbs_natCast, hround]
  · simp only [hneg, Bool.false_eq_true, if_false] at h ⊢
    have hge : ¬(weight x.magnitude : Int) < 0 := by omega
    simp only [rank, ofUnits, hneg, hge, decide_false, Bool.false_eq_true, if_false, Int.natAbs_natCast, hround]

/-- Adding zero keeps a number, but for the sign of a zero, which may only turn from minus to plus. -/
theorem rank_le_add_zero {x : Binary64} (hx : x.magnitude < infinite) : x.rank ≤ (addNumbers x zero).rank := by
  have hzero : zero.units = 0 := by simp [units, zero, weight_eq]
  rw [rank_addNumbers hx (by decide), hzero, Int.add_zero]
  by_cases h : x.units = 0
  · have hmag : x.magnitude = 0 := by
      by_contra hne
      have := weight_pos (Nat.pos_of_ne_zero hne)
      unfold units at h
      split_ifs at h <;> omega
    simp only [h, if_true, zero, Bool.and_false, Bool.false_eq_true, if_false, rank, hmag]
    split_ifs <;> simp
  · rw [if_neg h, rank_ofUnits_units hx h]

/-- Adding a number from zero up does not lead below a finite number. -/
theorem rank_le_add {a x : Binary64} (ha : a.isFinite) (hx : x.Nonneg) : a.rank ≤ (a + x).rank := by
  have hzero : zero.isNaN = false := by decide
  refine (rank_le_add_zero (isFinite_iff.1 ha)).trans ?_
  rw [← add_eq_addNumbers ha hzero]
  refine add_mono ha hzero (isNaN_eq_false.2 hx.number) ?_
  rw [hx.rank_eq]
  exact Int.natCast_nonneg _

/-! ## Products and quotients -/

theorem ofUnits_nonneg (num den : Nat) : (ofUnits false num den).Nonneg :=
  ⟨rfl, nearest_le_infinite num den⟩

theorem mul_eq {x z : Binary64} (hx : x.Nonneg) (hz : z.isPositive) : x * z =
    if x.isInfinite then infinity false else ofUnits false (weight x.magnitude * weight z.magnitude) unitsInOne := by
  obtain ⟨hzneg, hzpos, hzfin⟩ := of_isPositive hz
  show lift mulNumbers x z = _
  rw [lift, isNaN_eq_false.2 hx.number, isNaN_eq_false.2 hzfin.le, if_neg (by simp), if_neg (by simp)]
  unfold mulNumbers
  rw [hx.positive, hzneg, isInfinite_eq_false hzfin]
  have hz0 : z.isZero = false := by simp [isZero, hzpos.ne']
  cases hxi : x.isInfinite with
  | true =>
    have hx0 : x.isZero = false := by
      simp only [isInfinite, decide_eq_true_eq] at hxi
      simp [isZero, hxi, infinite]
    simp [hz0, hx0]
  | false => simp

theorem mul_nonneg {x z : Binary64} (hx : x.Nonneg) (hz : z.isPositive) : (x * z).Nonneg := by
  rw [mul_eq hx hz]
  split
  · exact ⟨rfl, le_rfl⟩
  · exact ofUnits_nonneg _ _

/-- Multiplying by a positive number keeps the order. -/
theorem mul_mono {x y z : Binary64} (hx : x.Nonneg) (hy : y.Nonneg) (hz : z.isPositive)
    (h : x.magnitude ≤ y.magnitude) : (x * z).magnitude ≤ (y * z).magnitude := by
  by_cases hyi : y.isInfinite
  · rw [mul_eq hy hz, if_pos hyi]
    exact (mul_nonneg hx hz).number
  · have hxi : ¬x.isInfinite := by
      have hxn := hx.number
      have hyn := hy.number
      simp only [isInfinite, decide_eq_true_eq] at hyi ⊢
      omega
    rw [mul_eq hx hz, if_neg hxi, mul_eq hy hz, if_neg hyi]
    refine nearest_mono unitsInOne_pos unitsInOne_pos ?_
    exact Nat.mul_le_mul_right _ (Nat.mul_le_mul_right _ (weight_mono h))

/-- The quotient of small natural numbers rounds their exact quotient. -/
theorem div_ofNat {n d : Nat} (hn : n < 2 ^ 53) (hd : d < 2 ^ 53) (hd0 : 0 < d) :
    ofNat n / ofNat d = ofUnits false (n * unitsInOne * unitsInOne) (d * unitsInOne) := by
  obtain ⟨hnw, hnfin⟩ := weight_ofNat hn
  obtain ⟨hdw, hdfin⟩ := weight_ofNat hd
  have hdm : (ofNat d).isZero = false := by
    rw [isZero, decide_eq_false_iff_not]
    intro h0
    rw [h0] at hdw
    have hpos : 0 < d * unitsInOne := Nat.mul_pos hd0 unitsInOne_pos
    simp only [weight_eq, Nat.two_pow_pos, if_true] at hdw
    omega
  show lift divNumbers _ _ = _
  rw [lift, isNaN_eq_false.2 hnfin.le, isNaN_eq_false.2 hdfin.le, if_neg (by simp), if_neg (by simp)]
  unfold divNumbers
  rw [isInfinite_eq_false hnfin, isInfinite_eq_false hdfin, hdm, hnw, hdw]
  rfl

theorem div_ofNat_mono {a b c d : Nat} (ha : a < 2 ^ 53) (hb : b < 2 ^ 53) (hc : c < 2 ^ 53) (hd : d < 2 ^ 53)
    (hb0 : 0 < b) (hd0 : 0 < d) (h : a * d ≤ c * b) :
    (ofNat a / ofNat b).magnitude ≤ (ofNat c / ofNat d).magnitude := by
  rw [div_ofNat ha hb hb0, div_ofNat hc hd hd0]
  refine nearest_mono (Nat.mul_pos hb0 unitsInOne_pos) (Nat.mul_pos hd0 unitsInOne_pos) ?_
  calc a * unitsInOne * unitsInOne * (d * unitsInOne) = a * d * (unitsInOne * unitsInOne * unitsInOne) := by ring
    _ ≤ c * b * (unitsInOne * unitsInOne * unitsInOne) := Nat.mul_le_mul_right _ h
    _ = c * unitsInOne * unitsInOne * (b * unitsInOne) := by ring

end ScoreSequencer.Binary64
