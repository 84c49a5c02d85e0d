import Mathlib
import ScoreSequencer.Proofs.Ratio.Exact
/-!
# When comparisons are refused

Ratios of different signs are compared by their signs. Those of one sign are
multiplied crosswise, and if the width holds both products (`Comparable`) the answer
is the order of the exact values, else an overflow (`cmp_eq`). This also goes for a
ratio and itself: they compare as equal only if the width holds the product of its
numerator and its denominator (`cmp_eq_eq_iff`). `cmp_orders` says that the answers are
those of an order, and that the greater and the lesser of two ratios follow them.
-/

namespace ScoreSequencer.Ratio

variable {w : Width} {x y : Ratio w}

/-- The width holds all that is computed in order to compare two ratios. -/
def Comparable (x y : Ratio w) : Prop :=
  x.numer.sign = y.numer.sign → w.Holds (x.numer * y.denom) ∧ w.Holds (y.numer * x.denom)

instance : Decidable (Comparable x y) := inferInstanceAs (Decidable (_ → _))

theorem cmp_eq_error {fault : Fault} :
    x.cmp y = .error fault ↔ fault = .overflow .ratioComparison ∧ ¬Comparable x y := by
  unfold cmp Comparable
  by_cases hsign : x.numer.sign = y.numer.sign
  · rw [if_neg (not_not.2 hsign), Width.narrow_bind]
    simp only [Width.narrow_bind, hsign, true_implies]
    split_ifs with hleft hright
    · simp [hleft, hright, return_ne_error]
    · simp [hright, eq_comm]
    · simp [hleft, eq_comm]
  · simp [hsign]

/-- A comparison that is not refused answers with the order of the exact values. -/
theorem cmp_eq (hx : x.Canonical) (hy : y.Canonical) : x.cmp y =
    if Comparable x y then .ok (compare x.value y.value) else .error (.overflow .ratioComparison) := by
  split
  · rename_i hcomparable
    cases h : x.cmp y with
    | error fault => exact absurd hcomparable (cmp_eq_error.1 h).2
    | ok o => rw [cmp_exact hx hy h]
  · rename_i hcomparable
    exact cmp_eq_error.2 ⟨rfl, hcomparable⟩

/-- The greater of two ratios is refused with their comparison. -/
theorem max_eq_error {fault : Fault} :
    x.max y = .error fault ↔ fault = .overflow .ratioComparison ∧ ¬Comparable x y := by
  rw [max, step_error, ← cmp_eq_error]
  refine or_iff_left ?_
  rintro ⟨o, -, h⟩
  cases o <;> exact return_ne_error h

/-- So is the lesser of them. -/
theorem min_eq_error {fault : Fault} :
    x.min y = .error fault ↔ fault = .overflow .ratioComparison ∧ ¬Comparable x y := by
  rw [min, step_error, ← cmp_eq_error]
  refine or_iff_left ?_
  rintro ⟨o, -, h⟩
  cases o <;> exact return_ne_error h

/-- Any ratio can be compared with zero, since nothing is multiplied unless both are zero. -/
theorem comparable_zero (x : Ratio w) : Comparable zero x := by
  intro hsign
  have hnumer : x.numer = 0 := Int.sign_eq_zero_iff_zero.1 hsign.symm
  simp [hnumer, zero, ofInt, Width.holds_zero]

/-! ## Equal ratios -/

theorem comparable_self : Comparable x x ↔ w.Holds (x.numer * x.denom) := by
  simp [Comparable]

/-- Only equal ratios compare as equal, and they do just when the width holds the
product of their numerator and denominator. -/
theorem cmp_eq_eq_iff (hx : x.Canonical) (hy : y.Canonical) :
    x.cmp y = .ok .eq ↔ x = y ∧ w.Holds (x.numer * x.denom) := by
  rw [cmp_eq hx hy]
  constructor
  · intro h
    split at h
    · rename_i hcomparable
      obtain rfl := hx.eq_of_value hy (compare_eq_iff_eq.1 (Except.ok.inj h))
      exact ⟨rfl, comparable_self.1 hcomparable⟩
    · cases h
  · rintro ⟨rfl, hself⟩
    rw [if_pos (comparable_self.2 hself), compare_eq_iff_eq.2 rfl]

theorem cmp_self (hx : x.Canonical) : x.cmp x =
    if w.Holds (x.numer * x.denom) then .ok .eq else .error (.overflow .ratioComparison) := by
  simp only [cmp_eq hx hx, comparable_self, compare_eq_iff_eq.2 rfl]

theorem max_self (hx : x.Canonical) : x.max x =
    if w.Holds (x.numer * x.denom) then .ok x else .error (.overflow .ratioComparison) := by
  rw [max, cmp_self hx]
  split <;> rfl

theorem min_self (hx : x.Canonical) : x.min x =
    if w.Holds (x.numer * x.denom) then .ok x else .error (.overflow .ratioComparison) := by
  rw [min, cmp_self hx]
  split <;> rfl

/-! ## The order of the answers -/

variable {z : Ratio w} {o p q : Ordering}

theorem comparable_comm : Comparable y x ↔ Comparable x y := by
  unfold Comparable
  rw [eq_comm, and_comm]

/-- The same two ratios the other way round. -/
theorem cmp_swap (hx : x.Canonical) (hy : y.Canonical) : y.cmp x = (x.cmp y).map Ordering.swap := by
  rw [cmp_eq hy hx, cmp_eq hx hy]
  simp only [comparable_comm]
  split_ifs
  · exact congrArg Except.ok Std.OrientedOrd.eq_swap
  · rfl

/-- Two answers that do not contradict each other give the third one, if there is one. -/
theorem cmp_trans (hx : x.Canonical) (hy : y.Canonical) (hz : z.Canonical) (hxy : x.cmp y = .ok o)
    (hyz : y.cmp z = .ok p) (hxz : x.cmp z = .ok q) (h : o = p ∨ o = .eq ∨ p = .eq) : q = o.then p := by
  have ho := cmp_exact hx hy hxy
  have hp := cmp_exact hy hz hyz
  rw [cmp_exact hx hz hxz]
  rcases h with rfl | rfl | rfl
  · rw [Ordering.then_self]
    cases o with
    | lt => exact compare_lt_iff_lt.2 ((compare_lt_iff_lt.1 ho.symm).trans (compare_lt_iff_lt.1 hp.symm))
    | eq => exact compare_eq_iff_eq.2 ((compare_eq_iff_eq.1 ho.symm).trans (compare_eq_iff_eq.1 hp.symm))
    | gt => exact compare_gt_iff_gt.2 ((compare_gt_iff_gt.1 hp.symm).trans (compare_gt_iff_gt.1 ho.symm))
  · rw [compare_eq_iff_eq.1 ho.symm, ← hp]
    rfl
  · rw [← compare_eq_iff_eq.1 hp.symm, ← ho]
    cases o <;> rfl

theorem max_bounds (hx : x.Canonical) (hy : y.Canonical) (h : x.max y = .ok z) :
    (z = x ∨ z = y) ∧ x.value ≤ z.value ∧ y.value ≤ z.value := by
  rw [(max_exact hx hy h).2, max_eq hx hy h]
  refine ⟨?_, le_max_left _ _, le_max_right _ _⟩
  split_ifs
  · exact .inr rfl
  · exact .inl rfl

theorem min_bounds (hx : x.Canonical) (hy : y.Canonical) (h : x.min y = .ok z) :
    (z = x ∨ z = y) ∧ z.value ≤ x.value ∧ z.value ≤ y.value := by
  rw [(min_exact hx hy h).2, min_eq hx hy h]
  refine ⟨?_, min_le_left _ _, min_le_right _ _⟩
  split_ifs
  · exact .inr rfl
  · exact .inl rfl

/-- Where comparisons answer, they answer with the order of the exact values, and so they
are reversed when the ratios change places and are transitive. Refused are ratios of the same
sign of which the width does not hold both products, the two ways round alike, and always as
an overflow of the comparison. The greater and the lesser of two ratios are refused just when
the comparison is, and else are one of them and bound both. -/
theorem cmp_orders (hx : x.Canonical) (hy : y.Canonical) :
    (∀ o, x.cmp y = .ok o → o = compare x.value y.value) ∧
    (∀ fault, x.cmp y = .error fault ↔ fault = .overflow .ratioComparison ∧
      x.numer.sign = y.numer.sign ∧ ¬(w.Holds (x.numer * y.denom) ∧ w.Holds (y.numer * x.denom))) ∧
    y.cmp x = (x.cmp y).map Ordering.swap ∧
    (∀ z o p q, z.Canonical → x.cmp y = .ok o → y.cmp z = .ok p → x.cmp z = .ok q →
      o = p ∨ o = .eq ∨ p = .eq → q = o.then p) ∧
    (∀ fault, x.max y = .error fault ↔ x.cmp y = .error fault) ∧
    (∀ z, x.max y = .ok z → (z = x ∨ z = y) ∧ x.value ≤ z.value ∧ y.value ≤ z.value) ∧
    (∀ fault, x.min y = .error fault ↔ x.cmp y = .error fault) ∧
    ∀ z, x.min y = .ok z → (z = x ∨ z = y) ∧ z.value ≤ x.value ∧ z.value ≤ y.value := by
  refine ⟨fun o => cmp_exact hx hy, fun fault => ?_, cmp_swap hx hy, fun z o p q hz hxy hyz hxz => ?_,
    fun fault => ?_, fun z => max_bounds hx hy, fun fault => ?_, fun z => min_bounds hx hy⟩
  · rw [cmp_eq_error, Comparable, Classical.not_imp]
  · exact cmp_trans hx hy hz hxy hyz hxz
  · rw [max_eq_error, cmp_eq_error]
  · rw [min_eq_error, cmp_eq_error]

/-- In eight bits `-127/3` is below `1/9` and this is below `13/11`, so `-127/3` is below `13/11`
although the width does not hold their products. Nor does it hold those of `12/11` and `13/11`,
whose signs do not differ. -/
theorem cmp_orders_edge :
    (⟨-127, 3⟩ : Ratio .w8).Canonical ∧ (⟨1, 9⟩ : Ratio .w8).Canonical ∧ (⟨12, 11⟩ : Ratio .w8).Canonical ∧
    (⟨13, 11⟩ : Ratio .w8).Canonical ∧
    cmp (w := .w8) ⟨-127, 3⟩ ⟨13, 11⟩ = .ok .lt ∧ cmp (w := .w8) ⟨13, 11⟩ ⟨-127, 3⟩ = .ok .gt ∧
    cmp (w := .w8) ⟨12, 11⟩ ⟨13, 11⟩ = .error (.overflow .ratioComparison) ∧
    max (w := .w8) ⟨12, 11⟩ ⟨13, 11⟩ = .error (.overflow .ratioComparison) := by
  have hlow : (⟨-127, 3⟩ : Ratio .w8).Canonical := by decide
  have hmiddle : (⟨1, 9⟩ : Ratio .w8).Canonical := by decide
  have hnear : (⟨12, 11⟩ : Ratio .w8).Canonical := by decide
  have hhigh : (⟨13, 11⟩ : Ratio .w8).Canonical := by decide
  obtain ⟨-, -, -, htrans, -⟩ := cmp_orders hlow hmiddle
  obtain ⟨-, hrefused, hswap, -⟩ := cmp_orders hlow hhigh
  obtain ⟨-, hoverflow, -, -, hmax, -⟩ := cmp_orders hnear hhigh
  have houter : cmp (w := .w8) ⟨-127, 3⟩ ⟨13, 11⟩ = .ok .lt := by
    cases h : cmp (w := .w8) ⟨-127, 3⟩ ⟨13, 11⟩ with
    | error fault => exact absurd ((hrefused fault).1 h).2.1 (by decide)
    | ok q => rw [htrans _ .lt .lt q hhigh (by decide +kernel) (by decide +kernel) h (.inl rfl), Ordering.then_self]
  have hproducts := (hoverflow (.overflow .ratioComparison)).2 ⟨rfl, rfl, by decide⟩
  rw [houter] at hswap
  exact ⟨hlow, hmiddle, hnear, hhigh, houter, hswap, hproducts, (hmax _).2 hproducts⟩

end ScoreSequencer.Ratio
