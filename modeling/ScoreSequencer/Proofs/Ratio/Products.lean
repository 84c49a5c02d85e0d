import Mathlib
import ScoreSequencer.Proofs.Ratio.LowestTerms
/-!
# Products and quotients

Each numerator is divided by what it shares with the other denominator before anything
is multiplied, so the two products are the lowest terms of the result already
(`mul_terms`). A product is therefore refused only if the width cannot hold it
(`mul_settles`). A quotient is the product with the divisor turned upside down, and that
fails for zero and for the least numerator alone (`div_settles`).
-/

namespace ScoreSequencer.Ratio

variable {w : Width} {x y z : Ratio w}

/-! ## Products -/

/-- After both reductions nothing is left to cancel: each factor above is coprime to each
factor below, either since the ratios are in lowest terms or since a divisor was taken out. -/
theorem cross_coprime {a b c e g k : Int} (hx : Int.gcd (a * g) (e * k) = 1) (hy : Int.gcd (c * k) (b * g) = 1)
    (hab : Int.gcd a b = 1) (hce : Int.gcd c e = 1) : Int.gcd (a * c) (e * b) = 1 := by
  rw [← Int.isCoprime_iff_gcd_eq_one] at *
  have hae : IsCoprime a e := hx.of_mul_left_left.of_mul_right_left
  have hcb : IsCoprime c b := hy.of_mul_left_left.of_mul_right_left
  exact (hae.mul_right hab).mul_left (hce.mul_right hcb)

theorem cross_value {a b c e g k : ℚ} (hg : g ≠ 0) (hk : k ≠ 0) :
    a * g / (e * k) * (c * k / (b * g)) = a * c / (e * b) := by
  field_simp

/-- The products of what is left are the lowest terms of the result. -/
theorem mul_terms (hx : x.Canonical) (hy : y.Canonical) :
    (x.value * y.value).num =
      x.numer.tdiv (Int.gcd x.numer y.denom) * y.numer.tdiv (Int.gcd y.numer x.denom) ∧
    ((x.value * y.value).den : Int) =
      x.denom.tdiv (Int.gcd y.numer x.denom) * y.denom.tdiv (Int.gcd x.numer y.denom) := by
  obtain ⟨hx0, hxcop, -, -⟩ := hx
  obtain ⟨hy0, hycop, -, -⟩ := hy
  have hg0 := Int.gcd_pos_of_ne_zero_right x.numer hy0.ne'
  have hk0 := Int.gcd_pos_of_ne_zero_right y.numer hx0.ne'
  obtain ⟨a, b, hab, hxn, hyd⟩ := Int.exists_gcd_one hg0
  obtain ⟨c, e, hce, hyn, hxd⟩ := Int.exists_gcd_one hk0
  unfold value
  generalize Int.gcd x.numer y.denom = g at *
  generalize Int.gcd y.numer x.denom = k at *
  rw [hxd] at hx0
  rw [hyd] at hy0
  rw [hxn, hxd] at hxcop
  rw [hyn, hyd] at hycop
  have hcop := cross_coprime hxcop hycop hab hce
  have hpos : 0 < e * b := mul_pos (pos_of_mul_pos_left hx0 (Int.natCast_nonneg k))
    (pos_of_mul_pos_left hy0 (Int.natCast_nonneg g))
  rw [hxn, hyd, hyn, hxd, Int.mul_tdiv_cancel _ (by omega), Int.mul_tdiv_cancel _ (by omega),
    Int.mul_tdiv_cancel _ (by omega), Int.mul_tdiv_cancel _ (by omega)]
  have hval : ((a * g : Int) : ℚ) / (e * k : Int) * ((c * k : Int) / (b * g : Int)) =
      (a * c : Int) / (e * b : Int) := by
    push_cast
    exact cross_value (by exact_mod_cast hg0.ne') (by exact_mod_cast hk0.ne')
  rw [hval]
  exact ⟨Rat.num_div_eq_of_coprime hpos hcop, Rat.den_div_eq_of_coprime hpos hcop⟩

/-- Neither divisor is refused, since each is sought beside a denominator. -/
theorem mul_eq (hx : x.Canonical) (hy : y.Canonical) : x.mul y =
    if w.Represents (x.value * y.value) then .ok (ofRat (x.value * y.value))
    else .error (.overflow .ratioMultiplication) := by
  obtain ⟨hnum, hden⟩ := mul_terms hx hy
  rw [mul, Width.gcd_of_pos hx.holds_numer hy.holds_denom hy.denom_pos, step_of_ok,
    Width.gcd_of_pos hy.holds_numer hx.holds_denom hx.denom_pos, step_of_ok, ← hnum, ← hden, Width.narrow_terms]
  split_ifs with hfits
  · exact (ofRat_canonical hfits).make_self
  · rfl

theorem mul_exact (hx : x.Canonical) (hy : y.Canonical) (h : x.mul y = .ok z) :
    z.Canonical ∧ z.value = x.value * y.value :=
  (((Settles.of_eq (mul_eq hx hy)).exact z).1 h).2

/-! ## Quotients -/

theorem recip_exact (hx : x.Canonical) (h : x.recip = .ok z) :
    z.Canonical ∧ x.value ≠ 0 ∧ z.value = x.value⁻¹ := by
  obtain ⟨hcan, hval⟩ := make_exact hx.holds_denom hx.holds_numer h
  refine ⟨hcan, fun hzero => make_ne_zero h (hx.value_eq_zero.1 hzero), ?_⟩
  rw [hval, value, inv_div]

/-- Only the least numerator cannot become a denominator. -/
theorem represents_inv (hx : x.Canonical) (hx0 : x.numer ≠ 0) : w.Represents x.value⁻¹ ↔ x.numer ≠ w.least := by
  have hleast := Width.least_lt (w := w)
  have hdenom := hx.denom_pos
  rw [value, inv_div]
  rcases lt_or_gt_of_ne hx0 with hneg | hpos
  · rw [represents_div_of_neg hx.holds_denom hx.holds_numer hneg (Int.gcd_comm _ _ ▸ hx.coprime)]
    omega
  · exact iff_of_true (represents_div hx.holds_denom hx.holds_numer hpos) (by omega)

theorem recip_eq (hx : x.Canonical) (hx0 : x.numer ≠ 0) : x.recip =
    if x.numer = w.least then .error (.overflow .ratioSign) else .ok (ofRat x.value⁻¹) := by
  have hleast := Width.least_lt (w := w)
  have hdenom := hx.denom_pos
  have hstuck : ¬(x.denom ≠ 0 ∧ w.Stuck x.denom x.numer) := by
    simp only [Width.Stuck]
    omega
  have hval : (x.denom : ℚ) / x.numer = x.value⁻¹ := by rw [value, inv_div]
  rw [recip, make_eq hx.holds_denom hx.holds_numer, if_neg hx0, if_neg hstuck, hval]
  simp only [represents_inv hx hx0, ite_not]

/-- A quotient is a product, unless the divisor cannot be turned upside down. -/
theorem div_eq (hx : x.Canonical) (hy : y.Canonical) : x.div y =
    if y.numer = 0 then .error .divisionByZero
    else if y.numer = w.least then .error (.overflow .ratioSign)
    else if w.Represents (x.value / y.value) then .ok (ofRat (x.value / y.value))
    else .error (.overflow .ratioMultiplication) := by
  simp only [div, isZero, decide_eq_true_eq]
  by_cases hy0 : y.numer = 0
  · rw [if_pos hy0, if_pos hy0]
  rw [if_neg hy0, if_neg hy0, recip_eq hy hy0]
  by_cases hleast : y.numer = w.least
  · rw [if_pos hleast, if_pos hleast]
    rfl
  have hinv := ofRat_canonical ((represents_inv hy hy0).2 hleast)
  rw [if_neg hleast, if_neg hleast, step_of_ok, mul_eq hx hinv, ofRat_value, div_eq_mul_inv]

theorem div_exact (hx : x.Canonical) (hy : y.Canonical) (h : x.div y = .ok z) :
    z.Canonical ∧ y.value ≠ 0 ∧ z.value = x.value / y.value := by
  rw [div_eq hx hy] at h
  split_ifs at h with hy0 _ hfits
  cases h
  exact ⟨ofRat_canonical hfits, fun hzero => hy0 (hy.value_eq_zero.1 hzero), ofRat_value _⟩

/-- By other divisors a quotient is refused only if the width cannot hold it. -/
theorem div_settles_of_ne (hx : x.Canonical) (hy : y.Canonical) (hy0 : y ≠ zero) (hleast : y.numer ≠ w.least) :
    Settles .ratioMultiplication (w.Represents (x.value / y.value)) (x.value / y.value) (x.div y) :=
  .of_eq (by rw [div_eq hx hy, if_neg (mt hy.eq_zero_iff.2 hy0), if_neg hleast])

/-! ## Main theorems -/

/-- A product is answered just when the width holds its lowest terms, and is an overflow of
the multiplication in all other cases. No product that fits is lost on the way. -/
theorem mul_settles (hx : x.Canonical) (hy : y.Canonical) :
    Settles .ratioMultiplication (w.Represents (x.value * y.value)) (x.value * y.value) (x.mul y) :=
  .of_eq (mul_eq hx hy)

/-- `-128/127` times `127/64` is `-2` in eight bits, although its numerators multiply to
far less than `-128`. The least number times zero is zero, and times `-1` it is refused. -/
theorem mul_settles_edge :
    (⟨-128, 127⟩ : Ratio .w8).Canonical ∧ (⟨127, 64⟩ : Ratio .w8).Canonical ∧
    mul (w := .w8) ⟨-128, 127⟩ ⟨127, 64⟩ = .ok ⟨-2, 1⟩ ∧ mul (w := .w8) ⟨-128, 1⟩ zero = .ok zero ∧
    mul (w := .w8) ⟨-128, 1⟩ ⟨-1, 1⟩ = .error (.overflow .ratioMultiplication) := by
  have hx : (⟨-128, 127⟩ : Ratio .w8).Canonical := by decide
  have hy : (⟨127, 64⟩ : Ratio .w8).Canonical := by decide
  have hleast : (⟨-128, 1⟩ : Ratio .w8).Canonical := by decide
  have hminus : (⟨-1, 1⟩ : Ratio .w8).Canonical := by decide
  exact ⟨hx, hy, ((mul_settles hx hy).exact _).2 ⟨by decide +kernel, by decide, by decide +kernel⟩,
    ((mul_settles hleast zero_canonical).exact _).2 ⟨by decide +kernel, zero_canonical, by decide +kernel⟩,
    ((mul_settles hleast hminus).refused _).2 ⟨rfl, by decide +kernel⟩⟩

/-- A quotient is refused as a division by zero just when the divisor is zero, and as an
overflow of the sign just when the divisor's numerator is the least number. By any other
divisor the quotient is answered just when the width holds its lowest terms, and
multiplication and division undo each other. -/
theorem div_settles (hx : x.Canonical) (hy : y.Canonical) :
    (x.div y = .error .divisionByZero ↔ y = zero) ∧
    (x.div y = .error (.overflow .ratioSign) ↔ y.numer = w.least) ∧
    (y ≠ zero → y.numer ≠ w.least →
      Settles .ratioMultiplication (w.Represents (x.value / y.value)) (x.value / y.value) (x.div y) ∧
      (∀ p, x.mul y = .ok p → p.div y = .ok x) ∧ ∀ q, x.div y = .ok q → q.mul y = .ok x) := by
  refine ⟨?_, ?_, fun hy0 hleast => ⟨div_settles_of_ne hx hy hy0 hleast, fun p hp => ?_, fun q hq => ?_⟩⟩
  · rw [div_eq hx hy, hy.eq_zero_iff]
    split_ifs with hy0 <;> simp [hy0]
  · have hleast := Width.least_lt (w := w)
    rw [div_eq hx hy]
    split_ifs with hy0 hmin <;> simp <;> omega
  · obtain ⟨hcan, hval⟩ := mul_exact hx hy hp
    have hne : y.value ≠ 0 := mt hy.value_eq_zero.1 (mt hy.eq_zero_iff.2 hy0)
    exact (div_settles_of_ne hcan hy hy0 hleast).eq_ok hx (by rw [hval, mul_div_cancel_right₀ _ hne])
  · obtain ⟨hcan, hne, hval⟩ := div_exact hx hy hq
    exact Settles.eq_ok (.of_eq (mul_eq hcan hy)) hx (by rw [hval, div_mul_cancel₀ _ hne])

/-- In eight bits `-128/3` over `-2/3` is `64`, and back again; nothing can be divided by
`-128/3` itself or by zero. -/
theorem div_settles_edge :
    (⟨-128, 3⟩ : Ratio .w8).Canonical ∧ (⟨-2, 3⟩ : Ratio .w8).Canonical ∧
    div (w := .w8) ⟨-128, 3⟩ ⟨-2, 3⟩ = .ok ⟨64, 1⟩ ∧ mul (w := .w8) ⟨64, 1⟩ ⟨-2, 3⟩ = .ok ⟨-128, 3⟩ ∧
    div (w := .w8) ⟨64, 1⟩ ⟨-128, 3⟩ = .error (.overflow .ratioSign) ∧
    div (w := .w8) ⟨64, 1⟩ zero = .error .divisionByZero := by
  have hx : (⟨-128, 3⟩ : Ratio .w8).Canonical := by decide
  have hy : (⟨-2, 3⟩ : Ratio .w8).Canonical := by decide
  have hq : (⟨64, 1⟩ : Ratio .w8).Canonical := by decide
  obtain ⟨hsettles, -, hback⟩ := (div_settles hx hy).2.2 (by decide) (by decide)
  have hdiv : div (w := .w8) ⟨-128, 3⟩ ⟨-2, 3⟩ = .ok ⟨64, 1⟩ :=
    (hsettles.exact _).2 ⟨by decide +kernel, hq, by decide +kernel⟩
  exact ⟨hx, hy, hdiv, hback _ hdiv, (div_settles hq hx).2.1.2 (by decide), (div_settles hq zero_canonical).1.2 rfl⟩

end ScoreSequencer.Ratio
