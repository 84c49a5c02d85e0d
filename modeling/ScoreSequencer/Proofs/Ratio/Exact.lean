import Mathlib
import ScoreSequencer.NoteLength
import ScoreSequencer.Proofs.Ratio.LowestTerms
/-!
# Sums and order are exact

Whenever canonical ratios are added, subtracted, negated or compared and there is an
answer, it is canonical and stands for the exact result. `combine_eq` says how a sum is
computed, over the least common denominator. `NoteLength.add_exact` and
`NoteLength.max_exact` carry this to note lengths.
-/

namespace ScoreSequencer

/-! ## Over the least common denominator -/

namespace Width

/-- The numerator of `p` over the least common denominator of `p` and `q`. -/
def commonNumer (p q : ℚ) : Int := p.num * (p.den.lcm q.den / p.den : Nat)

/-- Over the least common denominator of two numbers, the width holds both
numerators, what `f` makes of them, and the denominator. -/
@[mk_iff]
structure Combines (w : Width) (f : Int → Int → Int) (p q : ℚ) : Prop where
  left : w.Holds (commonNumer p q)
  right : w.Holds (commonNumer q p)
  result : w.Holds (f (commonNumer p q) (commonNumer q p))
  denom : w.Holds (p.den.lcm q.den)

instance (w : Width) (f : Int → Int → Int) (p q : ℚ) : Decidable (w.Combines f p q) :=
  decidable_of_iff' _ (combines_iff w f p q)

/-- The numerator of a number over a multiple of its denominator. -/
def scaledNumer (q : ℚ) (denom : Nat) : Int := q.num * (denom / q.den : Nat)

theorem scaledNumer_eq {q : ℚ} {denom : Nat} (h : q.den ∣ denom) : (scaledNumer q denom : ℚ) = q * denom := by
  obtain ⟨k, rfl⟩ := h
  rw [scaledNumer, Nat.mul_div_cancel_left k q.den_pos]
  push_cast
  rw [← mul_assoc, Rat.mul_den_eq_num]

theorem commonNumer_eq (p q : ℚ) : (commonNumer p q : ℚ) = p * (p.den.lcm q.den : Nat) :=
  scaledNumer_eq (Nat.dvd_lcm_left _ _)

theorem commonNumer_add (p q : ℚ) :
    ((commonNumer p q + commonNumer q p : Int) : ℚ) = (p + q) * (p.den.lcm q.den : Nat) := by
  rw [Int.cast_add, commonNumer_eq, commonNumer_eq, Nat.lcm_comm q.den, add_mul]

theorem commonNumer_sub (p q : ℚ) :
    ((commonNumer p q - commonNumer q p : Int) : ℚ) = (p - q) * (p.den.lcm q.den : Nat) := by
  rw [Int.cast_sub, commonNumer_eq, commonNumer_eq, Nat.lcm_comm q.den, sub_mul]

end Width

namespace Ratio

variable {w : Width} {x y z : Ratio w}

/-! ## Sums -/

theorem lcm_div_left {m : Nat} (hm : 0 < m) (n : Nat) : m.lcm n / m = n / m.gcd n := by
  rw [Nat.lcm, Nat.mul_div_assoc _ (Nat.gcd_dvd_right m n), Nat.mul_div_cancel_left _ hm]

theorem lcm_den_pos {p q : ℚ} : (0 : Int) < (p.den.lcm q.den : Nat) :=
  Int.natCast_pos.2 (Nat.lcm_pos p.den_pos q.den_pos)

variable {operation : Operation} {f : Int → Int → Int}

/-- Two fractions are combined over their least common denominator, or else refused. -/
theorem combine_eq (hx : x.Canonical) (hy : y.Canonical) : combine operation f x y =
    if w.Combines f x.value y.value then
      .ok (ofRat ((f (Width.commonNumer x.value y.value) (Width.commonNumer y.value x.value) : Int) /
        ((x.value.den.lcm y.value.den : Nat) : Int)))
    else .error (.overflow operation) := by
  -- The scale of a fraction is what the common denominator has beyond its own.
  have hscale : ∀ {u v : Ratio w}, u.Canonical → v.Canonical →
      v.denom.tdiv (Int.gcd u.denom v.denom) = (u.value.den.lcm v.value.den / u.value.den : Nat) := by
    intro u v hu hv
    rw [lcm_div_left u.value.den_pos, ← hu.den_value, ← hv.den_value]
    rfl
  have hdenom : x.denom * (x.value.den.lcm y.value.den / x.value.den : Nat) =
      (x.value.den.lcm y.value.den : Nat) := by
    rw [← hx.den_value]
    exact_mod_cast Nat.mul_div_cancel' (Nat.dvd_lcm_left _ _)
  have hnumer : ∀ {u v : Ratio w}, u.Canonical →
      u.numer * (u.value.den.lcm v.value.den / u.value.den : Nat) = Width.commonNumer u.value v.value := by
    intro u v hu
    rw [← hu.num_value, Width.commonNumer]
  rw [combine, Width.gcd_of_pos hx.holds_denom hy.holds_denom hy.denom_pos, step_of_ok]
  dsimp only
  rw [hscale hx hy, hdenom, Int.gcd_comm, hscale hy hx, hnumer hx, hnumer hy]
  simp only [Width.narrow_bind]
  by_cases hfits : w.Combines f x.value y.value
  · rw [if_pos hfits, if_pos hfits.left, if_pos hfits.right, if_pos hfits.result, if_pos hfits.denom]
    exact make_of_pos hfits.result hfits.denom lcm_den_pos
  · rw [if_neg hfits]
    rw [Width.combines_iff] at hfits
    split_ifs <;> tauto

/-- A combined ratio stands for the number that has the combined numerator over the
common denominator. -/
theorem combine_exact {q : ℚ} (hx : x.Canonical) (hy : y.Canonical)
    (hf : (f (Width.commonNumer x.value y.value) (Width.commonNumer y.value x.value) : ℚ) =
      q * (x.value.den.lcm y.value.den : Nat))
    (h : combine operation f x y = .ok z) : z.Canonical ∧ z.value = q := by
  rw [combine_eq hx hy] at h
  split_ifs at h with hfits
  cases h
  refine ⟨ofRat_canonical (represents_div hfits.result hfits.denom lcm_den_pos), ?_⟩
  rw [ofRat_value, hf]
  exact mul_div_cancel_right₀ q (by exact_mod_cast lcm_den_pos.ne')

theorem add_exact (hx : x.Canonical) (hy : y.Canonical) (h : x.add y = .ok z) :
    z.Canonical ∧ z.value = x.value + y.value :=
  combine_exact hx hy (Width.commonNumer_add _ _) h

theorem sub_exact (hx : x.Canonical) (hy : y.Canonical) (h : x.sub y = .ok z) :
    z.Canonical ∧ z.value = x.value - y.value :=
  combine_exact hx hy (Width.commonNumer_sub _ _) h

theorem neg_exact (hx : x.Canonical) (h : x.neg = .ok z) : z.Canonical ∧ z.value = -x.value := by
  obtain ⟨n, hn, h⟩ := step_ok.1 h
  obtain ⟨hnumer, rfl⟩ := Width.narrow_eq_ok.1 hn
  cases return_ok.1 h
  refine ⟨⟨hx.denom_pos, ?_, hnumer, hx.holds_denom⟩, ?_⟩
  · rw [Int.neg_gcd]
    exact hx.coprime
  · simp only [value, Int.cast_neg, neg_div]

/-! ## Order -/

theorem compare_value (hx : x.Canonical) (hy : y.Canonical) :
    compare x.value y.value = compare (x.numer * y.denom) (y.numer * x.denom) := by
  have hx0 : (0 : ℚ) < x.denom := by exact_mod_cast hx.denom_pos
  have hy0 : (0 : ℚ) < y.denom := by exact_mod_cast hy.denom_pos
  have hlt : ∀ a b c d : Int, (0 : ℚ) < b → (0 : ℚ) < d → ((a : ℚ) / b < c / d ↔ a * d < c * b) :=
    fun a b c d hb hd => by rw [div_lt_div_iff₀ hb hd]; exact_mod_cast Iff.rfl
  rcases lt_trichotomy (x.numer * y.denom) (y.numer * x.denom) with h | h | h
  · rw [compare_lt_iff_lt.2 h, compare_lt_iff_lt]
    exact (hlt _ _ _ _ hx0 hy0).2 h
  · rw [compare_eq_iff_eq.2 h, compare_eq_iff_eq, value, value, div_eq_div_iff hx0.ne' hy0.ne']
    exact_mod_cast h
  · rw [compare_gt_iff_gt.2 h, compare_gt_iff_gt]
    exact (hlt _ _ _ _ hy0 hx0).2 h

theorem sign_mul_pos {a d : Int} (hd : 0 < d) : (a * d).sign = a.sign := by
  rw [Int.sign_mul, Int.sign_eq_one_of_pos hd, mul_one]

theorem lt_of_sign_lt {a b : Int} (h : a.sign < b.sign) : a < b := by
  grind [Int.sign_eq_neg_one_of_neg, Int.sign_eq_one_of_pos]

/-- Numbers of different signs are ordered as their signs are. -/
theorem compare_sign {a b : Int} (h : a.sign ≠ b.sign) : compare a.sign b.sign = compare a b := by
  rcases lt_or_gt_of_ne h with hs | hs
  · rw [compare_lt_iff_lt.2 hs, compare_lt_iff_lt.2 (lt_of_sign_lt hs)]
  · rw [compare_gt_iff_gt.2 hs, compare_gt_iff_gt.2 (lt_of_sign_lt hs)]

/-- An answered comparison is that of the exact values. -/
theorem cmp_exact {o : Ordering} (hx : x.Canonical) (hy : y.Canonical) (h : x.cmp y = .ok o) :
    o = compare x.value y.value := by
  rw [compare_value hx hy]
  unfold cmp at h
  split at h
  · rename_i hs
    rw [← sign_mul_pos hy.denom_pos, ← sign_mul_pos (a := y.numer) hx.denom_pos] at hs h
    rw [← compare_sign hs]
    cases h
    rfl
  · obtain ⟨a, ha, h⟩ := step_ok.1 h
    obtain ⟨b, hb, h⟩ := step_ok.1 h
    obtain ⟨-, rfl⟩ := Width.narrow_eq_ok.1 ha
    obtain ⟨-, rfl⟩ := Width.narrow_eq_ok.1 hb
    exact (return_ok.1 h).symm

/-- The greater of two ratios is the second only if it is strictly greater. -/
theorem max_eq (hx : x.Canonical) (hy : y.Canonical) (h : x.max y = .ok z) :
    z = if x.value < y.value then y else x := by
  obtain ⟨o, ho, h⟩ := step_ok.1 h
  have hc := cmp_exact hx hy ho
  cases o <;> cases return_ok.1 h
  · rw [if_pos (compare_lt_iff_lt.1 hc.symm)]
  · rw [if_neg (compare_eq_iff_eq.1 hc.symm).not_lt]
  · rw [if_neg (compare_gt_iff_gt.1 hc.symm).not_gt]

theorem min_eq (hx : x.Canonical) (hy : y.Canonical) (h : x.min y = .ok z) :
    z = if y.value < x.value then y else x := by
  obtain ⟨o, ho, h⟩ := step_ok.1 h
  have hc := cmp_exact hx hy ho
  cases o <;> cases return_ok.1 h
  · rw [if_neg (compare_lt_iff_lt.1 hc.symm).not_gt]
  · rw [if_neg (compare_eq_iff_eq.1 hc.symm).not_gt]
  · rw [if_pos (compare_gt_iff_gt.1 hc.symm)]

theorem max_exact (hx : x.Canonical) (hy : y.Canonical) (h : x.max y = .ok z) :
    z.Canonical ∧ z.value = Max.max x.value y.value := by
  obtain rfl := max_eq hx hy h
  split
  · rename_i hlt
    exact ⟨hy, (max_eq_right hlt.le).symm⟩
  · rename_i hle
    exact ⟨hx, (max_eq_left (not_lt.1 hle)).symm⟩

theorem min_exact (hx : x.Canonical) (hy : y.Canonical) (h : x.min y = .ok z) :
    z.Canonical ∧ z.value = Min.min x.value y.value := by
  obtain rfl := min_eq hx hy h
  split
  · rename_i hlt
    exact ⟨hy, (min_eq_right hlt.le).symm⟩
  · rename_i hle
    exact ⟨hx, (min_eq_left (not_lt.1 hle)).symm⟩

end Ratio

namespace NoteLength

variable {x y z : NoteLength}

/-- The multiple of a whole note that a length stands for. -/
def value (x : NoteLength) : ℚ := x.ratio.value

attribute [mk_iff] Valid

instance (x : NoteLength) : Decidable x.Valid := decidable_of_iff' _ (valid_iff x)

theorem Valid.value_nonneg (h : x.Valid) : 0 ≤ x.value := h.canonical.value_nonneg h.nonneg

theorem Valid.eq_of_value (hx : x.Valid) (hy : y.Valid) (h : x.value = y.value) : x = y :=
  congrArg NoteLength.mk (hx.canonical.eq_of_value hy.canonical h)

theorem zero_valid : zero.Valid := ⟨Ratio.zero_canonical, le_rfl⟩

theorem zero_value : zero.value = 0 := Ratio.zero_value

theorem add_exact (hx : x.Valid) (hy : y.Valid) (h : x.add y = .ok z) :
    z.Valid ∧ z.value = x.value + y.value := by
  obtain ⟨r, hr, h⟩ := step_ok.1 h
  cases return_ok.1 h
  obtain ⟨hcan, hval⟩ := Ratio.add_exact hx.canonical hy.canonical hr
  exact ⟨⟨hcan, hcan.numer_nonneg (hval ▸ add_nonneg hx.value_nonneg hy.value_nonneg)⟩, hval⟩

theorem max_exact (hx : x.Valid) (hy : y.Valid) (h : x.max y = .ok z) :
    z.Valid ∧ z.value = Max.max x.value y.value := by
  obtain ⟨r, hr, h⟩ := step_ok.1 h
  cases return_ok.1 h
  obtain ⟨hcan, hval⟩ := Ratio.max_exact hx.canonical hy.canonical hr
  exact ⟨⟨hcan, hcan.numer_nonneg (hval ▸ le_max_of_le_left hx.value_nonneg)⟩, hval⟩

end NoteLength

end ScoreSequencer
