import Mathlib
import ScoreSequencer.Binary64.Arithmetic
/-!
# Rounding keeps the order and the small integers

`nearest` is monotone in the fraction it rounds, across the change of grid from
one binade to the next too. Magnitudes and their weights are in the same order,
a weight is rounded to its own magnitude, and every natural number below 2 ^ 53 is
a binary64 number exactly.
-/

namespace ScoreSequencer

/-! ## Rounding to whole numbers -/

theorem div_le_roundHalfEven (num den : Nat) : num / den ≤ roundHalfEven num den := by
  unfold roundHalfEven
  dsimp only
  split_ifs <;> omega

theorem roundHalfEven_le_succ (num den : Nat) : roundHalfEven num den ≤ num / den + 1 := by
  unfold roundHalfEven
  dsimp only
  split_ifs <;> omega

/-- Fractions with the same whole part are ordered as their rests are. -/
theorem roundHalfEven_mono_of_div_eq {a b c d : Nat} (hb : 0 < b) (hd : 0 < d) (h : a * d ≤ c * b)
    (hq : a / b = c / d) : roundHalfEven a b ≤ roundHalfEven c d := by
  have hrest : a % b * d ≤ c % d * b := by
    have ha := Nat.div_add_mod a b
    have hc := Nat.div_add_mod c d
    rw [hq] at ha
    nlinarith
  unfold roundHalfEven
  dsimp only
  rw [hq]
  split_ifs <;> first | omega | (exfalso; nlinarith)

theorem div_le_div_of_cross {a b c d : Nat} (hb : 0 < b) (hd : 0 < d) (h : a * d ≤ c * b) : a / b ≤ c / d := by
  rw [Nat.le_div_iff_mul_le hd]
  refine Nat.le_of_mul_le_mul_right ?_ hb
  calc a / b * d * b = a / b * b * d := by ring
    _ ≤ a * d := Nat.mul_le_mul_right d (Nat.div_mul_le_self a b)
    _ ≤ c * b := h

theorem roundHalfEven_mono {a b c d : Nat} (hb : 0 < b) (hd : 0 < d) (h : a * d ≤ c * b) :
    roundHalfEven a b ≤ roundHalfEven c d := by
  rcases (div_le_div_of_cross hb hd h).lt_or_eq with hlt | heq
  · exact (roundHalfEven_le_succ a b).trans ((Nat.succ_le_of_lt hlt).trans (div_le_roundHalfEven c d))
  · exact roundHalfEven_mono_of_div_eq hb hd h heq

theorem roundHalfEven_mul (k : Nat) {d : Nat} (hd : 0 < d) : roundHalfEven (k * d) d = k := by
  unfold roundHalfEven
  simp [Nat.mul_div_cancel k hd, hd]

namespace Binary64

/-! ## Definitions with powers -/

theorem infinite_eq : infinite = 2047 * 2 ^ 52 := rfl

theorem unitsInOne_eq : unitsInOne = 2 ^ 1074 := by
  unfold unitsInOne
  -- With a variable for its exponent the power is not computed.
  generalize 1074 = exponent
  exact Nat.pow_eq

theorem weight_eq (m : Nat) :
    weight m = if m < 2 ^ 52 then m else (2 ^ 52 + m % 2 ^ 52) * 2 ^ (m / 2 ^ 52 - 1) := rfl

theorem nearest_eq (n d : Nat) : nearest n d =
    min (((n / d).log2 - 52) * 2 ^ 52 + roundHalfEven n (d * 2 ^ ((n / d).log2 - 52))) infinite := rfl

/-! ## Rounding to magnitudes -/

theorem log2_mono {m n : Nat} (h : m ≤ n) : m.log2 ≤ n.log2 := by
  rcases Nat.eq_zero_or_pos m with rfl | hm
  · simp
  · exact (Nat.le_log2 (by omega)).2 ((Nat.log2_self_le hm.ne').trans h)

/-- On the grid of its own binade a fraction rounds to at most 2 ^ 53 steps. -/
theorem round_le_of_shift {n d s : Nat} (hs : (n / d).log2 ≤ 52 + s) :
    roundHalfEven n (d * 2 ^ s) ≤ 2 ^ 53 := by
  refine (roundHalfEven_le_succ _ _).trans ?_
  rw [← Nat.div_div_eq_div_mul, Nat.succ_le_iff, Nat.div_lt_iff_lt_mul (Nat.two_pow_pos s), ← pow_add]
  exact Nat.lt_log2_self.trans_le (Nat.pow_le_pow_right two_pos (by omega))

/-- Where the grid has that fraction's binade, it rounds to at least 2 ^ 52 steps. -/
theorem le_round_of_shift {n d s : Nat} (hs : 52 + s = (n / d).log2) :
    2 ^ 52 ≤ roundHalfEven n (d * 2 ^ s) := by
  refine le_trans ?_ (div_le_roundHalfEven _ _)
  have hne : n / d ≠ 0 := by
    intro h
    rw [h, Nat.log2_zero] at hs
    omega
  rw [← Nat.div_div_eq_div_mul, Nat.le_div_iff_mul_le (Nat.two_pow_pos s), ← pow_add, hs]
  exact Nat.log2_self_le hne

/-- Rounding keeps the order of fractions. -/
theorem nearest_mono {a b c d : Nat} (hb : 0 < b) (hd : 0 < d) (h : a * d ≤ c * b) :
    nearest a b ≤ nearest c d := by
  have hlog := log2_mono (div_le_div_of_cross hb hd h)
  rw [nearest_eq, nearest_eq]
  refine min_le_min_right _ ?_
  rcases Nat.lt_or_ge ((a / b).log2 - 52) ((c / d).log2 - 52) with hlt | hge
  · -- A lower binade ends where the next one begins, in steps of either grid.
    have hle := round_le_of_shift (n := a) (d := b) (s := (a / b).log2 - 52) (by omega)
    have hge := le_round_of_shift (n := c) (d := d) (s := (c / d).log2 - 52) (by omega)
    omega
  · rw [show (a / b).log2 - 52 = (c / d).log2 - 52 by omega]
    refine Nat.add_le_add_left (roundHalfEven_mono (by positivity) (by positivity) ?_) _
    calc a * (d * 2 ^ ((c / d).log2 - 52)) = a * d * 2 ^ ((c / d).log2 - 52) := by ring
      _ ≤ c * b * 2 ^ ((c / d).log2 - 52) := Nat.mul_le_mul_right _ h
      _ = c * (b * 2 ^ ((c / d).log2 - 52)) := by ring

theorem nearest_le_infinite (num den : Nat) : nearest num den ≤ infinite := Nat.min_le_right _ _

/-! ## Weights -/

theorem weight_mono {m n : Nat} (h : m ≤ n) : weight m ≤ weight n := by
  rw [weight_eq, weight_eq]
  split_ifs with hm hn hn
  · exact h
  · calc m ≤ 2 ^ 52 * 1 := by omega
      _ ≤ (2 ^ 52 + n % 2 ^ 52) * 2 ^ (n / 2 ^ 52 - 1) := Nat.mul_le_mul (by omega) (Nat.two_pow_pos _)
  · omega
  · rcases (Nat.div_le_div_right h : m / 2 ^ 52 ≤ n / 2 ^ 52).lt_or_eq with hlt | heq
    · calc (2 ^ 52 + m % 2 ^ 52) * 2 ^ (m / 2 ^ 52 - 1)
          ≤ 2 ^ 53 * 2 ^ (m / 2 ^ 52 - 1) := Nat.mul_le_mul_right _ (by omega)
        _ = 2 ^ 52 * 2 ^ (m / 2 ^ 52) := by
          rw [← pow_add, ← pow_add]
          congr 1
          omega
        _ ≤ (2 ^ 52 + n % 2 ^ 52) * 2 ^ (n / 2 ^ 52 - 1) :=
          Nat.mul_le_mul (by omega) (Nat.pow_le_pow_right two_pos (by omega))
    · rw [heq]
      exact Nat.mul_le_mul_right _ (by omega)

theorem unitsInOne_pos : 0 < unitsInOne := by
  rw [unitsInOne_eq]
  positivity

/-- A full fraction field of any binade is hit exactly. -/
theorem nearest_scaled {f s : Nat} (hl : 2 ^ 52 ≤ f) (hu : f < 2 ^ 53) (hs : s < 2046) :
    nearest (f * 2 ^ s) 1 = s * 2 ^ 52 + f ∧ weight (s * 2 ^ 52 + f) = f * 2 ^ s := by
  have hlog : (f * 2 ^ s).log2 = 52 + s := by
    rw [Nat.log2_eq_iff (by positivity), pow_add, show 52 + s + 1 = 53 + s by omega, pow_add]
    exact ⟨Nat.mul_le_mul_right _ hl, Nat.mul_lt_mul_of_pos_right hu (Nat.two_pow_pos s)⟩
  constructor
  · rw [nearest_eq, Nat.div_one, hlog, Nat.add_sub_cancel_left, one_mul, roundHalfEven_mul f (Nat.two_pow_pos s)]
    exact min_eq_left (by rw [infinite_eq]; omega)
  · rw [weight_eq, if_neg (by omega), show (s * 2 ^ 52 + f) / 2 ^ 52 - 1 = s by omega,
      show 2 ^ 52 + (s * 2 ^ 52 + f) % 2 ^ 52 = f by omega]

/-- A weight is rounded to the magnitude it is the weight of. -/
theorem nearest_weight {m : Nat} (h : m < infinite) : nearest (weight m) 1 = m := by
  rw [infinite_eq] at h
  rcases Nat.lt_or_ge m (2 ^ 52) with hm | hm
  · -- Below the least full fraction field the grid is that of the units.
    have hlog : m.log2 - 52 = 0 := by
      rcases Nat.eq_zero_or_pos m with rfl | hpos
      · simp
      · have := (Nat.log2_lt hpos.ne').2 hm
        omega
    rw [weight_eq, if_pos hm, nearest_eq, Nat.div_one, hlog, pow_zero, Nat.zero_mul, Nat.zero_add]
    have hround := roundHalfEven_mul m one_pos
    rw [mul_one] at hround
    rw [mul_one, hround]
    exact min_eq_left (by rw [infinite_eq]; omega)
  · have hdiv : 1 ≤ m / 2 ^ 52 := (Nat.le_div_iff_mul_le (by positivity)).2 (by omega)
    have hmod : m / 2 ^ 52 * 2 ^ 52 + m % 2 ^ 52 = m := Nat.div_add_mod' m (2 ^ 52)
    obtain ⟨hnear, -⟩ := nearest_scaled (f := 2 ^ 52 + m % 2 ^ 52) (s := m / 2 ^ 52 - 1) (by omega) (by omega) (by omega)
    obtain ⟨q, hq⟩ := Nat.exists_eq_add_of_le hdiv
    rw [weight_eq, if_neg (by omega), hnear]
    rw [hq] at hmod ⊢
    rw [Nat.add_sub_cancel_left, ← Nat.add_assoc, ← Nat.succ_mul, Nat.succ_eq_one_add, hmod]

theorem weight_pos {m : Nat} (h : 0 < m) : 0 < weight m := by
  rw [weight_eq]
  split_ifs
  · exact h
  · positivity

/-- Natural numbers below 2 ^ 53 are kept exactly. -/
theorem weight_ofNat {n : Nat} (h : n < 2 ^ 53) :
    weight (ofNat n).magnitude = n * unitsInOne ∧ (ofNat n).magnitude < infinite := by
  rcases Nat.eq_zero_or_pos n with rfl | hn
  · decide +kernel
  have hlog : n.log2 ≤ 52 := by
    have := (Nat.log2_lt hn.ne').2 h
    omega
  have hl : 2 ^ 52 ≤ n * 2 ^ (52 - n.log2) := by
    calc 2 ^ 52 = 2 ^ n.log2 * 2 ^ (52 - n.log2) := by rw [← pow_add, Nat.add_sub_cancel' hlog]
      _ ≤ n * 2 ^ (52 - n.log2) := Nat.mul_le_mul_right _ (Nat.log2_self_le hn.ne')
  have hu : n * 2 ^ (52 - n.log2) < 2 ^ 53 := by
    calc n * 2 ^ (52 - n.log2) < 2 ^ (n.log2 + 1) * 2 ^ (52 - n.log2) :=
          Nat.mul_lt_mul_of_pos_right Nat.lt_log2_self (Nat.two_pow_pos _)
      _ = 2 ^ 53 := by rw [← pow_add]; congr 1; omega
  have hunits : n * unitsInOne = n * 2 ^ (52 - n.log2) * 2 ^ (1022 + n.log2) := by
    rw [unitsInOne_eq, mul_assoc, ← pow_add]
    congr 2
    omega
  -- Scaled to 53 bits, the number is a fraction field of its own binade.
  obtain ⟨hnear, hweight⟩ := nearest_scaled hl hu (s := 1022 + n.log2) (by omega)
  have hmag : (ofNat n).magnitude = (1022 + n.log2) * 2 ^ 52 + n * 2 ^ (52 - n.log2) := by
    rw [← hnear, ← hunits]
    rfl
  rw [hmag, hweight, ← hunits]
  refine ⟨rfl, ?_⟩
  rw [infinite_eq]
  omega

end Binary64

end ScoreSequencer
