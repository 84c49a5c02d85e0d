import Mathlib
import ScoreSequencer.Proofs.Ratio.Exact
/-!
# When sums are refused

Two fractions are combined over their least common denominator, so a sum may be
refused although its lowest terms would fit. The width must hold the two numerators
over that denominator, what is made of them, and the denominator itself (`Combines`);
else the fault is an overflow of the operation at hand. `add_sub_settles` says so of sums
and differences, with their exact answers, and `NoteLength.add_eq_error` of note lengths.

It comes to the same if the width holds these numbers over any common denominator
(`combines_iff_shares`). The numbers of a sum are those of the difference that undoes it,
and so no such difference is refused (`add_sub_undone`).
-/

namespace ScoreSequencer

namespace Width

theorem combines_comm {w : Width} {p q : ℚ} : w.Combines (· + ·) p q ↔ w.Combines (· + ·) q p := by
  rw [combines_iff, combines_iff, add_comm (commonNumer p q), Nat.lcm_comm p.den]
  tauto

/-! ## Any common denominator will do -/

variable {w : Width} {p q r : ℚ} {denom m : Nat}

/-- Over a denominator the number has a whole numerator, and the width holds it. -/
def HoldsOver (w : Width) (denom : Nat) (q : ℚ) : Prop := q.den ∣ denom ∧ w.Holds (scaledNumer q denom)

/-- A numerator is smaller over a divisor of the denominator. -/
theorem HoldsOver.of_dvd (h : w.HoldsOver denom q) (hpos : 0 < denom) (hq : q.den ∣ m) (hm : m ∣ denom) :
    w.HoldsOver m q := by
  obtain ⟨-, hholds⟩ := h
  obtain ⟨k, rfl⟩ := hm
  have hk : (0 : Int) < k := by exact_mod_cast Nat.pos_of_mul_pos_left hpos
  have hnumer : scaledNumer q (m * k) = scaledNumer q m * k := by
    rw [scaledNumer, Nat.mul_div_right_comm hq, Nat.cast_mul, ← mul_assoc, ← scaledNumer]
  exact ⟨hq, holds_of_mul hk (hnumer ▸ hholds)⟩

/-- The width holds some denominator and the numerators of three numbers over it. -/
def Shares (w : Width) (p q r : ℚ) : Prop :=
  ∃ denom : Nat, 0 < denom ∧ w.Holds denom ∧ w.HoldsOver denom p ∧ w.HoldsOver denom q ∧ w.HoldsOver denom r

theorem Shares.reverse (h : w.Shares p q r) : w.Shares r q p := by
  obtain ⟨denom, hpos, hdenom, hp, hq, hr⟩ := h
  exact ⟨denom, hpos, hdenom, hr, hq, hp⟩

/-- What fits over any common denominator fits over the least one. -/
theorem combines_iff_shares {f : Int → Int → Int} (hden : r.den ∣ p.den.lcm q.den)
    (hf : (f (commonNumer p q) (commonNumer q p) : ℚ) = r * (p.den.lcm q.den : Nat)) :
    w.Combines f p q ↔ w.Shares p q r := by
  have hresult : f (commonNumer p q) (commonNumer q p) = scaledNumer r (p.den.lcm q.den) := by
    have := hf.trans (scaledNumer_eq hden).symm
    exact_mod_cast this
  have hleft : commonNumer p q = scaledNumer p (p.den.lcm q.den) := rfl
  have hright : commonNumer q p = scaledNumer q (p.den.lcm q.den) := by
    rw [Nat.lcm_comm]
    rfl
  have hpd := Nat.dvd_lcm_left p.den q.den
  have hqd := Nat.dvd_lcm_right p.den q.den
  rw [combines_iff, hresult, hleft, hright]
  constructor
  · rintro ⟨hp, hq, hr, hdenom⟩
    exact ⟨_, Nat.lcm_pos p.den_pos q.den_pos, hdenom, ⟨hpd, hp⟩, ⟨hqd, hq⟩, ⟨hden, hr⟩⟩
  · rintro ⟨denom, hpos, hdenom, hp, hq, hr⟩
    have hdvd := Nat.lcm_dvd hp.1 hq.1
    have hle := Nat.le_of_dvd hpos hdvd
    exact ⟨(hp.of_dvd hpos hpd hdvd).2, (hq.of_dvd hpos hqd hdvd).2, (hr.of_dvd hpos hden hdvd).2,
      holds_of_nonneg (Int.natCast_nonneg _) (le_trans (by exact_mod_cast hle) hdenom.2)⟩

theorem combines_add_iff : w.Combines (· + ·) p q ↔ w.Shares p q (p + q) :=
  combines_iff_shares (Rat.add_den_dvd_lcm p q) (commonNumer_add p q)

theorem combines_sub_iff : w.Combines (· - ·) p q ↔ w.Shares p q (p - q) :=
  combines_iff_shares (Rat.sub_den_dvd_lcm p q) (commonNumer_sub p q)

theorem holdsOver_of_le (hq : 0 ≤ q) (hden : q.den ∣ denom) (hle : q * denom ≤ w.greatest) :
    w.HoldsOver denom q := by
  rw [← scaledNumer_eq hden] at hle
  exact ⟨hden, holds_of_nonneg (mul_nonneg (Rat.num_nonneg.2 hq) (Int.natCast_nonneg _)) (by exact_mod_cast hle)⟩

/-- Two numbers that are not negative combine if their sum fits over a common denominator. -/
theorem combines_of_common (hp : 0 ≤ p) (hq : 0 ≤ q) (hpos : 0 < denom)
    (hpd : p.den ∣ denom) (hqd : q.den ∣ denom) (hdenom : w.Holds denom) (hsum : (p + q) * denom ≤ w.greatest) :
    w.Combines (· + ·) p q := by
  have hpart : ∀ {r : ℚ}, r ≤ p + q → r * denom ≤ w.greatest := fun hr =>
    (mul_le_mul_of_nonneg_right hr (Nat.cast_nonneg _)).trans hsum
  exact combines_add_iff.2 ⟨denom, hpos, hdenom, holdsOver_of_le hp hpd (hpart (le_add_of_nonneg_right hq)),
    holdsOver_of_le hq hqd (hpart (le_add_of_nonneg_left hp)),
    holdsOver_of_le (add_nonneg hp hq) ((Rat.add_den_dvd_lcm p q).trans (Nat.lcm_dvd hpd hqd)) hsum⟩

end Width

namespace Ratio

variable {w : Width} {x y : Ratio w} {operation : Operation} {f : Int → Int → Int} {fault : Fault}

/-! ## When a sum is refused -/

/-- A sum is refused just when it overflows over the common denominator. -/
theorem combine_eq_error (hx : x.Canonical) (hy : y.Canonical) : combine operation f x y = .error fault ↔
    fault = .overflow operation ∧ ¬w.Combines f x.value y.value := by
  rw [combine_eq hx hy]
  split_ifs with h <;> simp [h, eq_comm]

/-! ## Sums and differences -/

/-- The numerator of a ratio over the least common denominator of it and another one. -/
def numerOver (x y : Ratio w) : Int := x.numer * (Int.lcm x.denom y.denom / x.denom)

/-- Over the least common denominator of two ratios, the width holds both numerators,
what `f` makes of them, and the denominator. -/
def FitOver (f : Int → Int → Int) (x y : Ratio w) : Prop :=
  w.Holds (x.numerOver y) ∧ w.Holds (y.numerOver x) ∧ w.Holds (f (x.numerOver y) (y.numerOver x)) ∧
    w.Holds (Int.lcm x.denom y.denom)

instance : Decidable (FitOver f x y) := inferInstanceAs (Decidable (_ ∧ _ ∧ _ ∧ _))

theorem lcm_den_value (hx : x.Canonical) (hy : y.Canonical) :
    x.value.den.lcm y.value.den = Int.lcm x.denom y.denom := by
  rw [← hx.den_value, ← hy.den_value]
  rfl

theorem commonNumer_value (hx : x.Canonical) (hy : y.Canonical) :
    Width.commonNumer x.value y.value = x.numerOver y := by
  rw [Width.commonNumer, numerOver, hx.num_value, lcm_den_value hx hy, Int.natCast_div, hx.den_value]

/-- Canonical ratios have the numerators and denominators of their values. -/
theorem combines_value_iff (hx : x.Canonical) (hy : y.Canonical) :
    w.Combines f x.value y.value ↔ FitOver f x y := by
  rw [Width.combines_iff, commonNumer_value hx hy, commonNumer_value hy hx, lcm_den_value hx hy]
  rfl

theorem combine_settles {q : ℚ} (hx : x.Canonical) (hy : y.Canonical)
    (hexact : ∀ z, combine operation f x y = .ok z → z.Canonical ∧ z.value = q) :
    Settles operation (FitOver f x y) q (combine operation f x y) := by
  refine .of_refused (fun fault => ?_) hexact
  rw [combine_eq_error hx hy, combines_value_iff hx hy]

/-- Neither a sum nor its refusal depends on the order of the terms. -/
theorem add_swap (hx : x.Canonical) (hy : y.Canonical) : x.add y = y.add x := by
  rw [add, add, combine_eq hx hy, combine_eq hy hx]
  simp only [Width.combines_comm (p := x.value), add_comm (Width.commonNumer x.value y.value),
    Nat.lcm_comm x.value.den]

/-- A sum and a difference are refused just when one of the numbers over the least
common denominator leaves the width, always as an overflow of the operation itself. Else
they are exact and in lowest terms. -/
theorem add_sub_settles (hx : x.Canonical) (hy : y.Canonical) :
    Settles .ratioAddition (FitOver (· + ·) x y) (x.value + y.value) (x.add y) ∧
    Settles .ratioSubtraction (FitOver (· - ·) x y) (x.value - y.value) (x.sub y) ∧
    x.add y = y.add x :=
  ⟨combine_settles hx hy fun _ => add_exact hx hy, combine_settles hx hy fun _ => sub_exact hx hy, add_swap hx hy⟩

/-- A third can be added to `-128/3` in eight bits but not taken from it. -/
theorem add_sub_settles_edge :
    (⟨-128, 3⟩ : Ratio .w8).Canonical ∧ (⟨1, 3⟩ : Ratio .w8).Canonical ∧
    add (w := .w8) ⟨-128, 3⟩ ⟨1, 3⟩ = .ok ⟨-127, 3⟩ ∧ add (w := .w8) ⟨1, 3⟩ ⟨-128, 3⟩ = .ok ⟨-127, 3⟩ ∧
    sub (w := .w8) ⟨-128, 3⟩ ⟨1, 3⟩ = .error (.overflow .ratioSubtraction) := by
  have hlow : (⟨-128, 3⟩ : Ratio .w8).Canonical := by decide
  have hthird : (⟨1, 3⟩ : Ratio .w8).Canonical := by decide
  obtain ⟨hadd, hsub, hswap⟩ := add_sub_settles hlow hthird
  have hsum := (hadd.exact ⟨-127, 3⟩).2 ⟨by decide, by decide, by decide +kernel⟩
  exact ⟨hlow, hthird, hsum, hswap ▸ hsum, (hsub.refused _).2 ⟨rfl, by decide⟩⟩

/-! ## Sums undone -/

variable {s : Ratio w}

/-- Whether a sum is answered depends on its three numbers alone. -/
theorem add_eq_ok (hx : x.Canonical) (hy : y.Canonical) : x.add y = .ok s ↔
    w.Shares x.value y.value (x.value + y.value) ∧ s.Canonical ∧ s.value = x.value + y.value := by
  rw [← Width.combines_add_iff, combines_value_iff hx hy]
  exact (combine_settles hx hy fun _ => add_exact hx hy).exact s

theorem sub_eq_ok (hx : x.Canonical) (hy : y.Canonical) : x.sub y = .ok s ↔
    w.Shares x.value y.value (x.value - y.value) ∧ s.Canonical ∧ s.value = x.value - y.value := by
  rw [← Width.combines_sub_iff, combines_value_iff hx hy]
  exact (combine_settles hx hy fun _ => sub_exact hx hy).exact s

theorem sub_of_add (hx : x.Canonical) (hy : y.Canonical) (h : x.add y = .ok s) : s.sub y = .ok x := by
  obtain ⟨hshares, hcan, hval⟩ := (add_eq_ok hx hy).1 h
  have hback : s.value - y.value = x.value := by rw [hval, add_sub_cancel_right]
  refine (sub_eq_ok hcan hy).2 ⟨?_, hx, hback.symm⟩
  rw [hback, hval]
  exact hshares.reverse

theorem add_of_sub (hx : x.Canonical) (hy : y.Canonical) (h : x.sub y = .ok s) : s.add y = .ok x := by
  obtain ⟨hshares, hcan, hval⟩ := (sub_eq_ok hx hy).1 h
  have hback : s.value + y.value = x.value := by rw [hval, sub_add_cancel]
  refine (add_eq_ok hcan hy).2 ⟨?_, hx, hback.symm⟩
  rw [hback, hval]
  exact hshares.reverse

/-- What was added can be taken away again and what was taken away can be added again, and
no step of that is refused: the same three numbers are computed, over a denominator that is
no greater. -/
theorem add_sub_undone (hx : x.Canonical) (hy : y.Canonical) :
    (∀ s, x.add y = .ok s → s.sub y = .ok x ∧ s.sub x = .ok y) ∧ ∀ s, x.sub y = .ok s → s.add y = .ok x :=
  ⟨fun _ h => ⟨sub_of_add hx hy h, sub_of_add hy hx (add_swap hx hy ▸ h)⟩, fun _ => add_of_sub hx hy⟩

/-- In eight bits a third can be added to `-128/3` and taken away again, and `1/10` taken
from `5/6` and added again. -/
theorem add_sub_undone_edge :
    (⟨-128, 3⟩ : Ratio .w8).Canonical ∧ (⟨1, 3⟩ : Ratio .w8).Canonical ∧
    add (w := .w8) ⟨-128, 3⟩ ⟨1, 3⟩ = .ok ⟨-127, 3⟩ ∧ sub (w := .w8) ⟨-127, 3⟩ ⟨1, 3⟩ = .ok ⟨-128, 3⟩ ∧
    sub (w := .w8) ⟨-127, 3⟩ ⟨-128, 3⟩ = .ok ⟨1, 3⟩ ∧
    sub (w := .w8) ⟨5, 6⟩ ⟨1, 10⟩ = .ok ⟨11, 15⟩ ∧ add (w := .w8) ⟨11, 15⟩ ⟨1, 10⟩ = .ok ⟨5, 6⟩ := by
  have hlow : (⟨-128, 3⟩ : Ratio .w8).Canonical := by decide
  have hthird : (⟨1, 3⟩ : Ratio .w8).Canonical := by decide
  have hsum : add (w := .w8) ⟨-128, 3⟩ ⟨1, 3⟩ = .ok ⟨-127, 3⟩ := by decide +kernel
  have hrest : sub (w := .w8) ⟨5, 6⟩ ⟨1, 10⟩ = .ok ⟨11, 15⟩ := by decide +kernel
  obtain ⟨hfirst, hsecond⟩ := (add_sub_undone hlow hthird).1 _ hsum
  exact ⟨hlow, hthird, hsum, hfirst, hsecond, hrest,
    (add_sub_undone (x := (⟨5, 6⟩ : Ratio .w8)) (y := ⟨1, 10⟩) (by decide) (by decide)).2 _ hrest⟩

end Ratio

/-- A sum of note lengths is refused just when it overflows over the common denominator. -/
theorem NoteLength.add_eq_error {x y : NoteLength} (hx : x.Valid) (hy : y.Valid) {fault : Fault} :
    x.add y = .error fault ↔
      fault = .overflow .ratioAddition ∧ ¬Width.w32.Combines (· + ·) x.value y.value := by
  rw [add, step_error]
  simp only [return_ne_error, and_false, exists_false, or_false]
  exact Ratio.combine_eq_error hx.canonical hy.canonical

end ScoreSequencer
