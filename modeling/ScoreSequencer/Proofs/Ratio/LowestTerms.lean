import Mathlib
import ScoreSequencer.Ratio
import ScoreSequencer.Proofs.Ratio.Euclid
/-!
# Ratios in lowest terms

A ratio stands for its `value` in unbounded rationals, and a canonical ratio is the
lowest terms of that value. `make_eq` says what is made of any two numbers of the
width: the lowest terms of their fraction if the width holds them, else a fault.
`make_refusals` tells the faults apart.
-/

namespace ScoreSequencer

/-- The width holds the lowest terms of a number. -/
def Width.Represents (w : Width) (q : ℚ) : Prop := w.Holds q.num ∧ w.Holds q.den

instance (w : Width) (q : ℚ) : Decidable (w.Represents q) := inferInstanceAs (Decidable (_ ∧ _))

/-- Both lowest terms are narrowed, one after the other. -/
theorem Width.narrow_terms {w : Width} {q : ℚ} {α : Type} {operation : Operation}
    {next : Int → Int → Except Fault α} :
    (w.narrow operation q.num >>= fun n => w.narrow operation q.den >>= next n) =
      if w.Represents q then next q.num q.den else .error (.overflow operation) := by
  rw [narrow_bind, narrow_bind]
  by_cases hnum : w.Holds q.num <;> by_cases hden : w.Holds q.den <;> simp [Represents, hnum, hden]

namespace Ratio

variable {w : Width} {x y z : Ratio w} {q : ℚ}

/-- The rational number a ratio stands for. -/
def value (r : Ratio w) : ℚ := r.numer / r.denom

attribute [mk_iff] Canonical

instance (r : Ratio w) : Decidable r.Canonical := decidable_of_iff' _ (canonical_iff r)

theorem Canonical.num_value (h : x.Canonical) : x.value.num = x.numer :=
  Rat.num_div_eq_of_coprime h.denom_pos h.coprime

theorem Canonical.den_value (h : x.Canonical) : (x.value.den : Int) = x.denom :=
  Rat.den_div_eq_of_coprime h.denom_pos h.coprime

/-- The lowest terms of a number. -/
def ofRat (q : ℚ) : Ratio w := ⟨q.num, q.den⟩

theorem ofRat_value (q : ℚ) : (ofRat q : Ratio w).value = q := Rat.num_div_den q

theorem ofRat_canonical (h : w.Represents q) : (ofRat q : Ratio w).Canonical :=
  ⟨Int.natCast_pos.2 q.den_pos, q.reduced, h.1, h.2⟩

theorem Canonical.eq_ofRat (h : x.Canonical) : x = ofRat x.value := by
  rw [ofRat, h.num_value, h.den_value]

theorem Canonical.represents (h : x.Canonical) : w.Represents x.value := by
  rw [Width.Represents, h.num_value, h.den_value]
  exact ⟨h.holds_numer, h.holds_denom⟩

/-- Canonical ratios of the same number are equal. -/
theorem Canonical.eq_of_value (hx : x.Canonical) (hy : y.Canonical) (h : x.value = y.value) : x = y := by
  rw [hx.eq_ofRat, h, ← hy.eq_ofRat]

theorem zero_canonical : (zero : Ratio w).Canonical :=
  ⟨one_pos, by simp [zero, ofInt], Width.holds_zero, Width.holds_one⟩

theorem zero_value : (zero : Ratio w).value = 0 := by
  simp [value, zero, ofInt]

theorem Canonical.value_eq_zero (h : x.Canonical) : x.value = 0 ↔ x.numer = 0 := by
  rw [← h.num_value, Rat.num_eq_zero]

theorem Canonical.eq_zero_iff (h : x.Canonical) : x = zero ↔ x.numer = 0 := by
  rw [← h.value_eq_zero, ← zero_value (w := w)]
  exact ⟨fun he => he ▸ rfl, h.eq_of_value zero_canonical⟩

theorem Canonical.value_nonneg (h : x.Canonical) (hx : 0 ≤ x.numer) : 0 ≤ x.value :=
  div_nonneg (by exact_mod_cast hx) (by exact_mod_cast h.denom_pos.le)

theorem Canonical.numer_nonneg (h : x.Canonical) (hx : 0 ≤ x.value) : 0 ≤ x.numer := by
  rw [← h.num_value]
  exact Rat.num_nonneg.2 hx

/-! ## Making ratios -/

variable {n d : Int}

/-- Both fields are divided by the divisor, and turned if the denominator is negative. -/
theorem num_div (n d : Int) : ((n : ℚ) / d).num = d.sign * n.tdiv (Int.gcd n d) := by
  rw [← Rat.divInt_eq_div, Rat.num_divInt, Int.gcd_comm, Int.mul_ediv_assoc _ (Int.gcd_dvd_left n d),
    Int.tdiv_eq_ediv_of_dvd (Int.gcd_dvd_left n d)]

theorem den_div (n : Int) (hd : d ≠ 0) : (((n : ℚ) / d).den : Int) = d.sign * d.tdiv (Int.gcd n d) := by
  rw [← Rat.divInt_eq_div, Rat.den_divInt, if_neg hd, Int.gcd_comm, Int.natCast_div, ← Int.sign_mul_self,
    Int.mul_ediv_assoc _ (Int.gcd_dvd_right n d), Int.tdiv_eq_ediv_of_dvd (Int.gcd_dvd_right n d)]

/-- Only a negative denominator can make the lowest terms leave the width. -/
theorem represents_div (hn : w.Holds n) (hd : w.Holds d) (hpos : 0 < d) : w.Represents (n / d) := by
  have hg : (0 : Int) < Int.gcd n d := by exact_mod_cast Int.gcd_pos_of_ne_zero_right n hpos.ne'
  rw [Width.Represents, num_div, den_div n hpos.ne', Int.sign_eq_one_of_pos hpos, one_mul, one_mul,
    Int.tdiv_eq_ediv_of_dvd (Int.gcd_dvd_left n d), Int.tdiv_eq_ediv_of_dvd (Int.gcd_dvd_right n d)]
  exact ⟨Width.holds_ediv hn hg (Int.gcd_dvd_left n d), Width.holds_ediv hd hg (Int.gcd_dvd_right n d)⟩

/-- What is made of two numbers, or why nothing is. -/
theorem make_eq (hn : w.Holds n) (hd : w.Holds d) : make (w := w) n d =
    if d = 0 then .error .divisionByZero
    else if n ≠ 0 ∧ w.Stuck n d then .error (.overflow .commonDivisor)
    else if w.Represents (n / d) then .ok (ofRat (n / d))
    else .error (.overflow .ratioSign) := by
  unfold make
  by_cases hd0 : d = 0
  · rw [if_pos hd0, if_pos hd0]
  rw [if_neg hd0, if_neg hd0]
  by_cases hn0 : n = 0
  · subst hn0
    rw [if_pos rfl, if_neg (fun h => h.1 rfl), Int.cast_zero, zero_div, if_pos ⟨Width.holds_zero, Width.holds_one⟩]
    rfl
  rw [if_neg hn0]
  by_cases hstuck : w.Stuck n d
  · rw [Width.gcd_stuck hstuck, if_pos ⟨hn0, hstuck⟩]
    rfl
  rw [if_neg (fun h => hstuck h.2), Width.gcd_ok hn hd hstuck, step_of_ok]
  have hnum := num_div n d
  have hden := den_div n hd0
  have hden0 : (0 : Int) < ((n : ℚ) / d).den := Int.natCast_pos.2 (Rat.den_pos _)
  rcases lt_or_gt_of_ne hd0 with hneg | hpos
  · rw [Int.sign_eq_neg_one_of_neg hneg, neg_one_mul] at hnum hden
    dsimp only
    rw [if_pos (by omega), ← hnum, ← hden, Width.narrow_terms]
    rfl
  · rw [Int.sign_eq_one_of_pos hpos, one_mul] at hnum hden
    dsimp only
    rw [if_neg (by omega), if_pos (represents_div hn hd hpos), ← hnum, ← hden]
    rfl

/-- What `make` answers is the fraction it was asked for, in lowest terms. -/
theorem make_exact (hn : w.Holds n) (hd : w.Holds d) (h : make n d = .ok z) : z.Canonical ∧ z.value = n / d := by
  rw [make_eq hn hd] at h
  split_ifs at h with _ _ hfits
  cases h
  exact ⟨ofRat_canonical hfits, ofRat_value _⟩

theorem make_ne_zero (h : make n d = .ok z) : d ≠ 0 := by
  rintro rfl
  rw [make, if_pos rfl] at h
  cases h

/-- A fraction with a positive denominator can always be brought to lowest terms. -/
theorem make_of_pos (hn : w.Holds n) (hd : w.Holds d) (hpos : 0 < d) : make (w := w) n d = .ok (ofRat (n / d)) := by
  rw [make_eq hn hd, if_neg hpos.ne', if_neg fun h => Width.not_stuck_of_pos hpos h.2,
    if_pos (represents_div hn hd hpos)]

theorem Canonical.make_self (h : x.Canonical) : make x.numer x.denom = .ok x := by
  rw [make_of_pos h.holds_numer h.holds_denom h.denom_pos]
  exact congrArg _ h.eq_ofRat.symm

/-- Turning both signs takes lowest terms out of the width just when one of them is the
least number. -/
theorem represents_div_of_neg (hn : w.Holds n) (hd : w.Holds d) (hneg : d < 0) (hcop : Int.gcd n d = 1) :
    w.Represents (n / d) ↔ n ≠ w.least ∧ d ≠ w.least := by
  rw [Width.Represents, num_div, den_div n hneg.ne, Int.sign_eq_neg_one_of_neg hneg, hcop, Nat.cast_one,
    Int.tdiv_one, Int.tdiv_one, neg_one_mul, neg_one_mul, Width.holds_neg_iff hn, Width.holds_neg_iff hd]

/-- The pairs of a fraction's numbers that are stuck. -/
theorem stuck_iff (hd0 : d ≠ 0) : n ≠ 0 ∧ w.Stuck n d ↔
    n = w.least ∧ d = -1 ∨ n = -1 ∧ d = w.least ∨ n = w.least ∧ d = w.least := by
  have hleast := Width.least_lt (w := w)
  simp only [Width.Stuck]
  omega

/-- Of the pairs that are stuck only the least number with itself stands for a number
that the width holds. -/
theorem represents_of_stuck (hd0 : d ≠ 0) (h : n ≠ 0 ∧ w.Stuck n d) :
    w.Represents (n / d) ↔ n = w.least ∧ d = w.least := by
  have hleast := Width.least_lt (w := w)
  rcases (stuck_iff hd0).1 h with ⟨rfl, rfl⟩ | ⟨rfl, rfl⟩ | ⟨rfl, rfl⟩
  · rw [represents_div_of_neg Width.holds_least Width.holds_neg_one (by decide) (by simp)]
    omega
  · rw [represents_div_of_neg Width.holds_neg_one Width.holds_least (by omega) (by simp)]
    omega
  · rw [div_self (by exact_mod_cast hd0)]
    exact iff_of_true ⟨Width.holds_one, Width.holds_one⟩ ⟨rfl, rfl⟩

/-! ## Answers -/

variable {operation : Operation} {fault : Fault}

/-- Whether its computation fits decides the answer of an operation: the exact number
`q` in lowest terms if it fits, and the overflow of the operation if not. -/
structure Settles (operation : Operation) (fits : Prop) (q : ℚ) (answer : Except Fault (Ratio w)) : Prop where
  refused : ∀ fault, answer = .error fault ↔ fault = .overflow operation ∧ ¬fits
  exact : ∀ z, answer = .ok z ↔ fits ∧ z.Canonical ∧ z.value = q

/-- It is enough to know when the operation is refused and that its answers are exact. -/
theorem Settles.of_refused {fits : Prop} {answer : Except Fault (Ratio w)}
    (hrefused : ∀ fault, answer = .error fault ↔ fault = .overflow operation ∧ ¬fits)
    (hexact : ∀ z, answer = .ok z → z.Canonical ∧ z.value = q) : Settles operation fits q answer := by
  refine ⟨hrefused, fun z => ⟨fun h => ⟨?_, hexact z h⟩, ?_⟩⟩
  · by_contra hfits
    cases h.symm.trans ((hrefused _).2 ⟨rfl, hfits⟩)
  · rintro ⟨hfits, hcan, hval⟩
    cases h : answer with
    | error fault => exact absurd hfits ((hrefused fault).1 h).2
    | ok z' =>
      obtain ⟨hcan', hval'⟩ := hexact z' h
      rw [hcan'.eq_of_value hcan (hval'.trans hval.symm)]

/-- An operation that answers whenever the width holds the lowest terms. -/
theorem Settles.of_eq {answer : Except Fault (Ratio w)}
    (h : answer = if w.Represents q then .ok (ofRat q) else .error (.overflow operation)) :
    Settles operation (w.Represents q) q answer := by
  refine .of_refused (fun fault => ?_) fun z hz => ?_
  · rw [h]
    split_ifs with hfits <;> simp [hfits, eq_comm]
  · rw [h] at hz
    split_ifs at hz with hfits
    cases hz
    exact ⟨ofRat_canonical hfits, ofRat_value q⟩

/-- A ratio that stands for the exact result is the answer. -/
theorem Settles.eq_ok {answer : Except Fault (Ratio w)} (h : Settles operation (w.Represents q) q answer)
    (hx : x.Canonical) (hval : x.value = q) : answer = .ok x :=
  (h.exact x).2 ⟨hval ▸ hx.represents, hx, hval⟩

/-! ## When a fraction is refused -/

/-- A fraction is refused if its denominator is zero. Any other one is refused just when
the width does not hold its lowest terms, and for the least number over itself. The fault
then names the divisor if Euclid's loop was refused, and the signs in all other cases.
What is made is exact, and so no common factor of the two numbers makes a difference. -/
theorem make_refusals (hn : w.Holds n) (hd : w.Holds d) :
    (make (w := w) n d = .error .divisionByZero ↔ d = 0) ∧
    (d ≠ 0 → ∀ fault, make (w := w) n d = .error fault ↔
      (¬w.Represents (n / d) ∨ n = w.least ∧ d = w.least) ∧
      fault = .overflow (if n = w.least ∧ d = -1 ∨ n = -1 ∧ d = w.least ∨ n = w.least ∧ d = w.least
        then .commonDivisor else .ratioSign)) ∧
    (∀ z : Ratio w, make n d = .ok z → z.Canonical ∧ z.value = n / d) ∧
    ∀ k ≠ 0, w.Holds (k * n) → w.Holds (k * d) → ∀ z z' : Ratio w,
      make n d = .ok z → make (k * n) (k * d) = .ok z' → z' = z := by
  refine ⟨?_, fun hd0 fault => ?_, fun z hz => make_exact hn hd hz, fun k hk hkn hkd z z' hz hz' => ?_⟩
  · rw [make_eq hn hd]
    split_ifs with hd0 <;> simp [hd0]
  · rw [make_eq hn hd, if_neg hd0]
    simp only [← stuck_iff hd0]
    by_cases hstuck : n ≠ 0 ∧ w.Stuck n d
    · have hrefused : ¬w.Represents (n / d) ∨ n = w.least ∧ d = w.least := by
        rw [represents_of_stuck hd0 hstuck]
        exact em' _
      rw [if_pos hstuck, if_pos hstuck]
      simp [hrefused, eq_comm]
    · have hboth : ¬(n = w.least ∧ d = w.least) := fun h => hstuck ((stuck_iff hd0).2 (.inr (.inr h)))
      rw [if_neg hstuck, if_neg hstuck]
      split_ifs with hfits <;> simp [hfits, hboth, eq_comm]
  · obtain ⟨hcan, hval⟩ := make_exact hn hd hz
    obtain ⟨hcan', hval'⟩ := make_exact hkn hkd hz'
    refine hcan'.eq_of_value hcan ?_
    rw [hval, hval', Int.cast_mul, Int.cast_mul, mul_div_mul_left _ _ (by exact_mod_cast hk)]

/-- In eight bits `-128` over itself is refused although it is one, and `127` over `-128`
because its denominator would be `128`. The fraction `9 / -6` and its multiple by `-14`
both are `-3/2`. -/
theorem make_refusals_edge :
    make (w := .w8) (-128) (-128) = .error (.overflow .commonDivisor) ∧
    make (w := .w8) 127 (-128) = .error (.overflow .ratioSign) ∧
    make (w := .w8) 9 (-6) = .ok ⟨-3, 2⟩ ∧ make (w := .w8) (-14 * 9) (-14 * -6) = .ok ⟨-3, 2⟩ := by
  obtain ⟨-, hself, -, -⟩ := make_refusals (w := .w8) (n := -128) (d := -128) (by decide) (by decide)
  obtain ⟨-, hturned, -, -⟩ := make_refusals (w := .w8) (n := 127) (d := -128) (by decide) (by decide)
  obtain ⟨-, -, -, hmultiple⟩ := make_refusals (w := .w8) (n := 9) (d := -6) (by decide) (by decide)
  obtain ⟨-, hanswered, -, -⟩ :=
    make_refusals (w := .w8) (n := -14 * 9) (d := -14 * -6) (by decide) (by decide)
  have hreduced : make (w := .w8) 9 (-6) = .ok ⟨-3, 2⟩ := by decide +kernel
  refine ⟨(hself (by decide) _).2 ⟨.inr (by decide), rfl⟩,
    (hturned (by decide) _).2 ⟨.inl (by decide +kernel), rfl⟩, hreduced, ?_⟩
  cases h : make (w := .w8) (-14 * 9) (-14 * -6) with
  | error fault => exact absurd ((hanswered (by decide) fault).1 h).1 (by decide +kernel)
  | ok z => rw [hmultiple (-14) (by decide) (by decide) (by decide) _ z hreduced h]

end Ratio

end ScoreSequencer
