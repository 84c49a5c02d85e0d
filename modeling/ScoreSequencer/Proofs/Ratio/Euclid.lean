import Mathlib
import ScoreSequencer.Proofs.Ratio.Checked
/-!
# Euclid's loop

The loop runs on signed numbers with truncated remainders. It is refused for the pairs
that are `Stuck` (`gcd_stuck`) and finds the greatest common divisor of all others
(`gcd_ok`), since no step leads to a stuck pair from one that is not. Sums and products only
ask for divisors of a number and a positive one, which never are stuck (`gcd_of_pos`).
-/

namespace ScoreSequencer.Width

variable {w : Width}

/-! ## What the loop answers -/

theorem gcd_tmod (a b : Int) : Int.gcd b (a.tmod b) = Int.gcd a b := by
  rw [Int.gcd_comm a b, Int.tmod_def, mul_comm b, Int.gcd_sub_mul_right_right]

theorem euclid_natAbs {a b g : Int} (h : w.euclid a b = .ok g) : g.natAbs = Int.gcd a b := by
  induction a, b using euclid.induct generalizing g with
  | case1 a =>
    rw [euclid, dif_pos rfl] at h
    cases h
    simp
  | case2 a b hb ih =>
    rw [euclid, dif_neg hb] at h
    obtain ⟨_, _, h⟩ := step_ok.1 h
    rw [ih h, gcd_tmod]

/-! ## What the loop refuses -/

variable {a b : Int}

/-- The pairs whose divisor is not found: the least number beside zero, `-1` or itself.
Its quotient by `-1` leaves the width, and as a divisor it cannot be turned. -/
def Stuck (w : Width) (a b : Int) : Prop :=
  a = w.least ∧ (b = 0 ∨ b = -1 ∨ b = w.least) ∨ b = w.least ∧ (a = 0 ∨ a = -1)

instance : Decidable (w.Stuck a b) := inferInstanceAs (Decidable (_ ∨ _))

theorem not_stuck_of_pos (hb : 0 < b) : ¬w.Stuck a b := by
  have hleast := least_lt (w := w)
  simp only [Stuck]
  omega

/-- The only quotient that leaves the width is the least number turned. -/
theorem holds_tdiv (ha : w.Holds a) (h : ¬(a = w.least ∧ b = -1)) : w.Holds (a.tdiv b) := by
  have hleast := least_eq (w := w)
  have hpos := greatest_pos (w := w)
  obtain ⟨hl, hu⟩ := ha
  by_cases hsmall : b.natAbs ≤ 1
  · obtain rfl | rfl | rfl : b = -1 ∨ b = 0 ∨ b = 1 := by omega
    · rw [Int.tdiv_neg, Int.tdiv_one]
      constructor <;> omega
    · rw [Int.tdiv_zero]
      exact holds_zero
    · rw [Int.tdiv_one]
      exact ⟨hl, hu⟩
  · have hsize : (a.tdiv b).natAbs ≤ a.natAbs / 2 := by
      rw [Int.natAbs_tdiv]
      exact Nat.div_le_div_left (by omega) two_pos
    constructor <;> omega

theorem holds_tmod (hb : w.Holds b) (hb0 : b ≠ 0) : w.Holds (a.tmod b) := by
  have hleast := least_eq (w := w)
  have hlt : (a.tmod b).natAbs < b.natAbs := by
    rw [Int.natAbs_tmod]
    exact Nat.mod_lt _ (Int.natAbs_pos.2 hb0)
  obtain ⟨hl, hu⟩ := hb
  constructor <;> omega

/-- Every other number is its own remainder by the least one. -/
theorem tmod_least (ha : w.Holds a) (hne : a ≠ w.least) : a.tmod w.least = a := by
  have hleast := least_eq (w := w)
  have hsize : a.natAbs < w.least.natAbs := by
    obtain ⟨hl, hu⟩ := ha
    omega
  have hquot : a.tdiv w.least = 0 := by
    rw [← Int.natAbs_eq_zero, Int.natAbs_tdiv]
    exact Nat.div_eq_of_lt hsize
  rw [Int.tmod_def, hquot, mul_zero, sub_zero]

/-- No step leads to a pair that is stuck, unless it starts from one. -/
theorem stuck_of_tmod (ha : w.Holds a) (hb0 : b ≠ 0) (h : w.Stuck b (a.tmod b)) : w.Stuck a b := by
  have hleast := least_lt (w := w)
  have habs : (a.tmod b).natAbs = a.natAbs % b.natAbs := Int.natAbs_tmod a b
  have hlt : a.natAbs % b.natAbs < b.natAbs := Nat.mod_lt _ (Int.natAbs_pos.2 hb0)
  rcases h with ⟨rfl, hrem⟩ | ⟨hrem, rfl | rfl⟩
  · rcases eq_or_ne a w.least with rfl | hne
    · exact .inl ⟨rfl, .inr (.inr rfl)⟩
    · rw [tmod_least ha hne] at hrem
      exact .inr ⟨rfl, by omega⟩
  · exact absurd rfl hb0
  · omega

/-- One step of the loop. -/
theorem euclid_next (hb0 : b ≠ 0) (hquot : w.Holds (a.tdiv b)) : w.euclid a b = w.euclid b (a.tmod b) := by
  rw [euclid, dif_neg hb0, narrow_bind, if_pos hquot]

theorem euclid_ok (ha : w.Holds a) (hb : w.Holds b) (h : ¬w.Stuck a b) :
    ∃ g, w.euclid a b = .ok g ∧ w.Holds g ∧ g ≠ w.least := by
  induction a, b using euclid.induct with
  | case1 a => exact ⟨a, by rw [euclid, dif_pos rfl], ha, fun he => h (.inl ⟨he, .inl rfl⟩)⟩
  | case2 a b hb0 ih =>
    rw [euclid_next hb0 (holds_tdiv ha fun he => h (.inl ⟨he.1, .inr (.inl he.2)⟩))]
    exact ih hb (holds_tmod hb hb0) fun hstuck => h (stuck_of_tmod ha hb0 hstuck)

/-- The divisor is found unless the pair is stuck. -/
theorem gcd_ok (ha : w.Holds a) (hb : w.Holds b) (h : ¬w.Stuck a b) : w.gcd a b = .ok (Int.gcd a b) := by
  obtain ⟨g, hg, hholds, hne⟩ := euclid_ok ha hb h
  have habs := euclid_natAbs hg
  rw [gcd, step_ok]
  refine ⟨g, hg, ?_⟩
  split
  · exact narrow_eq_ok.2 ⟨(holds_neg_iff hholds).2 hne, by omega⟩
  · exact return_ok.2 (by omega)

theorem gcd_of_pos (ha : w.Holds a) (hb : w.Holds b) (hpos : 0 < b) : w.gcd a b = .ok (Int.gcd a b) :=
  gcd_ok ha hb (not_stuck_of_pos hpos)

theorem gcd_next (hb0 : b ≠ 0) (hquot : w.Holds (a.tdiv b)) : w.gcd a b = w.gcd b (a.tmod b) := by
  rw [gcd, gcd, euclid_next hb0 hquot]

/-- A stuck pair comes down to the least number beside zero or `-1`. -/
theorem gcd_stuck (h : w.Stuck a b) : w.gcd a b = .error (.overflow .commonDivisor) := by
  have hleast := least_lt (w := w)
  have hturned : ¬w.Holds (-w.least) := fun hholds => (holds_neg_iff holds_least).1 hholds rfl
  have hzero : w.gcd w.least 0 = .error (.overflow .commonDivisor) := by
    rw [gcd, euclid, dif_pos rfl, step_of_ok, if_pos (by omega), narrow, if_neg hturned]
  have hminus : w.gcd w.least (-1) = .error (.overflow .commonDivisor) := by
    rw [gcd, euclid, dif_neg (by decide), Int.tdiv_neg, Int.tdiv_one, narrow_bind, if_neg hturned]
    rfl
  rcases h with ⟨rfl, rfl | rfl | rfl⟩ | ⟨rfl, rfl | rfl⟩
  · exact hzero
  · exact hminus
  · rw [gcd_next (by omega) (holds_tdiv holds_least (by omega)), Int.tmod_self, hzero]
  · rw [gcd_next (by omega) (holds_tdiv holds_zero (by omega)), Int.zero_tmod, hzero]
  · rw [gcd_next (by omega) (holds_tdiv holds_neg_one (by omega)), tmod_least holds_neg_one (by omega), hminus]

end ScoreSequencer.Width
