import Mathlib
import ScoreSequencer.Proofs.Binary64.Monotone
/-!
# Sums in the numeric order

The levels of the finite numbers follow one another, so one level stands for each
whole number of units that is nearest to it (`rounded`). A sum of finite numbers has the
level of the exact sum. Differences therefore have the right sign, adding what is not
negative never leads back, and adding the difference to a later number always leads
forward, since the gap between neighbours is a number itself (`lt_add_sub`).
-/

namespace ScoreSequencer.Binary64

variable {a b d t x y : Binary64}

/-! ## Numbers by level -/

theorem natAbs_level (x : Binary64) : x.level.natAbs = x.magnitude := by
  unfold level
  split_ifs <;> simp

theorem lt_iff : x.lt y = true ↔ x.isNaN = false ∧ y.isNaN = false ∧ x.level < y.level := by
  simp [lt, and_assoc]

theorem le_iff : x.le y = true ↔ x.isNaN = false ∧ y.isNaN = false ∧ x.level ≤ y.level := by
  simp [le, and_assoc]

theorem eqv_iff : x.eqv y = true ↔ x.isNaN = false ∧ y.isNaN = false ∧ x.level = y.level := by
  simp [eqv, and_assoc]

theorem le_refl (hx : x.isNaN = false) : x.le x = true := le_iff.2 ⟨hx, hx, Int.le_refl _⟩

theorem le_trans (hxy : x.le y = true) (hyt : y.le t = true) : x.le t = true := by
  rw [le_iff] at *
  exact ⟨hxy.1, hyt.2.1, hxy.2.2.trans hyt.2.2⟩

theorem finite_iff : x.isFinite = true ↔ -(infinite : Int) < x.level ∧ x.level < infinite := by
  have := natAbs_level x
  rw [isFinite_iff]
  omega

theorem infinite_iff : x.isInfinite = true ↔ x.level = -(infinite : Int) ∨ x.level = infinite := by
  have := natAbs_level x
  rw [isInfinite, decide_eq_true_eq]
  omega

@[simp] theorem level_zero : zero.level = 0 := rfl

@[simp] theorem level_neg (x : Binary64) : (-x).level = -x.level := by
  show (neg x).level = _
  unfold neg level
  cases x.negative <;> simp

theorem rank_lt_of_level (h : x.level < y.level) : x.rank < y.rank := by
  unfold level at h
  unfold rank
  split_ifs at h ⊢ <;> omega

theorem level_bounds (h : x.isNaN = false) : -(infinite : Int) ≤ x.level ∧ x.level ≤ infinite := by
  have := natAbs_level x
  have := isNaN_eq_false.1 h
  omega

/-- Data on the same level are the same, but for the zeros. -/
theorem eq_of_level (h : x.level = y.level) (h0 : x.level ≠ 0) : x = y := by
  apply rank_injective
  unfold level at h h0
  unfold rank
  split_ifs at h h0 ⊢ <;> omega

/-! ## Weights by level -/

/-- The units that a level stands for. -/
def weightAt (k : Int) : Int := if k < 0 then -(weight k.natAbs : Int) else weight k.natAbs

theorem units_eq (x : Binary64) : x.units = weightAt x.level := by
  have hzero : weight 0 = 0 := by simp [weight_eq]
  unfold units weightAt
  rw [natAbs_level]
  unfold level
  split_ifs with hneg hlt hlt
  · rfl
  · have hmag : x.magnitude = 0 := by omega
    simp [hmag, hzero]
  · omega
  · rfl

/-- The gap above a magnitude is a power of two. -/
theorem weight_succ (m : Nat) : weight (m + 1) = weight m + 2 ^ (m / 2 ^ 52 - 1) := by
  rw [weight_eq, weight_eq]
  rcases Nat.lt_or_ge m (2 ^ 52) with hm | hm
  · have hexp : m / 2 ^ 52 - 1 = 0 := by omega
    rw [if_pos hm, hexp, pow_zero]
    split_ifs with hsucc
    · rfl
    · rw [show m + 1 = 2 ^ 52 by omega]
      decide
  · rw [if_neg (by omega), if_neg (by omega)]
    rcases Nat.lt_or_ge (m % 2 ^ 52) (2 ^ 52 - 1) with hlow | hhigh
    · rw [show (m + 1) / 2 ^ 52 = m / 2 ^ 52 by omega, show (m + 1) % 2 ^ 52 = m % 2 ^ 52 + 1 by omega,
        ← Nat.add_assoc, Nat.succ_mul]
    · -- A full fraction field is followed by the empty one of the next binade.
      rw [show (m + 1) / 2 ^ 52 - 1 = m / 2 ^ 52 - 1 + 1 by omega, show (m + 1) % 2 ^ 52 = 0 by omega,
        show m % 2 ^ 52 = 2 ^ 52 - 1 by omega, pow_succ]
      ring

theorem weight_strictMono : StrictMono weight :=
  strictMono_nat_of_lt_succ fun m => by
    rw [weight_succ]
    exact Nat.lt_add_of_pos_right (Nat.two_pow_pos _)

theorem weightAt_strictMono : StrictMono weightAt := by
  intro j k h
  unfold weightAt
  have hmono := weight_strictMono
  split_ifs with hj hk hk
  · have := hmono (show k.natAbs < j.natAbs by omega)
    omega
  · have := weight_pos (show 0 < j.natAbs by omega)
    omega
  · omega
  · exact_mod_cast hmono (show j.natAbs < k.natAbs by omega)

/-! ## Rounding to levels -/

/-- The level nearest to a whole number of units. -/
def rounded (n : Int) : Int := (ofUnits (n < 0) n.natAbs 1).level

theorem rounded_mono : Monotone rounded := by
  intro m n h
  unfold rounded level ofUnits
  have hmono : ∀ {i j : Nat}, i ≤ j → nearest i 1 ≤ nearest j 1 := fun hij =>
    nearest_mono one_pos one_pos (by omega)
  rcases lt_or_ge m 0 with hm | hm <;> rcases lt_or_ge n 0 with hn | hn
  · have := hmono (show n.natAbs ≤ m.natAbs by omega)
    simp only [hm, hn, decide_true, if_true]
    omega
  · simp only [hm, hn.not_gt, decide_true, decide_false, if_true, Bool.false_eq_true, if_false]
    omega
  · omega
  · have := hmono (show m.natAbs ≤ n.natAbs by omega)
    simp only [hm.not_gt, hn.not_gt, decide_false, Bool.false_eq_true, if_false]
    omega

theorem rounded_weightAt {k : Int} (h : k.natAbs < infinite) : rounded (weightAt k) = k := by
  have hround := nearest_weight h
  unfold weightAt
  split_ifs with hk
  · have hpos := weight_pos (show 0 < k.natAbs by omega)
    have hneg : -(weight k.natAbs : Int) < 0 := by omega
    simp only [rounded, ofUnits, level, hneg, decide_true, if_true, Int.natAbs_neg, Int.natAbs_natCast, hround]
    omega
  · have hge : ¬(weight k.natAbs : Int) < 0 := by omega
    simp only [rounded, ofUnits, level, hge, decide_false, Bool.false_eq_true, if_false, Int.natAbs_natCast, hround]
    omega

theorem rounded_units (h : x.isFinite) : rounded x.units = x.level := by
  rw [units_eq, rounded_weightAt (by rw [natAbs_level]; exact isFinite_iff.1 h)]

theorem rounded_bounds (n : Int) : -(infinite : Int) ≤ rounded n ∧ rounded n ≤ infinite := by
  have := nearest_le_infinite n.natAbs 1
  unfold rounded level ofUnits
  dsimp only
  split_ifs <;> omega

theorem rounded_zero : rounded 0 = 0 := by decide +kernel

theorem rounded_neg (n : Int) : rounded (-n) = -rounded n := by
  unfold rounded level ofUnits
  dsimp only
  rw [Int.natAbs_neg]
  rcases lt_trichotomy n 0 with hn | rfl | hn
  · simp [hn, hn.not_gt]
  · decide +kernel
  · simp [hn, hn.not_gt]

theorem rounded_pos {n : Int} : 0 < rounded n ↔ 0 < n := by
  have hone : rounded 1 = 1 := by decide +kernel
  constructor
  · intro h
    by_contra hn
    have := rounded_mono (show n ≤ 0 by omega)
    rw [rounded_zero] at this
    omega
  · intro h
    have := rounded_mono (show 1 ≤ n by omega)
    omega

/-- The powers of two among the weights are hit exactly. -/
theorem weightAt_rounded_two_pow {s : Nat} (h : s < 2046) : weightAt (rounded (2 ^ s)) = 2 ^ s := by
  obtain ⟨m, hm, hweight⟩ : ∃ m < infinite, weight m = 2 ^ s := by
    rcases Nat.lt_or_ge s 52 with hs | hs
    · have hlt : 2 ^ s < 2 ^ 52 := Nat.pow_lt_pow_right (by decide) hs
      exact ⟨2 ^ s, hlt.trans (by decide), by rw [weight_eq, if_pos hlt]⟩
    · obtain ⟨-, hweight⟩ := nearest_scaled (f := 2 ^ 52) (s := s - 52) le_rfl (by decide) (by omega)
      refine ⟨_, ?_, hweight.trans ?_⟩
      · rw [infinite_eq]
        omega
      · rw [← pow_add, Nat.add_sub_cancel' hs]
  have hat : weightAt m = 2 ^ s := by
    rw [weightAt, if_neg (by omega), Int.natAbs_natCast, hweight]
    push_cast
    rfl
  rw [← hat, rounded_weightAt (by rwa [Int.natAbs_natCast])]

/-- The next level is as many units away as a power of two. -/
theorem exists_weightAt_succ {k : Int} (hl : -(infinite : Int) < k) (hu : k < infinite) :
    ∃ s < 2046, weightAt (k + 1) = weightAt k + 2 ^ s := by
  rw [infinite_eq] at hl hu
  rcases lt_or_ge k 0 with hk | hk
  · refine ⟨(k + 1).natAbs / 2 ^ 52 - 1, by omega, ?_⟩
    have hsucc := weight_succ (k + 1).natAbs
    rw [show (k + 1).natAbs + 1 = k.natAbs by omega] at hsucc
    unfold weightAt
    rw [if_pos hk, hsucc]
    push_cast
    split_ifs with hk1
    · ring
    · rw [show k + 1 = 0 by omega]
      simp [weight_eq]
  · refine ⟨k.natAbs / 2 ^ 52 - 1, by omega, ?_⟩
    unfold weightAt
    rw [if_neg (by omega), if_neg (by omega), show (k + 1).natAbs = k.natAbs + 1 by omega, weight_succ]
    push_cast
    ring

/-! ## Sums by level -/

theorem level_add (ha : a.isFinite) (hx : x.isFinite) : (a + x).level = rounded (a.units + x.units) := by
  rw [add_eq_addNumbers ha (isNaN_of_isFinite hx)]
  unfold addNumbers
  rw [isInfinite_eq_false (isFinite_iff.1 ha), isInfinite_eq_false (isFinite_iff.1 hx)]
  simp only [Bool.false_eq_true, if_false]
  split_ifs with hsum
  · rw [hsum, rounded_zero]
    simp [level, zero]
  · rfl

theorem isNaN_of_isInfinite (h : x.isInfinite) : x.isNaN = false := by
  rw [isInfinite, decide_eq_true_eq] at h
  exact isNaN_eq_false.2 h.le

theorem add_infinite (ha : a.isFinite) (hx : x.isInfinite) : a + x = x := by
  rw [add_eq_addNumbers ha (isNaN_of_isInfinite hx), addNumbers_infinite (isFinite_iff.1 ha) hx]

theorem isFinite_or_isInfinite (h : x.isNaN = false) : x.isFinite ∨ x.isInfinite := by
  have hle := isNaN_eq_false.1 h
  rw [isFinite_iff, isInfinite, decide_eq_true_eq]
  omega

theorem isNaN_quiet (h : x.isNaN) : x.quiet.isNaN := by
  have hle := @Nat.left_le_or x.magnitude (Nat.pow 2 51)
  have hlt : infinite < x.magnitude := by simpa [isNaN] using h
  rw [quiet, if_pos h]
  simpa [isNaN] using hlt.trans_le hle

/-- Neither operand of a sum that is a number is a NaN. -/
theorem number_of_add (h : (a + x).isNaN = false) : a.isNaN = false ∧ x.isNaN = false := by
  have hlift : (lift addNumbers a x).isNaN = false := h
  unfold lift at hlift
  split_ifs at hlift with ha hx
  · rw [isNaN_quiet ha] at hlift
    nomatch hlift
  · rw [isNaN_quiet hx] at hlift
    nomatch hlift
  · exact ⟨by simpa using ha, by simpa using hx⟩

/-- An infinite number stays what it is, if anything can be added to it at all. -/
theorem infinite_add (ha : a.isInfinite) (h : (a + x).isNaN = false) : a + x = a := by
  obtain ⟨hanum, hxnum⟩ := number_of_add h
  have hadd : a + x = addNumbers a x := by
    show lift addNumbers a x = _
    rw [lift, hanum, hxnum, if_neg (by simp), if_neg (by simp)]
  rw [hadd] at h ⊢
  unfold addNumbers at h ⊢
  rw [if_pos ha] at h ⊢
  split_ifs at h ⊢
  · exact absurd h (by decide)
  · rfl

/-- A sum is finite only if its first operand is. -/
theorem finite_of_add (h : (a + x).isFinite) : a.isFinite := by
  have hnum := isNaN_of_isFinite h
  rcases isFinite_or_isInfinite (number_of_add hnum).1 with haf | hai
  · exact haf
  · rwa [infinite_add hai hnum] at h

theorem infinite_add_neg (ha : a.isInfinite) : a + -a = invalid := by
  have hnum := isNaN_of_isInfinite ha
  have hneg : (-a).isInfinite := ha
  show lift addNumbers a (-a) = _
  rw [lift, hnum, show (-a).isNaN = false from hnum, if_neg (by simp), if_neg (by simp), addNumbers, if_pos ha, hneg,
    if_pos]
  show (true && a.negative != !a.negative) = true
  cases a.negative <;> rfl

/-- Adding to a finite number keeps the numeric order. -/
theorem add_le_add_left (ha : a.isFinite) (h : x.le y) : (a + x).le (a + y) := by
  obtain ⟨hx, hy, hlevel⟩ := le_iff.1 h
  refine le_iff.2 ⟨add_isNaN ha hx, add_isNaN ha hy, ?_⟩
  rcases isFinite_or_isInfinite hx with hxf | hxi <;> rcases isFinite_or_isInfinite hy with hyf | hyi
  · rw [level_add ha hxf, level_add ha hyf, units_eq, units_eq, units_eq]
    exact rounded_mono (Int.add_le_add_left (weightAt_strictMono.monotone hlevel) _)
  · have hbounds := rounded_bounds (a.units + x.units)
    rw [level_add ha hxf, add_infinite ha hyi]
    have := finite_iff.1 hxf
    have := infinite_iff.1 hyi
    omega
  · have hbounds := rounded_bounds (a.units + y.units)
    rw [level_add ha hyf, add_infinite ha hxi]
    have := finite_iff.1 hyf
    have := infinite_iff.1 hxi
    omega
  · rwa [add_infinite ha hxi, add_infinite ha hyi]

/-- Finite numbers keep their order when the same is added to both. -/
theorem add_le_add_right (ha : a.isFinite) (hd : d.isFinite) (h : a.le d) (hx : x.isNaN = false) :
    (a + x).le (d + x) := by
  refine le_iff.2 ⟨add_isNaN ha hx, add_isNaN hd hx, ?_⟩
  rcases isFinite_or_isInfinite hx with hxf | hxi
  · rw [level_add ha hxf, level_add hd hxf, units_eq, units_eq, units_eq]
    exact rounded_mono (Int.add_le_add_right (weightAt_strictMono.monotone (le_iff.1 h).2.2) _)
  · rw [add_infinite ha hxi, add_infinite hd hxi]

theorem infinite_add_finite (ha : a.isInfinite) (hx : x.isFinite) : a + x = a := by
  show lift addNumbers a x = a
  rw [lift, isNaN_of_isInfinite ha, isNaN_of_isFinite hx, if_neg (by simp), if_neg (by simp), addNumbers, if_pos ha,
    isInfinite_eq_false (isFinite_iff.1 hx), Bool.false_and, if_neg (by simp)]

/-- Adding a zero of either sign changes no number. -/
theorem add_zero_eqv (ha : a.isNaN = false) (hx : x.eqv zero) : (a + x).eqv a := by
  obtain ⟨-, -, hlevel⟩ := eqv_iff.1 hx
  have hxf : x.isFinite := finite_iff.2 (by rw [hlevel]; decide)
  rcases isFinite_or_isInfinite ha with haf | hai
  · refine eqv_iff.2 ⟨add_isNaN haf (isNaN_of_isFinite hxf), ha, ?_⟩
    rw [level_add haf hxf, units_eq x, hlevel, show weightAt zero.level = 0 by decide, Int.add_zero, rounded_units haf]
  · rw [infinite_add_finite hai hxf]
    exact eqv_iff.2 ⟨ha, ha, rfl⟩

theorem le_of_eqv (h : x.eqv y) : x.le y := by
  obtain ⟨hx, hy, hlevel⟩ := eqv_iff.1 h
  exact le_iff.2 ⟨hx, hy, hlevel.le⟩

theorem eqv_symm (h : x.eqv y) : y.eqv x := by
  obtain ⟨hx, hy, hlevel⟩ := eqv_iff.1 h
  exact eqv_iff.2 ⟨hy, hx, hlevel.symm⟩

theorem eqv_of_le_of_le (hxy : x.le y) (hyx : y.le x) : x.eqv y := by
  obtain ⟨hx, hy, hle⟩ := le_iff.1 hxy
  exact eqv_iff.2 ⟨hx, hy, le_antisymm hle (le_iff.1 hyx).2.2⟩

/-- Adding what is not negative does not lead back. -/
theorem le_add_of_nonneg (hx : zero.le x) (h : (a + x).isNaN = false) : a.le (a + x) := by
  obtain ⟨ha, -⟩ := number_of_add h
  rcases isFinite_or_isInfinite ha with haf | hai
  · exact le_trans (le_of_eqv (eqv_symm (add_zero_eqv ha rfl))) (add_le_add_left haf hx)
  · rw [infinite_add hai h]
    exact le_refl ha

/-- Nor does it lead below a finite number: only the positive infinity can be added to
itself, and the negative one, to which it cannot, is below every finite number. -/
theorem le_add_of_le (hd : d.isFinite) (hle : d.le a) (hx : zero.le x) : d.le (a + x) := by
  obtain ⟨-, ha, hlevel⟩ := le_iff.1 hle
  obtain ⟨-, hxnum, hxlevel⟩ := le_iff.1 hx
  refine le_trans hle (le_add_of_nonneg hx ?_)
  rcases isFinite_or_isInfinite ha with haf | hai
  · exact add_isNaN haf hxnum
  · rcases isFinite_or_isInfinite hxnum with hxf | hxi
    · rwa [infinite_add_finite hai hxf]
    · have hinfinite : (infinity false).level = infinite := rfl
      have hpos : 0 < infinite := by decide
      have hdlevel := finite_iff.1 hd
      have halevel := infinite_iff.1 hai
      have hxinf := infinite_iff.1 hxi
      rw [level_zero] at hxlevel
      have hasame : a = infinity false := eq_of_level (by omega) (by omega)
      have hxsame : x = infinity false := eq_of_level (by omega) (by omega)
      rw [hasame, hxsame]
      rfl

theorem rank_le_add_of_number (hx : x.Nonneg) (h : (a + x).isNaN = false) : a.rank ≤ (a + x).rank := by
  rcases isFinite_or_isInfinite (number_of_add h).1 with haf | hai
  · exact rank_le_add haf hx
  · rw [infinite_add hai h]

/-! ## Differences -/

theorem sub_eq (hd : d.isNaN = false) : a - d = a + -d := by
  have hneg : (-d).isNaN = false := hd
  show lift (fun x y => addNumbers x y.neg) a d = lift addNumbers a (-d)
  unfold lift
  rw [hd, hneg]
  rfl

theorem units_neg (x : Binary64) : (-x).units = -x.units := by
  show (neg x).units = _
  unfold neg units
  cases x.negative <;> simp

/-- The level of a difference of finite numbers. -/
theorem level_sub (ha : a.isFinite) (hd : d.isFinite) : (a - d).level = rounded (a.units - d.units) := by
  have hneg : (-d).isFinite := hd
  rw [sub_eq (isNaN_of_isFinite hd), level_add ha hneg, units_neg, Int.sub_eq_add_neg]

theorem number_of_sub (h : (a - d).isNaN = false) : a.isNaN = false ∧ d.isNaN = false := by
  have hlift : (lift (fun x y => addNumbers x y.neg) a d).isNaN = false := h
  unfold lift at hlift
  split_ifs at hlift with ha hd
  · rw [isNaN_quiet ha] at hlift
    nomatch hlift
  · rw [isNaN_quiet hd] at hlift
    nomatch hlift
  · exact ⟨by simpa using ha, by simpa using hd⟩

/-- A difference has the sign that the order says. -/
theorem level_sub_pos_iff (ht : t.isFinite) (ha : a.isNaN = false) : 0 < (t - a).level ↔ a.level < t.level := by
  rcases isFinite_or_isInfinite ha with haf | hai
  · rw [level_sub ht haf, rounded_pos, units_eq, units_eq, Int.sub_pos]
    exact weightAt_strictMono.lt_iff_lt
  · have hneg : (-a).isInfinite := hai
    rw [sub_eq ha, add_infinite ht hneg, level_neg]
    have := finite_iff.1 ht
    have := infinite_iff.1 hai
    have : 0 < infinite := by decide
    omega

theorem sub_isNaN (ht : t.isFinite) (ha : a.isNaN = false) : (t - a).isNaN = false := by
  rw [sub_eq ha]
  exact add_isNaN ht ha

theorem sub_pos_iff (ht : t.isFinite) (ha : a.isNaN = false) : zero.lt (t - a) ↔ a.lt t := by
  have hpos := level_sub_pos_iff ht ha
  simp [lt_iff, sub_isNaN ht ha, ha, isNaN_of_isFinite ht, hpos, show zero.isNaN = false from rfl]

theorem sub_nonpos_iff (ht : t.isFinite) (ha : a.isNaN = false) : (t - a).le zero ↔ t.le a := by
  have hpos := level_sub_pos_iff ht ha
  simp only [le_iff, sub_isNaN ht ha, ha, isNaN_of_isFinite ht, show zero.isNaN = false from rfl, level_zero,
    true_and]
  omega

/-- A positive difference tells the order of its operands, of infinite ones too. -/
theorem lt_of_sub_pos (hpos : zero.lt (t - a)) : a.lt t := by
  obtain ⟨-, hnum, hlevel⟩ := lt_iff.1 hpos
  obtain ⟨ht, ha⟩ := number_of_sub hnum
  rcases isFinite_or_isInfinite ht with htf | hti
  · exact (sub_pos_iff htf ha).1 hpos
  · -- The difference is the infinite number itself, unless both operands are that number.
    rw [sub_eq ha] at hnum hlevel
    rw [infinite_add hti hnum, level_zero] at hlevel
    refine lt_iff.2 ⟨ha, ht, lt_of_not_ge fun hle => ?_⟩
    have hsame : t = a := by
      have htlevel := infinite_iff.1 hti
      have hale := (level_bounds ha).2
      exact eq_of_level (by omega) hlevel.ne'
    rw [← hsame, infinite_add_neg hti] at hnum
    nomatch hnum

theorem infinite_sub (ha : a.isInfinite) (ht : t.isFinite) : a - t = a := by
  rw [sub_eq (isNaN_of_isFinite ht)]
  exact infinite_add_finite ha ht

theorem sub_pos_of_lt (ht : t.isFinite) (h : t.lt a) : zero.lt (a - t) := by
  obtain ⟨-, ha, hlevel⟩ := lt_iff.1 h
  rcases isFinite_or_isInfinite ha with haf | hai
  · exact (sub_pos_iff haf (isNaN_of_isFinite ht)).2 h
  · rw [infinite_sub hai ht]
    have htlevel := finite_iff.1 ht
    have halevel := infinite_iff.1 hai
    refine lt_iff.2 ⟨rfl, ha, ?_⟩
    rw [level_zero]
    omega

/-- Two different numbers differ by the same in either direction, but for the sign. -/
theorem neg_sub_of_lt (ht : t.isFinite) (h : t.lt a) : -(t - a) = a - t := by
  obtain ⟨-, -, hpos⟩ := lt_iff.1 (sub_pos_of_lt ht h)
  rw [level_zero] at hpos
  refine (eq_of_level ?_ hpos.ne').symm
  rw [level_neg]
  rcases isFinite_or_isInfinite (lt_iff.1 h).2.1 with haf | hai
  · rw [level_sub ht haf, level_sub haf ht, ← rounded_neg, Int.neg_sub]
  · have hneg : (-a).isInfinite := hai
    rw [infinite_sub hai ht, sub_eq (isNaN_of_isInfinite hai), add_infinite ht hneg, level_neg, Int.neg_neg]

/-- Adding the difference to a later number always leads forward. The gap above a
number is a power of two, so the difference is not rounded below it. -/
theorem lt_add_sub (hpos : zero.lt (t - a)) (h : (a + (t - a)).isNaN = false) : a.lt (a + (t - a)) := by
  obtain ⟨ha, hd⟩ := number_of_add h
  obtain ⟨-, htnum, hlt⟩ := lt_iff.1 (lt_of_sub_pos hpos)
  obtain ⟨-, -, hlevel⟩ := lt_iff.1 hpos
  rw [level_zero] at hlevel
  refine lt_iff.2 ⟨ha, h, ?_⟩
  rcases isFinite_or_isInfinite ha with haf | hai
  · have habounds := finite_iff.1 haf
    rcases isFinite_or_isInfinite hd with hdf | hdi
    · have ht : t.isFinite := finite_of_add (sub_eq ha ▸ hdf)
      have htbounds := finite_iff.1 ht
      obtain ⟨s, hs, hgap⟩ := exists_weightAt_succ habounds.1 habounds.2
      have hspan : a.units + 2 ^ s ≤ t.units := by
        rw [units_eq, ← hgap, units_eq]
        exact weightAt_strictMono.monotone hlt
      have hdiff : 2 ^ s ≤ (t - a).units := by
        rw [units_eq, level_sub ht haf, ← weightAt_rounded_two_pow hs]
        exact weightAt_strictMono.monotone (rounded_mono (by omega))
      calc a.level < a.level + 1 := by omega
        _ = rounded (weightAt (a.level + 1)) := (rounded_weightAt (by omega)).symm
        _ ≤ rounded (a.units + (t - a).units) := rounded_mono (by rw [hgap, ← units_eq]; omega)
        _ = (a + (t - a)).level := (level_add haf hdf).symm
    · have hdlevel := infinite_iff.1 hdi
      rw [add_infinite haf hdi]
      omega
  · -- Everything is infinitely far from the negative infinity, and their sum is no number.
    have halevel := infinite_iff.1 hai
    have htle := (level_bounds htnum).2
    have hspan : (t - a).level = (-a).level := by
      rw [level_neg, sub_eq ha]
      rcases isFinite_or_isInfinite htnum with htf | hti
      · rw [add_infinite htf (show (-a).isInfinite from hai), level_neg]
      · have htlevel := infinite_iff.1 hti
        rw [infinite_add hti (sub_eq ha ▸ hd)]
        omega
    rw [eq_of_level hspan hlevel.ne', infinite_add_neg hai] at h
    nomatch h

/-! ## Halves -/

theorem negative_of_pos (hx : zero.lt x) : x.negative = false := by
  obtain ⟨-, -, hpos⟩ := lt_iff.1 hx
  rw [level_zero, level] at hpos
  split_ifs at hpos with hneg
  · omega
  · simpa using hneg

/-- Half of a positive number is none of the negative ones, and no greater than the number. -/
theorem half_of_pos (hx : zero.lt x) : x.half.Nonneg ∧ x.half.magnitude ≤ x.magnitude := by
  obtain ⟨-, hnum, -⟩ := lt_iff.1 hx
  obtain ⟨htwo, hfin⟩ := weight_ofNat (n := 2) (by decide)
  have hdiv : x.half = divNumbers x (ofNat 2) := by
    show lift divNumbers x (ofNat 2) = _
    rw [lift, hnum, isNaN_eq_false.2 hfin.le, if_neg (by simp), if_neg (by simp)]
  have hsign : (x.negative != (ofNat 2).negative) = false := by rw [negative_of_pos hx]; rfl
  have hpos : (ofNat 2).isZero = false := by decide +kernel
  rw [hdiv]
  unfold divNumbers
  dsimp only
  rw [hsign, isInfinite_eq_false hfin, hpos, htwo]
  simp only [Bool.false_eq_true, if_false]
  split_ifs with hinf
  · rw [isInfinite, decide_eq_true_eq] at hinf
    exact ⟨⟨rfl, le_rfl⟩, hinf.ge⟩
  · have hxf : x.magnitude < infinite := by
      have := isNaN_eq_false.1 hnum
      simp only [isInfinite, decide_eq_true_eq] at hinf
      omega
    refine ⟨⟨rfl, nearest_le_infinite _ _⟩, ?_⟩
    calc nearest (weight x.magnitude * unitsInOne) (2 * unitsInOne)
        ≤ nearest (weight x.magnitude) 1 := by
          refine nearest_mono (Nat.mul_pos two_pos unitsInOne_pos) one_pos ?_
          rw [mul_one]
          exact Nat.mul_le_mul_left _ (by omega)
      _ = x.magnitude := nearest_weight hxf

theorem half_nonneg (hx : zero.lt x) : zero.le x.half := by
  obtain ⟨hhalf, -⟩ := half_of_pos hx
  refine le_iff.2 ⟨rfl, isNaN_eq_false.2 hhalf.number, ?_⟩
  simp [level, hhalf.positive, zero]

theorem half_le (hx : zero.lt x) : x.half.le x := by
  obtain ⟨hhalf, hle⟩ := half_of_pos hx
  refine le_iff.2 ⟨isNaN_eq_false.2 hhalf.number, (lt_iff.1 hx).2.1, ?_⟩
  simp only [level, hhalf.positive, negative_of_pos hx, Bool.false_eq_true, if_false]
  exact_mod_cast hle

end ScoreSequencer.Binary64
