import Mathlib
import ScoreSequencer.Proofs.Binary64.Order
/-!
# Patterns of 64 bits

A datum is a pattern of 64 bits, and every pattern is one (`pattern_bijective`). The total order
compares patterns as signed numbers after all bits but the sign are turned in those that have
the sign set; `rank` is that number (`rank_eq_key`). On numbers, zeros of different signs apart,
the total order is the numeric one (`order_eq_totalOrder`).
-/

namespace ScoreSequencer.Binary64

variable {x y : Binary64} {p : BitVec 64}

/-! ## Data and their patterns -/

/-- The bits of a datum, the sign in front. -/
def pattern (x : Binary64) : BitVec 64 := BitVec.ofNat 64 x.bits

theorem toNat_pattern (x : Binary64) : x.pattern.toNat = (if x.negative then 2 ^ 63 else 0) + x.magnitude := by
  have hlt := x.magnitude_lt
  rw [pattern, BitVec.toNat_ofNat, bits]
  simp only [Nat.pow_eq] at hlt ⊢
  split_ifs <;> omega

theorem pattern_injective : Function.Injective pattern := by
  intro x y h
  have hnat := congrArg BitVec.toNat h
  rw [toNat_pattern, toNat_pattern] at hnat
  have hx := x.magnitude_lt
  have hy := y.magnitude_lt
  simp only [Nat.pow_eq] at hx hy
  apply rank_injective
  unfold rank
  split_ifs at hnat ⊢ <;> omega

theorem pattern_ofBits (p : BitVec 64) : (ofBits p.toNat).pattern = p := by
  apply BitVec.eq_of_toNat_eq
  have hlt := p.isLt
  rw [toNat_pattern, ofBits]
  simp only [Nat.pow_eq, Nat.testBit_eq_decide_div_mod_eq, decide_eq_true_eq]
  split_ifs <;> omega

theorem pattern_bijective : Function.Bijective pattern :=
  ⟨pattern_injective, fun p => ⟨_, pattern_ofBits p⟩⟩

/-! ## The total order of patterns -/

/-- The signed number by which a pattern is ordered: the sign is spread over the other bits
to turn them if it is set. -/
def key (p : BitVec 64) : Int := (p ^^^ (p.sshiftRight 63 >>> 1)).toInt

/-- All bits below the leading one are turned. -/
theorem xor_two_pow_sub_one {m k : Nat} (h : m < 2 ^ k) :
    (2 ^ k + m) ^^^ (2 ^ k - 1) = 2 ^ k + (2 ^ k - (m + 1)) := by
  apply Nat.eq_of_testBit_eq
  intro i
  rw [Nat.testBit_xor, Nat.testBit_two_pow_sub_one]
  rcases lt_trichotomy i k with hi | rfl | hi
  · rw [Nat.testBit_two_pow_add_gt hi, Nat.testBit_two_pow_add_gt hi, Nat.testBit_two_pow_sub_succ h]
    simp [hi]
  · rw [Nat.testBit_two_pow_add_eq, Nat.testBit_two_pow_add_eq, Nat.testBit_lt_two_pow h,
      Nat.testBit_lt_two_pow (by omega)]
    simp
  · have hle : 2 ^ (k + 1) ≤ 2 ^ i := Nat.pow_le_pow_right two_pos hi
    rw [pow_succ] at hle
    rw [Nat.testBit_lt_two_pow (by omega), Nat.testBit_lt_two_pow (by omega)]
    simp [hi.not_gt]

theorem key_of_lt (h : p.toNat < 2 ^ 63) : key p = p.toNat := by
  have hmsb : p.msb = false := by
    rw [BitVec.msb_eq_decide, decide_eq_false_iff_not]
    omega
  have hshift : p.sshiftRight 63 = 0 := by
    rw [BitVec.sshiftRight_eq_of_msb_false hmsb]
    apply BitVec.eq_of_toNat_eq
    rw [BitVec.toNat_ushiftRight, Nat.shiftRight_eq_div_pow, Nat.div_eq_of_lt h]
    rfl
  rw [key, hshift]
  simp [BitVec.toInt_eq_toNat_of_msb hmsb]

theorem key_of_ge (h : 2 ^ 63 ≤ p.toNat) : key p = 2 ^ 63 - 1 - p.toNat := by
  have hlt := p.isLt
  have hmsb : p.msb = true := by
    rw [BitVec.msb_eq_decide, decide_eq_true_eq]
    omega
  have hshift : p.sshiftRight 63 >>> 1 = BitVec.ofNat 64 (2 ^ 63 - 1) := by
    rw [BitVec.sshiftRight_eq_of_msb_true hmsb]
    have hzero : ~~~p >>> 63 = 0 := by
      apply BitVec.eq_of_toNat_eq
      rw [BitVec.toNat_ushiftRight, BitVec.toNat_not, Nat.shiftRight_eq_div_pow, Nat.div_eq_of_lt (by omega)]
      rfl
    rw [hzero]
    decide
  rw [key, hshift]
  have hxor : (p ^^^ BitVec.ofNat 64 (2 ^ 63 - 1)).toNat = 2 ^ 63 + (2 ^ 63 - (p.toNat - 2 ^ 63 + 1)) := by
    rw [BitVec.toNat_xor, BitVec.toNat_ofNat, ← xor_two_pow_sub_one (by omega), Nat.add_sub_cancel' h]
    rfl
  rw [BitVec.toInt_eq_toNat_cond, hxor]
  split_ifs <;> omega

/-- The rank of a datum is the number its pattern is ordered by. -/
theorem rank_eq_key (x : Binary64) : x.rank = key x.pattern := by
  have hnat := toNat_pattern x
  have hlt := x.magnitude_lt
  simp only [Nat.pow_eq] at hlt
  unfold rank
  split_ifs at hnat ⊢
  · rw [key_of_ge (by omega), hnat]
    push_cast
    omega
  · rw [key_of_lt (by omega), hnat]
    simp

/-! ## The numeric order -/

/-- Both are zero, one with the sign and one without. -/
def OppositeZeros (x y : Binary64) : Prop := x.isZero ∧ y.isZero ∧ x.negative ≠ y.negative

instance : Decidable (OppositeZeros x y) := inferInstanceAs (Decidable (_ ∧ _))

theorem level_lt_iff (h : ¬OppositeZeros x y) : x.level < y.level ↔ x.rank < y.rank := by
  simp only [OppositeZeros, isZero, decide_eq_true_eq] at h
  unfold level rank
  cases hx : x.negative <;> cases hy : y.negative <;> simp only [hx, hy] at h ⊢ <;> simp at h ⊢ <;> omega

/-- On numbers the total order only adds that the zeros are told apart. -/
theorem order_eq_totalOrder (hx : x.isNaN = false) (hy : y.isNaN = false) (h : ¬OppositeZeros x y) :
    x.order y = some (x.totalOrder y) := by
  have hflip : ¬OppositeZeros y x := fun hzeros => h ⟨hzeros.2.1, hzeros.1, hzeros.2.2.symm⟩
  have hlt := level_lt_iff h
  have hgt := level_lt_iff hflip
  rw [order, hx, hy, if_neg (by simp), totalOrder]
  congr 1
  rcases lt_trichotomy x.rank y.rank with hrank | hrank | hrank
  · rw [compare_lt_iff_lt.2 hrank, compare_lt_iff_lt.2 (hlt.2 hrank)]
  · rw [compare_eq_iff_eq.2 hrank, compare_eq_iff_eq.2 (by omega)]
  · rw [compare_gt_iff_gt.2 hrank, compare_gt_iff_gt.2 (hgt.2 hrank)]

end ScoreSequencer.Binary64
