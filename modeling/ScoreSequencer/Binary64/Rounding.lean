import ScoreSequencer.Binary64.Basic
/-!
# Rounding a fraction to the nearest binary64 number

Every finite number is a whole multiple of the least positive one, 2 ^ -1074,
called the unit here. `weight` counts the units of a magnitude, and `nearest`
finds the magnitude whose weight is nearest to a fraction of units, an exact tie
going to the even magnitude. Infinity takes part with the weight that the next
binade would begin with, which is how rounding overflows.
-/

namespace ScoreSequencer

/-- The whole number nearest to `num / den`; of two equally near ones the even one. -/
def roundHalfEven (num den : Nat) : Nat :=
  let quotient := num / den
  let rest := num % den
  if 2 * rest < den then quotient
  else if den < 2 * rest then quotient + 1
  else quotient + quotient % 2

namespace Binary64

def unitsInOne : Nat := Nat.pow 2 1074

/-- The number of units a magnitude stands for: the fraction field, with the
hidden bit and scaled by the exponent field unless that is zero. -/
def weight (magnitude : Nat) : Nat :=
  if magnitude < Nat.pow 2 52 then magnitude
  else (Nat.pow 2 52 + magnitude % Nat.pow 2 52) * Nat.pow 2 (magnitude / Nat.pow 2 52 - 1)

/-- The magnitude nearest to `num / den` units. Above 2 ^ 53 units a magnitude
step is `2 ^ shift` units wide, so the fraction is rounded on that grid; a
carry out of the fraction field lands in the exponent field, as it should. -/
def nearest (num den : Nat) : Nat :=
  let shift := (num / den).log2 - 52
  min (shift * Nat.pow 2 52 + roundHalfEven num (den * Nat.pow 2 shift)) infinite

theorem nearest_lt (num den : Nat) : nearest num den < Nat.pow 2 63 :=
  Nat.lt_of_le_of_lt (Nat.min_le_right _ _) infinite_lt

/-- The number of the given sign nearest to `num / den` units. -/
def ofUnits (negative : Bool) (num den : Nat) : Binary64 :=
  ⟨negative, nearest num den, nearest_lt num den⟩

def units (x : Binary64) : Int :=
  if x.negative then -(weight x.magnitude : Int) else weight x.magnitude

end Binary64

end ScoreSequencer
