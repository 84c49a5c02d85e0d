import ScoreSequencer.Binary64.Arithmetic
/-!
# Binary64 numbers and decimals

`Decimal.magnitude` reads a decimal to the nearest binary64 magnitude.
`Binary64.shortest` goes the other way: among the decimals that read back to the
same number it takes one with the fewest digits, and of those the nearest. Both
are exact computations on natural numbers.
-/

namespace ScoreSequencer

/-- The non-negative decimal `coefficient * 10 ^ exponent`. -/
structure Decimal where
  coefficient : Nat
  exponent : Int
deriving DecidableEq, Repr

/-- The digits of a natural number in base ten, the leading one first. -/
def decimalDigits (n : Nat) : List Char := Nat.toDigits 10 n

namespace Decimal

/-- The exponent of ten at which a decimal other than zero has its leading digit. -/
def leading (d : Decimal) : Int := (decimalDigits d.coefficient).length - 1 + d.exponent

/-- The binary64 magnitude nearest to a decimal. A leading digit far beyond the
range settles the answer without forming the power of ten. -/
def magnitude (d : Decimal) : Nat :=
  if d.coefficient = 0 then 0
  else if 309 ≤ d.leading then Binary64.infinite
  else if d.leading < -325 then 0
  else if 0 ≤ d.exponent then
    Binary64.nearest (d.coefficient * Nat.pow 10 d.exponent.toNat * Binary64.unitsInOne) 1
  else Binary64.nearest (d.coefficient * Binary64.unitsInOne) (Nat.pow 10 (-d.exponent).toNat)

theorem magnitude_lt (d : Decimal) : d.magnitude < Nat.pow 2 63 := by
  unfold magnitude
  split
  · decide
  · split
    · exact Binary64.infinite_lt
    · split
      · decide
      · split <;> exact Binary64.nearest_lt _ _

/-- The same decimal with no zero at the end of its coefficient. -/
def trim (d : Decimal) : Decimal :=
  let zeros := ((decimalDigits d.coefficient).reverse.takeWhile (· = '0')).length
  if d.coefficient = 0 then ⟨0, 0⟩ else ⟨d.coefficient / Nat.pow 10 zeros, d.exponent + zeros⟩

end Decimal

namespace Binary64

/-- The number of the given sign nearest to a decimal. -/
def ofDecimal (negative : Bool) (d : Decimal) : Binary64 := ⟨negative, d.magnitude, d.magnitude_lt⟩

/-- The exponent of the leading decimal digit of a number of `weight` units,
`weight` not being zero. The factor 10 ^ 400 lifts every number above one. -/
def leadingExponent (weight : Nat) : Int :=
  (decimalDigits (weight * Nat.pow 10 400 / unitsInOne)).length - 401

/-- The neighbours of a magnitude on the grid of multiples of `10 ^ exponent` that
read back to it, the nearer one; of two equally near ones the greater. -/
def onGrid? (magnitude : Nat) (exponent : Int) : Option Decimal :=
  let num := weight magnitude * Nat.pow 10 (-exponent).toNat
  let den := unitsInOne * Nat.pow 10 exponent.toNat
  let below : Decimal := ⟨num / den, exponent⟩
  let above : Decimal := ⟨num / den + 1, exponent⟩
  let candidates := if 2 * (num % den) < den then [below, above] else [above, below]
  candidates.find? (·.magnitude = magnitude)

/-- The shortest decimal that reads back to a finite magnitude other than zero,
searched on the grids of one to seventeen digits; seventeen always suffice, and
the exact decimal stands behind them. -/
def shortest (magnitude : Nat) : Decimal :=
  let top := leadingExponent (weight magnitude)
  match (List.range 17).findSome? fun (n : Nat) => onGrid? magnitude (top - n) with
  | some d => d.trim
  | none => ⟨weight magnitude * Nat.pow 5 1074, -1074⟩

end Binary64

end ScoreSequencer
