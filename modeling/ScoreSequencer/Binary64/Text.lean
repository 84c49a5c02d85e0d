import ScoreSequencer.Binary64.Decimal
/-!
# How numbers are written

Three forms: `plain`, the shortest digits without an exponent and without a
fraction if there is none; `scientific`, the shortest digits with `.0` after a
whole number and an exponent where the plain form would be long; and `fixed`,
the exact value rounded to a number of places.
-/

namespace ScoreSequencer

/-- `n` zeros. -/
def zeroDigits (n : Nat) : List Char := List.replicate n '0'

/-- The digits of `n` after zeros, at least `width` in all. -/
def paddedDigits (width n : Nat) : List Char :=
  let digits := decimalDigits n
  zeroDigits (width - digits.length) ++ digits

/-- A decimal in positional notation, with a fraction only if it has one. -/
def Decimal.positional (d : Decimal) : List Char :=
  let digits := decimalDigits d.coefficient
  if 0 ≤ d.exponent then digits ++ zeroDigits d.exponent.toNat
  else
    let places := (-d.exponent).toNat
    let padded := paddedDigits (places + 1) d.coefficient
    padded.take (padded.length - places) ++ '.' :: padded.drop (padded.length - places)

/-- A decimal with one digit before the point, and its exponent. -/
def Decimal.exponential (d : Decimal) : List Char :=
  let fraction := (decimalDigits d.coefficient).drop 1
  (decimalDigits d.coefficient).take 1 ++ (if fraction.isEmpty then [] else '.' :: fraction) ++
    'e' :: (toString d.leading).toList

namespace Binary64

/-- The texts of what is not a finite number, else the sign followed by `digits`. -/
def withSign (x : Binary64) (digits : List Char) : String :=
  if x.isNaN then "NaN"
  else
    let body := if x.isInfinite then "inf".toList else digits
    String.ofList (if x.negative then '-' :: body else body)

/-- The shortest digits, never with an exponent; whole numbers have no point. -/
def plain (x : Binary64) : String :=
  x.withSign (if x.isZero then ['0'] else (shortest x.magnitude).positional)

/-- The shortest digits, with an exponent below `0.0001` and from ten to the
sixteenth on; whole numbers end in `.0` where there is no exponent. -/
def scientific (x : Binary64) : String :=
  x.withSign <|
    if x.isZero then "0.0".toList
    else
      let d := shortest x.magnitude
      if d.leading < -4 ∨ 16 ≤ d.leading then d.exponential
      else if 0 ≤ d.exponent then d.positional ++ ['.', '0']
      else d.positional

/-- The exact value rounded to `places` decimals, a tie to the even digit. -/
def fixed (places : Nat) (x : Binary64) : String :=
  let scaled := roundHalfEven (weight x.magnitude * Nat.pow 10 places) unitsInOne
  x.withSign (Decimal.positional ⟨scaled, -places⟩)

end Binary64

end ScoreSequencer
