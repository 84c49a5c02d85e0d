import ScoreSequencer.Binary64.Rounding
/-!
# Correctly rounded arithmetic

The four operations on finite numbers compute the exact result in units and
round it once. The rest is the rules of IEEE 754 for zeros, infinities and NaNs:
a NaN operand is passed on (the first one, if both are), and an operation without
a numeric result delivers `invalid`.
-/

namespace ScoreSequencer.Binary64

/-- A NaN with its quiet bit set, and any number unchanged. -/
def quiet (x : Binary64) : Binary64 :=
  if x.isNaN then
    ⟨x.negative, x.magnitude ||| Nat.pow 2 51, Nat.or_lt_two_pow x.magnitude_lt (by decide)⟩
  else x

/-- The operation `f` on numbers, with NaN operands passed on. -/
def lift (f : Binary64 → Binary64 → Binary64) (x y : Binary64) : Binary64 :=
  if x.isNaN then x.quiet else if y.isNaN then y.quiet else f x y

/-- The sign bit turned, of a NaN too. -/
def neg (x : Binary64) : Binary64 := { x with negative := !x.negative }

/-- The sum of two numbers. An exact zero is positive unless both operands are negative. -/
def addNumbers (x y : Binary64) : Binary64 :=
  if x.isInfinite then
    if y.isInfinite && x.negative != y.negative then invalid else x
  else if y.isInfinite then y
  else
    let sum := x.units + y.units
    if sum = 0 then { zero with negative := x.negative && y.negative }
    else ofUnits (sum < 0) sum.natAbs 1

def mulNumbers (x y : Binary64) : Binary64 :=
  let negative := x.negative != y.negative
  if x.isInfinite || y.isInfinite then
    if x.isZero || y.isZero then invalid else infinity negative
  else ofUnits negative (weight x.magnitude * weight y.magnitude) unitsInOne

def divNumbers (x y : Binary64) : Binary64 :=
  let negative := x.negative != y.negative
  if x.isInfinite then
    if y.isInfinite then invalid else infinity negative
  else if y.isInfinite then { zero with negative }
  else if y.isZero then
    if x.isZero then invalid else infinity negative
  else ofUnits negative (weight x.magnitude * unitsInOne) (weight y.magnitude)

def add (x y : Binary64) : Binary64 := lift addNumbers x y

/-- A difference of numbers is the sum with the second one's sign turned. -/
def sub (x y : Binary64) : Binary64 := lift (fun x y => addNumbers x y.neg) x y

def mul (x y : Binary64) : Binary64 := lift mulNumbers x y

def div (x y : Binary64) : Binary64 := lift divNumbers x y

instance : Neg Binary64 := ⟨neg⟩
instance : Add Binary64 := ⟨add⟩
instance : Sub Binary64 := ⟨sub⟩
instance : Mul Binary64 := ⟨mul⟩
instance : Div Binary64 := ⟨div⟩

def ofNat (n : Nat) : Binary64 := ofUnits false (n * unitsInOne) 1

def ofInt (n : Int) : Binary64 := ofUnits (n < 0) (n.natAbs * unitsInOne) 1

def half (x : Binary64) : Binary64 := x / ofNat 2

end ScoreSequencer.Binary64
