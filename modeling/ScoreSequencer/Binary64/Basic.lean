/-!
# Binary64 numbers as bit patterns

A `Binary64` is a sign bit and the 63 bits below it read as one number, its
magnitude. Read this way the magnitudes of the finite numbers, infinity and the
NaNs follow one another, so the numeric order and the total order of IEEE 754
are orders of integers, `level` and `rank`. A NaN keeps its sign and payload.
-/

namespace ScoreSequencer

/-- An IEEE 754 binary64 datum: the sign bit, and the exponent and fraction
fields as one number. -/
structure Binary64 where
  negative : Bool
  magnitude : Nat
  magnitude_lt : magnitude < Nat.pow 2 63 := by decide
deriving DecidableEq

namespace Binary64

/-- The magnitude of infinity: all exponent bits and no fraction bit. -/
def infinite : Nat := 2047 * Nat.pow 2 52

theorem infinite_lt : infinite < Nat.pow 2 63 := by decide

def zero : Binary64 := ⟨false, 0, by decide⟩

def infinity (negative : Bool) : Binary64 := ⟨negative, infinite, infinite_lt⟩

/-- The NaN that an invalid operation on numbers delivers: negative, quiet, without payload. -/
def invalid : Binary64 := ⟨true, 4095 * Nat.pow 2 51, by decide⟩

instance : Inhabited Binary64 := ⟨zero⟩

/-! ## Bits -/

def bits (x : Binary64) : Nat := (if x.negative then Nat.pow 2 63 else 0) + x.magnitude

/-- The datum whose 64 bits are `n`; higher bits are not read. -/
def ofBits (n : Nat) : Binary64 :=
  ⟨n.testBit 63, n % Nat.pow 2 63, Nat.mod_lt _ (by decide)⟩

/-! ## Classes -/

def isNaN (x : Binary64) : Bool := infinite < x.magnitude

def isInfinite (x : Binary64) : Bool := x.magnitude = infinite

def isFinite (x : Binary64) : Bool := x.magnitude < infinite

def isZero (x : Binary64) : Bool := x.magnitude = 0

/-! ## Orders -/

/-- The numeric order key: both zeros have level 0. -/
def level (x : Binary64) : Int := if x.negative then -x.magnitude else x.magnitude

/-- The key of the total order: negative data descend from -1, the others ascend from 0. -/
def rank (x : Binary64) : Int := if x.negative then -x.magnitude - 1 else x.magnitude

/-- The total order of all bit patterns: negative NaNs first, positive NaNs last,
and the negative zero before the positive one. -/
def totalOrder (x y : Binary64) : Ordering := compare x.rank y.rank

/-- The numeric order; a NaN is not comparable, not even with itself. -/
def order (x y : Binary64) : Option Ordering :=
  if x.isNaN || y.isNaN then none else some (compare x.level y.level)

/-- Numerically less; false if either is a NaN. -/
def lt (x y : Binary64) : Bool := !x.isNaN && !y.isNaN && x.level < y.level

/-- Numerically at most; false if either is a NaN. -/
def le (x y : Binary64) : Bool := !x.isNaN && !y.isNaN && x.level ≤ y.level

/-- Numerically equal: the zeros are equal, and no NaN equals anything. -/
def eqv (x y : Binary64) : Bool := !x.isNaN && !y.isNaN && x.level = y.level

/-- Strictly above zero, and not infinite. -/
def isPositive (x : Binary64) : Bool := x.isFinite && zero.lt x

end Binary64

end ScoreSequencer
