import ScoreSequencer.Width
import ScoreSequencer.Binary64.Text
/-!
# Exact ratios in a signed width

A `Ratio w` is a fraction whose numerator and denominator are numbers of the
width `w`. The operations keep fractions `Canonical`: in lowest terms, with a
positive denominator and zero as `0/1`. Canonical fractions are therefore equal
exactly when their numbers are.

Every step is narrowed to the width, so an operation may be refused although its
result would fit; which computation the fault names depends on the first step
that does not fit.
-/

namespace ScoreSequencer

/-- A fraction of numbers of the width `w`. -/
structure Ratio (w : Width) where
  numer : Int
  denom : Int
deriving DecidableEq, Repr

namespace Ratio

variable {w : Width}

/-- In lowest terms with a positive denominator, and within the width. -/
structure Canonical (r : Ratio w) : Prop where
  denom_pos : 0 < r.denom
  coprime : Int.gcd r.numer r.denom = 1
  holds_numer : w.Holds r.numer
  holds_denom : w.Holds r.denom

/-! ## Making ratios -/

def ofInt (n : Int) : Ratio w := ⟨n, 1⟩

def zero : Ratio w := ofInt 0

def one : Ratio w := ofInt 1

instance : Inhabited (Ratio w) := ⟨zero⟩

/-- The fraction `n / d` in lowest terms. A negative denominator is made positive
by turning both signs. -/
def make (n d : Int) : Except Fault (Ratio w) :=
  if d = 0 then .error .divisionByZero
  else if n = 0 then .ok zero
  else do
    let g ← w.gcd n d
    let numer := n.tdiv g
    let denom := d.tdiv g
    if denom < 0 then
      let numer ← w.narrow .ratioSign (-numer)
      let denom ← w.narrow .ratioSign (-denom)
      return ⟨numer, denom⟩
    else return ⟨numer, denom⟩

/-! ## Reading ratios -/

def isZero (r : Ratio w) : Bool := r.numer = 0

def isNegative (r : Ratio w) : Bool := r.numer < 0

def isInteger (r : Ratio w) : Bool := r.denom = 1

/-- The quotient of the nearest binary64 numbers of both fields. -/
def toBinary64 (r : Ratio w) : Binary64 := Binary64.ofInt r.numer / Binary64.ofInt r.denom

/-- Zero without a denominator, else `numerator/denominator`. -/
def text (r : Ratio w) : String :=
  if r.isZero then "0" else toString r.numer ++ "/" ++ toString r.denom

/-! ## Arithmetic -/

/-- The fraction turned upside down. -/
def recip (r : Ratio w) : Except Fault (Ratio w) := make r.denom r.numer

def neg (r : Ratio w) : Except Fault (Ratio w) := do
  let numer ← w.narrow .ratioNegation (-r.numer)
  return ⟨numer, r.denom⟩

/-- Both fractions brought to the least common denominator, their numerators
combined by `f`. -/
def combine (operation : Operation) (f : Int → Int → Int) (x y : Ratio w) :
    Except Fault (Ratio w) := do
  let g ← w.gcd x.denom y.denom
  let scaleX := y.denom.tdiv g
  let scaleY := x.denom.tdiv g
  let numerX ← w.narrow operation (x.numer * scaleX)
  let numerY ← w.narrow operation (y.numer * scaleY)
  let numer ← w.narrow operation (f numerX numerY)
  let denom ← w.narrow operation (x.denom * scaleX)
  make numer denom

def add (x y : Ratio w) : Except Fault (Ratio w) := combine .ratioAddition (· + ·) x y

def sub (x y : Ratio w) : Except Fault (Ratio w) := combine .ratioSubtraction (· - ·) x y

/-- Each numerator is reduced against the other's denominator first, so the
products are those of the result in lowest terms. -/
def mul (x y : Ratio w) : Except Fault (Ratio w) := do
  let g ← w.gcd x.numer y.denom
  let h ← w.gcd y.numer x.denom
  let numer ← w.narrow .ratioMultiplication (x.numer.tdiv g * y.numer.tdiv h)
  let denom ← w.narrow .ratioMultiplication (x.denom.tdiv h * y.denom.tdiv g)
  make numer denom

def div (x y : Ratio w) : Except Fault (Ratio w) :=
  if y.isZero then .error .divisionByZero
  else do x.mul (← y.recip)

/-! ## Order -/

/-- Different signs decide; equal ones are decided by cross multiplication. -/
def cmp (x y : Ratio w) : Except Fault Ordering :=
  if x.numer.sign ≠ y.numer.sign then .ok (compare x.numer.sign y.numer.sign)
  else do
    let left ← w.narrow .ratioComparison (x.numer * y.denom)
    let right ← w.narrow .ratioComparison (y.numer * x.denom)
    return compare left right

/-- The greater ratio, and the first of two equal ones. -/
def max (x y : Ratio w) : Except Fault (Ratio w) := do
  match ← x.cmp y with
  | .lt => return y
  | _ => return x

/-- The lesser ratio, and the first of two equal ones. -/
def min (x y : Ratio w) : Except Fault (Ratio w) := do
  match ← x.cmp y with
  | .gt => return y
  | _ => return x

end Ratio

end ScoreSequencer
