import ScoreSequencer.Fault
/-!
# Signed integer widths

Exact arithmetic is carried out on `Int` and every intermediate result is
narrowed to a `Width`: a result that the width cannot hold is an overflow of
the operation at hand, never a wrapped number.
-/

namespace ScoreSequencer

inductive Width where
  | w8 | w16 | w32 | w64 | w128
deriving DecidableEq, Repr

namespace Width

def bits : Width → Nat
  | w8 => 8
  | w16 => 16
  | w32 => 32
  | w64 => 64
  | w128 => 128

def least (w : Width) : Int := -Nat.pow 2 (w.bits - 1)

/-- The greatest number of the width; it is one short of the least one's absolute value. -/
def greatest (w : Width) : Int := Nat.pow 2 (w.bits - 1) - 1

def Holds (w : Width) (n : Int) : Prop := w.least ≤ n ∧ n ≤ w.greatest

instance (w : Width) (n : Int) : Decidable (w.Holds n) := inferInstanceAs (Decidable (_ ∧ _))

/-- `n` itself if the width holds it, else the overflow of `operation`. -/
def narrow (w : Width) (operation : Operation) (n : Int) : Except Fault Int :=
  if w.Holds n then .ok n else .error (.overflow operation)

/-- Euclid's remainders with truncated division, down to the last one that is
not zero. The least number divided by `-1` has a quotient outside the width and
is refused. -/
def euclid (w : Width) (a b : Int) : Except Fault Int :=
  if _ : b = 0 then .ok a
  else do
    let _ ← w.narrow .commonDivisor (a.tdiv b)
    w.euclid b (a.tmod b)
termination_by b.natAbs
decreasing_by
  rw [Int.natAbs_tmod]
  exact Nat.mod_lt _ (Int.natAbs_pos.2 ‹_›)

/-- The greatest common divisor, never negative. Its sign would follow the last
remainder, so it is turned at the end, which the least number does not survive. -/
def gcd (w : Width) (a b : Int) : Except Fault Int := do
  let g ← w.euclid a b
  if g < 0 then w.narrow .commonDivisor (-g) else return g

end Width

end ScoreSequencer
