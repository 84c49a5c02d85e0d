import ScoreSequencer.Time
/-!
# A virtual clock

A virtual clock stands still except while someone sleeps on it, and then it moves
on at once. Real sleeps are not exact, so it can be told to oversleep by a fixed
span and to wake up early a number of times. It keeps a record of the sleeps
requested.

Waiting for an instant means sleeping for the remaining span until none remains.
Every such sleep either uses up an early wake-up or moves the clock forward, so
`stepsLeft` bounds the number of sleeps.
-/

namespace ScoreSequencer

/-- A clock that only sleeping moves. -/
structure VirtualClock where
  now : Instant
  /-- Every full sleep lasts this much longer than requested. -/
  oversleep : Span := .zero
  /-- So many of the next sleeps last only half of what is requested. -/
  early : Nat := 0
  sleeps : Array Span := #[]

namespace VirtualClock

/-- A clock that oversleeps by a span, if the span is positive. -/
def withOversleep (c : VirtualClock) (oversleep : Span) : VirtualClock :=
  { c with oversleep := oversleep.max .zero }

def withEarlyWakeups (c : VirtualClock) (count : Nat) : VirtualClock := { c with early := count }

def advance (c : VirtualClock) (d : Span) : VirtualClock := { c with now := c.now + d }

def sleep (c : VirtualClock) (d : Span) : VirtualClock :=
  let c := { c with sleeps := c.sleeps.push d }
  match c.early with
  | 0 => (c.advance d).advance c.oversleep
  | early + 1 => { c with early }.advance d.half

/-! ## Waiting -/

/-- The span from now to an instant. -/
def remaining (c : VirtualClock) (target : Instant) : Span := target - c.now

/-- The early wake-ups to come and the numbers between now and the target. -/
def stepsLeft (c : VirtualClock) (target : Instant) : Nat :=
  c.early + (target.seconds.rank - c.now.seconds.rank).toNat

/-- The clock after sleeping for what remains until nothing does. A sleep after
which no fewer steps are left has taken the clock off the numbers: then nothing
remains either. -/
def sleepUntil (c : VirtualClock) (target : Instant) : VirtualClock :=
  if (c.remaining target).isPositive then
    let next := c.sleep (c.remaining target)
    if next.stepsLeft target < c.stepsLeft target then next.sleepUntil target else next
  else c
termination_by c.stepsLeft target

/-- Waits for an instant. The span is how late it already was, or zero if the
clock had to sleep. -/
def waitUntil (c : VirtualClock) (target : Instant) : Span × VirtualClock :=
  let remaining := c.remaining target
  if remaining.seconds.le .zero then (-remaining, c) else (.zero, c.sleepUntil target)

end VirtualClock

end ScoreSequencer
