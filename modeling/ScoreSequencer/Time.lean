import ScoreSequencer.Binary64.Text
/-!
# Instants, spans and durations

An `Instant` is counted in seconds from the beginning of 2020 and a `Span` is a
signed number of seconds, both as binary64 numbers, so adding to them rounds. A
`Duration` is a whole number of nanoseconds, as system clocks count them.
-/

namespace ScoreSequencer

/-! ## Durations -/

/-- A whole number of nanoseconds. -/
structure Duration where
  nanoseconds : Nat
deriving DecidableEq, Repr

namespace Duration

def nanosecondsInSecond : Nat := Nat.pow 10 9

def ofParts (seconds nanoseconds : Nat) : Duration := ⟨seconds * nanosecondsInSecond + nanoseconds⟩

def seconds (d : Duration) : Nat := d.nanoseconds / nanosecondsInSecond

def subseconds (d : Duration) : Nat := d.nanoseconds % nanosecondsInSecond

/-- The longest duration has 2 ^ 64 - 1 whole seconds. -/
def limit : Nat := Nat.pow 2 64 * nanosecondsInSecond

/-- The number of seconds: the whole seconds and the rest are rounded, then their sum. -/
def toSeconds (d : Duration) : Binary64 :=
  .ofNat d.seconds + .ofNat d.subseconds / .ofNat nanosecondsInSecond

end Duration

/-! ## Spans -/

/-- A signed number of seconds. -/
structure Span where
  seconds : Binary64
deriving DecidableEq

namespace Span

def zero : Span := ⟨.zero⟩

instance : Inhabited Span := ⟨zero⟩
instance : Neg Span := ⟨fun x => ⟨-x.seconds⟩⟩
instance : Add Span := ⟨fun x y => ⟨x.seconds + y.seconds⟩⟩
instance : Sub Span := ⟨fun x y => ⟨x.seconds - y.seconds⟩⟩

def isNegative (x : Span) : Bool := x.seconds.lt .zero

def isPositive (x : Span) : Bool := Binary64.zero.lt x.seconds

/-- The second span if it is longer, else the first. -/
def max (x y : Span) : Span := if x.seconds.lt y.seconds then y else x

def half (x : Span) : Span := ⟨x.seconds.half⟩

def ofDuration (d : Duration) : Span := ⟨d.toSeconds⟩

/-- The nearest duration, a tie going to the even nanosecond. What is not a
positive number of seconds is no time at all, and 2 ^ 64 seconds are too long. -/
def duration? (x : Span) : Option Duration :=
  if x.seconds.isPositive then
    let nanoseconds :=
      roundHalfEven (Binary64.weight x.seconds.magnitude * Duration.nanosecondsInSecond) Binary64.unitsInOne
    if nanoseconds < Duration.limit then some ⟨nanoseconds⟩ else none
  else some ⟨0⟩

def text (x : Span) : String := x.seconds.fixed 3 ++ "s"

end Span

/-! ## Instants -/

/-- A point in time, in seconds since 2020-01-01T00:00:00Z. -/
structure Instant where
  seconds : Binary64
deriving DecidableEq

namespace Instant

instance : HAdd Instant Span Instant := ⟨fun t x => ⟨t.seconds + x.seconds⟩⟩
instance : HSub Instant Span Instant := ⟨fun t x => ⟨t.seconds - x.seconds⟩⟩
instance : HSub Instant Instant Span := ⟨fun t u => ⟨t.seconds - u.seconds⟩⟩

/-- The seconds from 1970-01-01T00:00:00Z to the instant counted as zero. -/
def epochSeconds : Nat := 1577836800

/-- The instant a duration before or after 1970-01-01T00:00:00Z. -/
def ofUnix (before : Bool) (d : Duration) : Instant :=
  let epoch := epochSeconds * Duration.nanosecondsInSecond
  if before then ⟨-Duration.toSeconds ⟨epoch + d.nanoseconds⟩⟩
  else if epoch ≤ d.nanoseconds then ⟨Duration.toSeconds ⟨d.nanoseconds - epoch⟩⟩
  else ⟨-Duration.toSeconds ⟨epoch - d.nanoseconds⟩⟩

def totalOrder (t u : Instant) : Ordering := t.seconds.totalOrder u.seconds

/-- Seconds with three decimals, and where they are counted from. -/
def text (t : Instant) : String := t.seconds.fixed 3 ++ "s since 2020"

end Instant

end ScoreSequencer
