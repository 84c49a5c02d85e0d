import ScoreSequencer.NoteLength
import ScoreSequencer.Time
/-!
# Timing

A `TimeSignature` says how many beats a measure and a whole note have, a `Tempo`
how many beats a minute has. A `Timing` is both, with the seconds that a whole
note takes; it turns note lengths into spans of time.
-/

namespace ScoreSequencer

/-! ## Time signatures -/

/-- The beats of a measure and of a whole note. -/
structure TimeSignature where
  beatsPerMeasure : Nat
  beatsPerNote : Nat
deriving DecidableEq, Repr

namespace TimeSignature

def common : TimeSignature := ⟨4, 4⟩

def triple : TimeSignature := ⟨3, 4⟩

/-- Neither number may be zero. -/
def make (beatsPerMeasure beatsPerNote : Nat) : Except Fault TimeSignature :=
  if beatsPerMeasure = 0 then .error (.outOfRange .beatsPerMeasure (toString beatsPerMeasure))
  else if beatsPerNote = 0 then .error (.outOfRange .beatsPerNote (toString beatsPerNote))
  else .ok ⟨beatsPerMeasure, beatsPerNote⟩

def measureLength (s : TimeSignature) : Except Fault NoteLength :=
  NoteLength.make s.beatsPerMeasure s.beatsPerNote

end TimeSignature

/-! ## Tempos -/

structure Tempo where
  beatsPerMinute : Binary64
deriving DecidableEq

namespace Tempo

/-- The number must be finite and above zero. -/
def make (beatsPerMinute : Binary64) : Except Fault Tempo :=
  if beatsPerMinute.isPositive then .ok ⟨beatsPerMinute⟩
  else .error (.outOfRange .tempo beatsPerMinute.plain)

def beatsPerSecond (t : Tempo) : Binary64 := t.beatsPerMinute / .ofNat 60

end Tempo

/-! ## Timings -/

structure Timing where
  signature : TimeSignature
  tempo : Tempo
  secondsPerNote : Binary64
deriving DecidableEq

namespace Timing

/-- The seconds of a whole note must come out finite and above zero. -/
def make (signature : TimeSignature) (tempo : Tempo) : Except Fault Timing :=
  let secondsPerNote := .ofNat signature.beatsPerNote / tempo.beatsPerSecond
  if secondsPerNote.isPositive then .ok ⟨signature, tempo, secondsPerNote⟩
  else .error .divisionByZero

/-- A timing from its three numbers, the first one refused giving the fault. -/
def ofBeats (beatsPerMeasure beatsPerNote : Nat) (beatsPerMinute : Binary64) : Except Fault Timing := do
  let signature ← TimeSignature.make beatsPerMeasure beatsPerNote
  let tempo ← Tempo.make beatsPerMinute
  make signature tempo

/-- The time a note length takes. Here alone a length leaves exact arithmetic. -/
def span (t : Timing) (x : NoteLength) : Span := ⟨x.ratio.toBinary64 * t.secondsPerNote⟩

end Timing

end ScoreSequencer
