import ScoreSequencer.Width
/-!
# Pitches

A `PitchClass` is one of the twelve semitones of an octave, an `Interval` a
signed number of semitones, and a `Pitch` an absolute number of semitones,
counted like MIDI keys: C-1 is 0 and C4 is 60. Pitches and intervals are numbers
of 32 bits; moving a pitch out of that range is an overflow. A pitch is the same
as its class and octave: `Pitch.compose` undoes `Pitch.pitchClass` and `Pitch.octave`.
-/

namespace ScoreSequencer

/-! ## Intervals -/

/-- A signed distance in semitones. -/
structure Interval where
  semitones : Int
  holds : Width.w32.Holds semitones := by decide
deriving DecidableEq

namespace Interval

def minorThird : Interval := ⟨3, by decide⟩
def majorThird : Interval := ⟨4, by decide⟩
def perfectFifth : Interval := ⟨7, by decide⟩

def ofSemitones? (n : Int) : Option Interval :=
  if h : Width.w32.Holds n then some ⟨n, h⟩ else none

def add (i j : Interval) : Except Fault Interval :=
  match ofSemitones? (i.semitones + j.semitones) with
  | some k => .ok k
  | none => .error (.overflow .intervalAddition)

def sub (i j : Interval) : Except Fault Interval :=
  match ofSemitones? (i.semitones - j.semitones) with
  | some k => .ok k
  | none => .error (.overflow .intervalSubtraction)

/-- The number of semitones, with its sign unless it is zero. -/
def text (i : Interval) : String :=
  if 0 < i.semitones then "+" ++ toString i.semitones else toString i.semitones

end Interval

/-! ## Pitch classes -/

/-- One of the twelve semitones above C. -/
structure PitchClass where
  offset : Fin 12
deriving DecidableEq, Repr

namespace PitchClass

/-- The class of any number of semitones above C. -/
def ofOffset (n : Int) : PitchClass := ⟨⟨(n % 12).toNat, by omega⟩⟩

def c : PitchClass := ⟨0⟩
def e : PitchClass := ⟨4⟩
def g : PitchClass := ⟨7⟩

def up (x : PitchClass) (i : Interval) : PitchClass := ofOffset (x.offset + i.semitones % 12)

def down (x : PitchClass) (i : Interval) : PitchClass := ofOffset (x.offset - i.semitones % 12)

/-- The letters and sharps of the twelve classes, from C up. -/
def names : List String := ["C", "C#", "D", "D#", "E", "F", "F#", "G", "G#", "A", "A#", "B"]

theorem length_names : names.length = 12 := rfl

def text (x : PitchClass) : String := names[x.offset]

end PitchClass

/-! ## Pitches -/

/-- An absolute pitch, in semitones above C-1. -/
structure Pitch where
  semitones : Int
  holds : Width.w32.Holds semitones := by decide
deriving DecidableEq

namespace Pitch

def ofSemitones? (n : Int) : Option Pitch :=
  if h : Width.w32.Holds n then some ⟨n, h⟩ else none

def pitchClass (p : Pitch) : PitchClass := .ofOffset p.semitones

/-- The number of the octave; C-1 begins octave -1. -/
def octave (p : Pitch) : Int := p.semitones / 12 - 1

/-- The pitch of a class in an octave. The octave is counted from C-1 and brought
to semitones before the class is added, each step within 32 bits. -/
def compose (x : PitchClass) (octave : Int) : Except Fault Pitch := do
  let octaves ← Width.w32.narrow .pitchConstruction (octave + 1)
  let semitones ← Width.w32.narrow .pitchConstruction (octaves * 12)
  match ofSemitones? (semitones + x.offset) with
  | some p => return p
  | none => throw (.overflow .pitchConstruction)

def up (p : Pitch) (i : Interval) : Except Fault Pitch :=
  match ofSemitones? (p.semitones + i.semitones) with
  | some q => .ok q
  | none => .error (.overflow .pitchTransposition)

def down (p : Pitch) (i : Interval) : Except Fault Pitch :=
  match ofSemitones? (p.semitones - i.semitones) with
  | some q => .ok q
  | none => .error (.overflow .pitchTransposition)

/-- The interval that leads from `q` up to `p`. -/
def distance (p q : Pitch) : Except Fault Interval :=
  match Interval.ofSemitones? (p.semitones - q.semitones) with
  | some i => .ok i
  | none => .error (.overflow .pitchDistance)

def text (p : Pitch) : String := p.pitchClass.text ++ toString p.octave

end Pitch

end ScoreSequencer
