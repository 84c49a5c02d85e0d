import ScoreSequencer.Arrangement
/-!
# A sample song

C major, C minor and a broken C major chord, each followed by a whole rest.
-/

namespace ScoreSequencer.Song

def octave : Int := 4

def note (x : PitchClass) (length : NoteLength) : Except Fault Arrangement :=
  return .note (← Pitch.compose x octave) length

/-- A root and the notes two intervals above it, together. -/
def triad (root : PitchClass) (third fifth : Interval) (length : NoteLength) :
    Except Fault Arrangement := do
  Arrangement.together [← note root length, ← note (root.up third) length, ← note (root.up fifth) length]

/-- The notes of the major triad on C in turn, then a rest. -/
def arpeggio : Except Fault Arrangement := do
  Arrangement.inTurn [← note .c .quarter, ← note .e .quarter, ← note .g .quarter, .rest .quarter]

/-- The whole song, six whole notes long. -/
def song : Except Fault Arrangement := do
  Arrangement.inTurn [
    ← triad .c .majorThird .perfectFifth .whole, .rest .whole,
    ← triad .c .minorThird .perfectFifth .whole, .rest .whole,
    ← arpeggio, .rest .whole]

end ScoreSequencer.Song
