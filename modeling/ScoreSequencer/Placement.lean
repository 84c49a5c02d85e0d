import ScoreSequencer.Arrangement
import ScoreSequencer.Midi.Data
/-!
# Where the notes of an arrangement lie

A walk from left to right gives every note its place in the piece as exact
lengths from the start. The parts of a harmony begin where it begins; a part of a
melody begins where the parts before it end, by their stored lengths. Times in
seconds play no role here, so neither does rounding: two paths to the same
position give the same length.

The walk is refused at the first note without a MIDI key and at the first
position outside 32 bits.
-/

namespace ScoreSequencer

/-- A note of an arrangement with its place in the piece: where it begins and
where it ends, as lengths from the start of the piece. -/
structure PlacedNote where
  key : Key
  onset : NoteLength
  release : NoteLength
deriving DecidableEq

namespace Arrangement

mutual
/-- The notes of an arrangement that begins at `position`, in the order of the
walk, after the length it takes up. -/
def place (position : NoteLength) : Arrangement → Except Fault (NoteLength × List PlacedNote)
  | note pitch length => do
    let key ← pitch.key
    let release ← position.add length
    return (length, [⟨key, position, release⟩])
  | rest length => return (length, [])
  | harmony parts length => return (length, ← placeTogether position parts)
  | melody parts length => return (length, ← placeInTurn position parts)

/-- The notes of parts that all begin at `position`. -/
def placeTogether (position : NoteLength) : List Arrangement → Except Fault (List PlacedNote)
  | [] => return []
  | part :: parts => do
    let (_, notes) ← place position part
    return notes ++ (← placeTogether position parts)

/-- The notes of parts that follow one another from `position`. The position
after a part is computed even if no part follows. -/
def placeInTurn (position : NoteLength) : List Arrangement → Except Fault (List PlacedNote)
  | [] => return []
  | part :: parts => do
    let (length, notes) ← place position part
    let next ← position.add length
    return notes ++ (← placeInTurn next parts)
end

end Arrangement

end ScoreSequencer
