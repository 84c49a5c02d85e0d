import ScoreSequencer.Event
import ScoreSequencer.Journal
import ScoreSequencer.Placement
import ScoreSequencer.Timing
/-!
# Sequences

A sequence is an arrangement made ready to be played: the two events of every
note, in the order of dispatch. An instant is the start plus the span of an exact
position and never a running sum of spans, so the same position always gives the
same instant. Events that may go in either order keep the order of the walk.
-/

namespace ScoreSequencer

/-- The channel and velocity with which all notes of a sequence are played. -/
structure Voice where
  channel : Channel
  velocity : Velocity
deriving DecidableEq, Inhabited

def Timing.instant (timing : Timing) (start : Instant) (position : NoteLength) : Instant :=
  start + timing.span position

/-- The events of a note, its trigger before its release. -/
def PlacedNote.events (timing : Timing) (start : Instant) (voice : Voice) (note : PlacedNote) : List Event :=
  [⟨.on, voice.channel, note.key, voice.velocity, timing.instant start note.onset⟩,
   ⟨.off, voice.channel, note.key, voice.velocity, timing.instant start note.release⟩]

/-- Events in the order of dispatch, with the length of the piece. -/
structure Sequence where
  events : List Event
  start : Instant
  length : NoteLength
  duration : Span
deriving DecidableEq

namespace Sequence

def compile (root : Arrangement) (start : Instant) (timing : Timing) (voice : Voice) :
    Except Fault Sequence := do
  let (length, notes) ← root.place .zero
  let events := notes.flatMap (·.events timing start voice)
  return ⟨events.mergeSort Event.notAfter, start, length, timing.span length⟩

def endTime (s : Sequence) : Instant := s.start + s.duration

def report (s : Sequence) : JournalLine :=
  ⟨.debug, "Sequenced " ++ toString s.events.length ++ " events lasting " ++ s.duration.text ++ " (" ++
    s.length.text ++ " of a whole note)"⟩

end Sequence

end ScoreSequencer
