import ScoreSequencer.Sequence
/-!
# Playing a sequence

The player dispatches every event of a sequence at its instant, or at once if
that is past, and then holds until the end of the piece. If the instrument
refuses a message, the player releases every note of its channel and stops.

What the player needs of its surroundings is a `Stage`: a way to wait, an
instrument and a journal. The stage acts in a monad of its own, so the same
player runs on a virtual clock and on a real one.
-/

namespace ScoreSequencer

/-- The surroundings of a player. -/
structure Stage (m : Type → Type) where
  /-- Waits for an instant and answers how late it already was, zero if it was to come. -/
  waitUntil : Instant → m Span
  send : Message → m (Except Fault Unit)
  write : JournalLine → m Unit

/-- The line for a message where the journal stands in for an instrument. -/
def Message.line (message : Message) : JournalLine :=
  ⟨.info, "MIDI out " ++ message.hexText ++ " " ++ message.text⟩

/-- The line that reports a late event. -/
def Event.lateLine (event : Event) (lateness : Span) : JournalLine :=
  ⟨.debug, "Event " ++ event.text ++ " is late by " ++ lateness.text⟩

/-- The line before the first event. -/
def Sequence.openingLine (s : Sequence) : JournalLine :=
  ⟨.info, "Playing " ++ toString s.events.length ++ " events over " ++ s.duration.text ++ " ..."⟩

/-- The line before a channel is released. -/
def Channel.abortLine (channel : Channel) : JournalLine :=
  ⟨.warn, "Playback aborted, releasing every note on channel " ++ toString channel.number⟩

/-- The figures of a playback. -/
structure Playback where
  dispatched : Nat := 0
  /-- The events that were past due when their turn came. -/
  late : Nat := 0
  /-- The greatest lateness among them. -/
  maxLateness : Span := .zero
deriving DecidableEq

namespace Playback

def turn (p : Playback) (lateness : Span) : Playback :=
  if lateness.isPositive then { p with late := p.late + 1, maxLateness := p.maxLateness.max lateness }
  else p

def sent (p : Playback) : Playback := { p with dispatched := p.dispatched + 1 }

/-- The line at the end of the piece. -/
def closingLine (p : Playback) : JournalLine :=
  ⟨.info, "Playback finished: " ++ toString p.dispatched ++ " events, " ++ toString p.late ++ " late"⟩

end Playback

namespace Stage

variable {m : Type → Type} [Monad m] (stage : Stage m)

/-- Releases every note of a channel; the playback has failed already, so another
failure is only reported. -/
def silence (channel : Channel) : m Unit := do
  stage.write channel.abortLine
  match ← stage.send (.allNotesOff channel) with
  | .ok _ => return ()
  | .error fault => stage.write ⟨.warn, "Failed to release the notes: " ++ fault.message⟩

/-- Waits until an event is due, and reports how late it was if it was. -/
def await (event : Event) : m Span := do
  let lateness ← stage.waitUntil event.time
  if lateness.isPositive then stage.write (event.lateLine lateness)
  stage.write ⟨.trace, "Dispatching " ++ event.text⟩
  return lateness

/-- Dispatches events one after another, until the instrument refuses one. -/
def dispatch (figures : Playback) : List Event → m (Except Fault Playback)
  | [] => return .ok figures
  | event :: events => do
    let lateness ← stage.await event
    match ← stage.send event.message with
    | .ok _ => dispatch (figures.turn lateness).sent events
    | .error fault => do
      stage.silence event.channel
      return .error fault

def play (s : Sequence) : m (Except Fault Playback) := do
  stage.write s.openingLine
  match ← stage.dispatch {} s.events with
  | .error fault => return .error fault
  | .ok figures => do
    let _ ← stage.waitUntil s.endTime
    stage.write figures.closingLine
    return .ok figures

end Stage

end ScoreSequencer
