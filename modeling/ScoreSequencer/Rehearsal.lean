import ScoreSequencer.Performance
import ScoreSequencer.VirtualClock
/-!
# Rehearsals

A rehearsal plays without an instrument on a virtual clock. Its instrument is
either a recorder, whose attempts to send may take time and fail by number, or
the journal itself. Everything that happens is kept in a `Rehearsal`. A whole
performance can be rehearsed too, from its settings to its last line.
-/

namespace ScoreSequencer

/-- What stands in for an instrument. -/
inductive Instrument where
  /-- Attempt `n` takes the time `cost n`, if any, and fails with the fault `failure n`, if any. -/
  | recorder (cost : Nat → Option Span) (failure : Nat → Option Fault)
  | journal

/-- What has happened so far. -/
structure Rehearsal where
  clock : VirtualClock
  attempts : Nat := 0
  /-- The messages taken by the instrument and when they were. -/
  sent : Array (Instant × Message) := #[]
  lines : Array JournalLine := #[]

namespace Rehearsal

def write (r : Rehearsal) (line : JournalLine) : Rehearsal := { r with lines := r.lines.push line }

def waitUntil (r : Rehearsal) (target : Instant) : Span × Rehearsal :=
  let (lateness, clock) := r.clock.waitUntil target
  (lateness, { r with clock })

/-- The instrument takes a message or refuses it. -/
def send (instrument : Instrument) (message : Message) (r : Rehearsal) : Except Fault Unit × Rehearsal :=
  let attempt := r.attempts
  let r := { r with attempts := attempt + 1 }
  match instrument with
  | .journal =>
    (.ok (), { r with sent := r.sent.push (r.clock.now, message) }.write message.line)
  | .recorder cost failure =>
    let r := match cost attempt with
      | some d => { r with clock := r.clock.advance d }
      | none => r
    match failure attempt with
    | some fault => (.error fault, r)
    | none => (.ok (), { r with sent := r.sent.push (r.clock.now, message) })

def stage (instrument : Instrument) : Stage (StateM Rehearsal) where
  waitUntil target r := r.waitUntil target
  send message r := r.send instrument message
  write line r := ((), r.write line)

/-- Plays a sequence and answers its outcome and what has happened by then. -/
def play (instrument : Instrument) (s : Sequence) (r : Rehearsal) : Except Fault Playback × Rehearsal :=
  ((stage instrument).play s).run r

/-- A host whose player plays into the journal and gives up a wait that is too long
for any `Duration`. -/
def host : Host (StateM Rehearsal) where
  now r := (r.clock.now, r)
  waitUntil target r :=
    match (r.clock.remaining target).duration? with
    | none => (none, r)
    | some _ => (r.waitUntil target).map some id
  send message r := r.send .journal message
  write line r := ((), r.write line)

/-- A whole performance with the settings found at a path, and the journal kept of
it. Without a level the journal cannot be kept, and nothing happens. -/
def perform (reader : Toml.Reader) (kept : Option Level) (path : String) (found : Settings.Found) (r : Rehearsal) :
    Except Failure Playback × List String :=
  match kept with
  | none => (.error .journal, [])
  | some level =>
    let (outcome, r) := (host.perform reader path found).run.run r
    (outcome, r.lines.toList.filterMap (·.shown? level))

end Rehearsal

end ScoreSequencer
