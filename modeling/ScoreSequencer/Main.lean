import ScoreSequencer.Performance
import Std.Time.DateTime.Timestamp
/-!
# The command

Performs the sample song on the system: the journal goes to the standard output
and every message to the journal. Two environment variables tell where the
settings of the performance and those of the journal are.
-/

namespace ScoreSequencer.Command

/-- A clock that runs evenly from the wall time at its start. -/
structure SystemClock where
  /-- The nanoseconds on the system's counter at the start. -/
  origin : Nat
  start : Instant

def SystemClock.create : IO SystemClock := do
  let wall ← Std.Time.Timestamp.now
  return ⟨← IO.monoNanosNow, .ofUnix false ⟨wall.toNanosecondsSinceUnixEpoch.val.toNat⟩⟩

def SystemClock.now (c : SystemClock) : BaseIO Instant := do
  return c.start + Span.ofDuration ⟨(← IO.monoNanosNow) - c.origin⟩

/-- Sleeps for what remains until nothing does, a minute at most at a time. -/
partial def SystemClock.sleepUntil (c : SystemClock) (target : Instant) : OptionT IO Unit := do
  let remaining := target - (← c.now)
  if remaining.isPositive then
    let some d := remaining.duration? | failure
    IO.sleep (min (d.nanoseconds / Nat.pow 10 6) 60000).toUInt32
    c.sleepUntil target

/-- Waits for an instant and answers how late it already was. -/
def SystemClock.waitUntil (c : SystemClock) (target : Instant) : OptionT IO Span := do
  let remaining := target - (← c.now)
  if remaining.seconds.le .zero then return -remaining
  c.sleepUntil target
  return .zero

def printLine (kept : Level) (line : JournalLine) : IO Unit := do
  if let some text := line.shown? kept then IO.println text

def host (clock : SystemClock) (kept : Level) : Host IO where
  now := clock.now
  waitUntil := clock.waitUntil
  send message := do
    printLine kept message.line
    return .ok ()
  write := printLine kept

def find (path : String) : IO Settings.Found := do
  let file := System.mkFilePath [path]
  if ← file.isDir then return .directory
  if ← file.pathExists then return .file (← IO.FS.readBinFile file)
  return .nothing

/-- The level of the journal, if there are settings for it. -/
def journalLevel? (path : String) : IO (Option Level) := do
  match ← find path with
  | .file content => return (String.fromUTF8? content).bind Level.ofRootBlock?
  | _ => return none

def run (reader : Toml.Reader) : IO (Except Failure Playback) := do
  let journal := (← IO.getEnv "MIDI_MARKUP_LOG_CONFIG").getD "log4rs.yaml"
  let some kept ← journalLevel? journal | return .error .journal
  let path := (← IO.getEnv "MIDI_MARKUP_CONFIG").getD "midi-markup.toml"
  (host (← SystemClock.create) kept).perform reader path (← find path)

/-- Performs the sample song and shows on the error output why it failed, if it did. -/
def main (reader : Toml.Reader) : IO UInt32 := do
  let outcome ← run reader
  if let .error failure := outcome then IO.eprintln ("Error: " ++ failure.text)
  return (exitCode outcome).toUInt32

end ScoreSequencer.Command
