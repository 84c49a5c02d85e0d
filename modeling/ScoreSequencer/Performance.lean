import ScoreSequencer.Player
import ScoreSequencer.Settings
import ScoreSequencer.Song
/-!
# Performances

A performance reads the settings, checks all of them, compiles the sample song
and plays it. Whoever hosts it tells the time, keeps the journal and provides the
stage. A wait may be too long to be carried out; then the player stops for good,
which is a failure like the others.
-/

namespace ScoreSequencer

/-- What a performance needs of the world. -/
structure Host (m : Type → Type) where
  now : m Instant
  /-- Waits for an instant as a stage does, or gives up. -/
  waitUntil : Instant → OptionT m Span
  send : Message → m (Except Fault Unit)
  write : JournalLine → m Unit

def Host.stage {m : Type → Type} [Monad m] (host : Host m) : Stage (OptionT m) where
  waitUntil := host.waitUntil
  send message := liftM (host.send message)
  write line := liftM (host.write line)

/-- Why a performance fails. -/
inductive Failure where
  | journal
  | unreadable (cause : Settings.Unreadable)
  | settings (fault : Fault)
  | song (fault : Fault)
  | playback (fault : Fault)
  /-- The player gave up waiting. -/
  | stopped
deriving DecidableEq, Repr

def Failure.text : Failure → String
  | journal => "LoggingInit"
  | unreadable .notFound => "NotFound"
  | unreadable .isDirectory => "IsADirectory"
  | unreadable .notText => "InvalidData"
  | unreadable .notSettings => "Toml"
  | settings fault => recordText "Config" [("cause", fault.detail)]
  | song fault => recordText "Arrange" [("cause", fault.detail)]
  | playback fault => recordText "Playback" [("cause", fault.detail)]
  | stopped => "PlayerJoin"

def exitCode (outcome : Except Failure Playback) : Nat :=
  match outcome with
  | .ok _ => 0
  | .error _ => 1

/-- The value of a checked operation, or the failure that its refusal is. -/
def require {m : Type → Type} [Monad m] {ε α : Type} (failure : ε → Failure) (x : Except ε α) :
    ExceptT Failure m α :=
  .mk (pure (x.mapError failure))

namespace Host

variable {m : Type → Type} [Monad m] (host : Host m)

/-- The settings in what was found at a path, or the default ones if nothing was. -/
def readSettings (reader : Toml.Reader) (path : String) (found : Settings.Found) : ExceptT Failure m Settings := do
  let settings ← match found with
    | .nothing => do
      host.write ⟨.warn, path ++ " not found, using the default configuration"⟩
      pure default
    | found => do
      host.write ⟨.info, "Loading configuration from " ++ path ++ " ..."⟩
      require .unreadable (Settings.load reader found)
  host.write ⟨.debug, settings.text⟩
  return settings

/-- The sample song as a sequence that begins after the delay of the settings.
Every setting is checked before the song is compiled. -/
def compileSong (settings : Settings) : ExceptT Failure m Sequence := do
  let song ← require .song Song.song
  let timing ← require .settings settings.timing
  let voice ← require .settings settings.voice
  let delay ← require .settings settings.delay
  host.write ⟨.info, "Arranging " ++ song.length.text ++ " of music ..."⟩
  let start := (← host.now) + delay
  let sequence ← require .song (Sequence.compile song start timing voice)
  host.write sequence.report
  return sequence

/-- The figures of a playback, or why there are none. -/
def playSequence (sequence : Sequence) : ExceptT Failure m Playback := do
  host.write ⟨.info, "Spawning the player thread ..."⟩
  match ← (host.stage.play sequence).run with
  | none => throw .stopped
  | some outcome => require .playback outcome

def perform (reader : Toml.Reader) (path : String) (found : Settings.Found) : ExceptT Failure m Playback := do
  let settings ← host.readSettings reader path found
  let sequence ← host.compileSong settings
  let figures ← host.playSequence sequence
  host.write ⟨.info, "Done: " ++ toString figures.dispatched ++ " events dispatched, " ++
    toString figures.late ++ " late (worst " ++ figures.maxLateness.text ++ ")"⟩
  return figures

end Host

end ScoreSequencer
