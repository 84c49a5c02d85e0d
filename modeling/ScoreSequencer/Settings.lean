import ScoreSequencer.Sequence
import ScoreSequencer.Toml
/-!
# Settings

The settings of a performance come from a TOML document with the sections
`timing`, `output` and `player`. Each of the six fields has a name, a default and a
kind of value that it takes (`Field`), and is read by itself: what else the document
holds does not matter to it. The document and its values are read by a library, which
is a parameter here (`Toml.Reader`).

A field need not be sensible to be read. `Settings.timing`, `Settings.voice` and
`Settings.delay` check the fields when they are needed.
-/

namespace ScoreSequencer

/-- The six fields. The counts are bytes. -/
structure Settings where
  beatsPerMeasure : Nat := 4
  beatsPerNote : Nat := 4
  beatsPerMinute : Binary64 := .ofNat 120
  channel : Nat := 0
  velocity : Nat := 64
  /-- The seconds between compiling the song and its first event. -/
  preDelay : Binary64 := (Binary64.ofNat 1).half
deriving DecidableEq

namespace Settings

/-- The settings of a document that gives none. -/
def standard : Settings := {}

instance : Inhabited Settings := ⟨standard⟩

/-! ## Fields -/

/-- A field of a section. -/
structure Field (α : Type) where
  name : String
  fallback : α
  read? : Toml.Reader → Toml.Value → Option α

namespace Field

def beatsPerMeasure : Field Nat := ⟨"beats_per_measure", standard.beatsPerMeasure, Toml.Reader.byte?⟩

def beatsPerNote : Field Nat := ⟨"beats_per_note", standard.beatsPerNote, Toml.Reader.byte?⟩

def beatsPerMinute : Field Binary64 := ⟨"beats_per_minute", standard.beatsPerMinute, Toml.Reader.number?⟩

def channel : Field Nat := ⟨"channel", standard.channel, Toml.Reader.byte?⟩

def velocity : Field Nat := ⟨"velocity", standard.velocity, Toml.Reader.byte?⟩

def preDelay : Field Binary64 := ⟨"pre_delay", standard.preDelay, Toml.Reader.number?⟩

end Field

/-- A part of the document that has fields of its own, in the order in which they are declared. -/
structure Section where
  name : String
  fields : List String

namespace Section

def timing : Section :=
  ⟨"timing", [Field.beatsPerMeasure.name, Field.beatsPerNote.name, Field.beatsPerMinute.name]⟩

def output : Section := ⟨"output", [Field.channel.name, Field.velocity.name]⟩

def player : Section := ⟨"player", [Field.preDelay.name]⟩

end Section

/-! ## Reading -/

section Reading

variable (reader : Toml.Reader)

/-- The values for the fields of a section. If the section is missing, then so are they. -/
def Section.read? (s : Section) (sections : String → Option Toml.Value) : Option (String → Option Toml.Value) :=
  match sections s.name with
  | some value => reader.record? s.fields value
  | none => some fun _ => none

/-- The field's value: the one given, if the field takes it, or its default if it is missing. -/
def Field.get? {α : Type} (field : Field α) (given : String → Option Toml.Value) : Option α :=
  match given field.name with
  | some value => field.read? reader value
  | none => some field.fallback

def ofDocument? (document : List (String × Toml.Value)) : Option Settings := do
  let sections ← reader.record? [Section.timing.name, Section.output.name, Section.player.name] (.table document)
  let timing ← Section.timing.read? reader sections
  let output ← Section.output.read? reader sections
  let player ← Section.player.read? reader sections
  return {
    beatsPerMeasure := ← Field.beatsPerMeasure.get? reader timing
    beatsPerNote := ← Field.beatsPerNote.get? reader timing
    beatsPerMinute := ← Field.beatsPerMinute.get? reader timing
    channel := ← Field.channel.get? reader output
    velocity := ← Field.velocity.get? reader output
    preDelay := ← Field.preDelay.get? reader player }

def parse? (text : String) : Option Settings := reader.document? text >>= ofDocument? reader

end Reading

/-! ## Files -/

/-- What a path leads to. -/
inductive Found where
  | nothing
  | directory
  | file (content : ByteArray)

inductive Unreadable where
  | notFound
  | isDirectory
  | notText
  | notSettings
deriving DecidableEq, Repr

def load (reader : Toml.Reader) : Found → Except Unreadable Settings
  | .nothing => .error .notFound
  | .directory => .error .isDirectory
  | .file content =>
    match String.fromUTF8? content with
    | none => .error .notText
    | some text =>
      match parse? reader text with
      | none => .error .notSettings
      | some settings => .ok settings

/-! ## Use -/

def timing (s : Settings) : Except Fault Timing :=
  Timing.ofBeats s.beatsPerMeasure s.beatsPerNote s.beatsPerMinute

def voice (s : Settings) : Except Fault Voice := do
  let channel ← Channel.ofNat s.channel
  return ⟨channel, ← Velocity.ofNat s.velocity⟩

/-- The delay must be finite and not below zero. -/
def delay (s : Settings) : Except Fault Span :=
  if s.preDelay.isFinite && Binary64.zero.le s.preDelay then .ok ⟨s.preDelay⟩
  else .error (.outOfRange .preDelay s.preDelay.plain)

/-- Equal in every field, numbers being compared as numbers. -/
def eqv (s t : Settings) : Bool :=
  s.beatsPerMeasure = t.beatsPerMeasure && s.beatsPerNote = t.beatsPerNote &&
    s.beatsPerMinute.eqv t.beatsPerMinute && s.channel = t.channel && s.velocity = t.velocity &&
    s.preDelay.eqv t.preDelay

/-- A section as the journal shows it: a name and the fields in braces, one a line. -/
def sectionText (name kind : String) (fields : List (String × String)) : List String :=
  ["    " ++ name ++ ": " ++ kind ++ " \x7b"] ++
    fields.map (fun f => "        " ++ f.1 ++ ": " ++ f.2 ++ ",") ++ ["    \x7d,"]

/-- The settings as the journal shows them, on several lines. -/
def text (s : Settings) : String :=
  "\n".intercalate <|
    ["Config \x7b"] ++
    sectionText "timing" "Timing" [
      (Field.beatsPerMeasure.name, toString s.beatsPerMeasure),
      (Field.beatsPerNote.name, toString s.beatsPerNote),
      (Field.beatsPerMinute.name, s.beatsPerMinute.scientific)] ++
    sectionText "output" "Output" [
      (Field.channel.name, toString s.channel),
      (Field.velocity.name, toString s.velocity)] ++
    sectionText "player" "Player" [(Field.preDelay.name, s.preDelay.scientific)] ++
    ["\x7d"]

end Settings

end ScoreSequencer
