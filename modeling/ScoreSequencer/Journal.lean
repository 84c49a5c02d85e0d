/-!
# Lines for the journal

What happens is reported in lines of five levels. A journal kept at some level
takes the lines of that level and the more severe ones.
-/

namespace ScoreSequencer

/-- How much a line matters. -/
inductive Level where
  | error
  | warn
  | info
  | debug
  | trace
deriving DecidableEq, Repr

namespace Level

/-- The more severe, the lower. -/
def rank : Level → Nat
  | error => 0
  | warn => 1
  | info => 2
  | debug => 3
  | trace => 4

def name : Level → String
  | error => "ERROR"
  | warn => "WARN"
  | info => "INFO"
  | debug => "DEBUG"
  | trace => "TRACE"

/-- A journal kept at the level `kept` takes lines of this level. -/
def shownAt (level kept : Level) : Bool := level.rank ≤ kept.rank

def ofName? (name : String) : Option Level :=
  [error, warn, info, debug, trace].find? fun level => level.name.toLower = name.toLower

/-- The level that the settings of a journal give under `level` in the block `root`.
Spaces do not matter. -/
def ofRootBlock? (text : String) : Option Level :=
  let lines := (text.splitOn "\n").map fun line => String.ofList (line.toList.filter (!·.isWhitespace))
  (lines.dropWhile (· ≠ "root:")).findSome? fun line =>
    match line.splitOn ":" with
    | ["level", name] => ofName? name
    | _ => none

end Level

structure JournalLine where
  level : Level
  text : String
deriving DecidableEq, Repr

/-- The text of a line with its level in front, if a journal kept at some level takes it. -/
def JournalLine.shown? (kept : Level) (line : JournalLine) : Option String :=
  if line.level.shownAt kept then some (line.level.name ++ " " ++ line.text) else none

end ScoreSequencer
