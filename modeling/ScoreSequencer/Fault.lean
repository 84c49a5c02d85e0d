/-!
# Why an operation is refused

Every checked operation of the library answers with a value or with a `Fault`.
A fault names its cause by a constructor; the wording is written once, in
`Fault.message`.
-/

namespace ScoreSequencer

/-- The checked integer computations whose result may leave its width. -/
inductive Operation where
  | commonDivisor
  | ratioSign
  | ratioNegation
  | ratioAddition
  | ratioSubtraction
  | ratioMultiplication
  | ratioComparison
  | pitchConstruction
  | pitchTransposition
  | pitchDistance
  | intervalAddition
  | intervalSubtraction
deriving DecidableEq, Repr

/-- The words by which a message names the computation. -/
def Operation.label : Operation → String
  | commonDivisor => "gcd"
  | ratioSign => "ratio sign"
  | ratioNegation => "ratio negation"
  | ratioAddition => "ratio addition"
  | ratioSubtraction => "ratio subtraction"
  | ratioMultiplication => "ratio multiplication"
  | ratioComparison => "ratio comparison"
  | pitchConstruction => "pitch construction"
  | pitchTransposition => "pitch transposition"
  | pitchDistance => "pitch distance"
  | intervalAddition => "interval addition"
  | intervalSubtraction => "interval subtraction"

/-- The quantities that are accepted only within a range. `sounding` is a pitch
asked for its MIDI key, `key` a key number given as such. -/
inductive Quantity where
  | noteLength
  | sounding
  | channel
  | key
  | velocity
  | beatsPerMeasure
  | beatsPerNote
  | tempo
  | preDelay
deriving DecidableEq, Repr

def Quantity.label : Quantity → String
  | noteLength => "note length"
  | sounding => "MIDI pitch"
  | channel => "MIDI channel"
  | key => "MIDI pitch"
  | velocity => "MIDI velocity"
  | beatsPerMeasure => "beats per measure"
  | beatsPerNote => "beats per note"
  | tempo => "tempo"
  | preDelay => "pre-delay"

/-- The accepted range, as a message states it. -/
def Quantity.range : Quantity → String
  | noteLength => ">= 0"
  | sounding => "C-1..=G9"
  | channel => "0..16"
  | key => "0..128"
  | velocity => "0..128"
  | beatsPerMeasure => "> 0"
  | beatsPerNote => "> 0"
  | tempo => "a finite number of beats per minute > 0"
  | preDelay => "a finite number of seconds >= 0"

/-- The causes for which an operation is refused. -/
inductive Fault where
  | divisionByZero
  | overflow (operation : Operation)
  /-- The text is the refused value, written as a reader would write it. -/
  | outOfRange (quantity : Quantity) (given : String)
  | transmission (cause : String)
deriving DecidableEq, Repr

def Fault.message : Fault → String
  | divisionByZero => "Division by zero"
  | overflow operation => "Arithmetic overflow in " ++ operation.label
  | outOfRange quantity given =>
    "Invalid " ++ quantity.label ++ ": " ++ given ++ " (expected " ++ quantity.range ++ ")"
  | transmission cause => "Failed to send a MIDI message: " ++ cause

/-- A text in quotes. -/
def quoted (text : String) : String := "\"" ++ text ++ "\""

/-- A name with named texts in braces. -/
def recordText (name : String) (fields : List (String × String)) : String :=
  name ++ " \x7b " ++ ", ".intercalate (fields.map fun f => f.1 ++ ": " ++ f.2) ++ " \x7d"

/-- The parts of a fault, for those who look for its cause. -/
def Fault.detail : Fault → String
  | divisionByZero => "DivideByZero"
  | overflow operation => recordText "Overflow" [("operation", quoted operation.label)]
  | outOfRange quantity given =>
    recordText "InvalidRange"
      [("what", quoted quantity.label), ("value", quoted given), ("expected", quoted quantity.range)]
  | transmission cause => recordText "Output" [("cause", quoted cause)]

end ScoreSequencer
