import ScoreSequencer.Ratio
/-!
# Note lengths

A note length is a ratio to a whole note, in 32 bits: a quarter is `1/4`. Only
the two ways of making one check that it is not negative; sums, maxima and dotted
lengths of such lengths are not negative either.
-/

namespace ScoreSequencer

/-- A musical duration as a multiple of a whole note. -/
structure NoteLength where
  ratio : Ratio .w32
deriving DecidableEq, Repr

namespace NoteLength

/-- In lowest terms and not negative. -/
structure Valid (x : NoteLength) : Prop where
  canonical : x.ratio.Canonical
  nonneg : 0 ≤ x.ratio.numer

def zero : NoteLength := ⟨⟨0, 1⟩⟩
def whole : NoteLength := ⟨⟨1, 1⟩⟩
def half : NoteLength := ⟨⟨1, 2⟩⟩
def quarter : NoteLength := ⟨⟨1, 4⟩⟩
def eighth : NoteLength := ⟨⟨1, 8⟩⟩
def sixteenth : NoteLength := ⟨⟨1, 16⟩⟩

instance : Inhabited NoteLength := ⟨zero⟩

def ofRatio (r : Ratio .w32) : Except Fault NoteLength :=
  if r.isNegative then .error (.outOfRange .noteLength r.text) else .ok ⟨r⟩

def make (n d : Int) : Except Fault NoteLength := do ofRatio (← Ratio.make n d)

def isZero (x : NoteLength) : Bool := x.ratio.isZero

def text (x : NoteLength) : String := x.ratio.text

/-- The length of one note after the other. -/
def add (x y : NoteLength) : Except Fault NoteLength := return ⟨← x.ratio.add y.ratio⟩

/-- The length of two notes at the same time. -/
def max (x y : NoteLength) : Except Fault NoteLength := return ⟨← x.ratio.max y.ratio⟩

/-- One and a half times the length. -/
def dotted (x : NoteLength) : Except Fault NoteLength := return ⟨← x.ratio.mul ⟨3, 2⟩⟩

def cmp (x y : NoteLength) : Except Fault Ordering := x.ratio.cmp y.ratio

end NoteLength

end ScoreSequencer
