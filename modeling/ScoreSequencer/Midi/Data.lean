import ScoreSequencer.Pitch
/-!
# The data of MIDI channel messages

A channel is a number of four bits; keys and velocities are numbers of seven.
The bound is part of each type, so a value that exists can be sent.
-/

namespace ScoreSequencer

/-- One of the sixteen channels. -/
structure Channel where
  number : Nat
  number_lt : number < 16 := by decide
deriving DecidableEq

/-- One of the 128 keys; C4 is key 60. -/
structure Key where
  number : Nat
  number_lt : number < 128 := by decide
deriving DecidableEq

structure Velocity where
  number : Nat
  number_lt : number < 128 := by decide
deriving DecidableEq

namespace Channel

def ofNat (n : Nat) : Except Fault Channel :=
  if h : n < 16 then .ok ⟨n, h⟩ else .error (.outOfRange .channel (toString n))

instance : Inhabited Channel := ⟨⟨0, by decide⟩⟩

end Channel

namespace Key

def ofNat (n : Nat) : Except Fault Key :=
  if h : n < 128 then .ok ⟨n, h⟩ else .error (.outOfRange .key (toString n))

/-- C4. -/
instance : Inhabited Key := ⟨⟨60, by decide⟩⟩

/-- The pitch that a key sounds. -/
def pitch (k : Key) : Pitch :=
  ⟨k.number, by have := k.number_lt; unfold Width.Holds Width.least Width.greatest; simp [Width.bits]; omega⟩

end Key

namespace Velocity

def ofNat (n : Nat) : Except Fault Velocity :=
  if h : n < 128 then .ok ⟨n, h⟩ else .error (.outOfRange .velocity (toString n))

/-- The middle velocity. -/
instance : Inhabited Velocity := ⟨⟨64, by decide⟩⟩

end Velocity

/-- The key that sounds a pitch. There are keys from C-1 to G9 only. -/
def Pitch.key (p : Pitch) : Except Fault Key :=
  if h : 0 ≤ p.semitones ∧ p.semitones < 128 then .ok ⟨p.semitones.toNat, by omega⟩
  else .error (.outOfRange .sounding p.text)

end ScoreSequencer
