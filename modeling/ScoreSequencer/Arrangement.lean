import ScoreSequencer.Pitch
import ScoreSequencer.NoteLength
/-!
# Arrangements

An arrangement is a tree: notes and rests at the leaves, harmonies whose parts
sound at the same time, and melodies whose parts follow one another. Every node
carries its length. `Arrangement.together` and `Arrangement.inTurn` compute the
length of a composite from its parts; what is built with them is `Built`.
-/

namespace ScoreSequencer

/-- A score. The length of a composite is stored with it. -/
inductive Arrangement where
  | note (pitch : Pitch) (length : NoteLength)
  | rest (length : NoteLength)
  | harmony (parts : List Arrangement) (length : NoteLength)
  | melody (parts : List Arrangement) (length : NoteLength)

namespace Arrangement

instance : Inhabited Arrangement := ⟨rest .zero⟩

def length : Arrangement → NoteLength
  | note _ l => l
  | rest l => l
  | harmony _ l => l
  | melody _ l => l

/-! ## Building -/

/-- The length of the longest part, zero if there is none. -/
def longest (parts : List Arrangement) : Except Fault NoteLength :=
  parts.foldlM (fun l part => l.max part.length) .zero

def total (parts : List Arrangement) : Except Fault NoteLength :=
  parts.foldlM (fun l part => l.add part.length) .zero

/-- The harmony of some parts. It is refused only if comparing their lengths overflows. -/
def together (parts : List Arrangement) : Except Fault Arrangement :=
  return harmony parts (← longest parts)

/-- The melody of some parts. It is refused only if adding their lengths overflows. -/
def inTurn (parts : List Arrangement) : Except Fault Arrangement :=
  return melody parts (← total parts)

/-- The arrangements that can be built from leaves of valid lengths by `together`
and `inTurn`. -/
inductive Built : Arrangement → Prop
  | note (pitch : Pitch) {length : NoteLength} : length.Valid → Built (note pitch length)
  | rest {length : NoteLength} : length.Valid → Built (rest length)
  | together {parts : List Arrangement} {node : Arrangement} :
      (∀ part ∈ parts, Built part) → Arrangement.together parts = .ok node → Built node
  | inTurn {parts : List Arrangement} {node : Arrangement} :
      (∀ part ∈ parts, Built part) → Arrangement.inTurn parts = .ok node → Built node

/-! ## Counting and comparing -/

mutual
def noteCount : Arrangement → Nat
  | note _ _ => 1
  | rest _ => 0
  | harmony parts _ => noteCountAll parts
  | melody parts _ => noteCountAll parts

def noteCountAll : List Arrangement → Nat
  | [] => 0
  | part :: parts => noteCount part + noteCountAll parts
end

mutual
/-- Equality of trees, the stored lengths included. -/
def same : Arrangement → Arrangement → Bool
  | note p l, note q m => p = q ∧ l = m
  | rest l, rest m => l = m
  | harmony ps l, harmony qs m => l = m && sameAll ps qs
  | melody ps l, melody qs m => l = m && sameAll ps qs
  | _, _ => false

def sameAll : List Arrangement → List Arrangement → Bool
  | [], [] => true
  | p :: ps, q :: qs => same p q && sameAll ps qs
  | _, _ => false
end

end Arrangement

end ScoreSequencer
