import Mathlib
import ScoreSequencer.Proofs.Ratio.Refusal
import ScoreSequencer.Proofs.Score.Slot
/-!
# What the walk checks

The walk is refused for two causes only: a note has no key, or a position has no
room for a length in 32 bits. `Arrangement.checks` lists all checks of an arrangement
in the order of the walk, with positions as exact numbers; the list goes on after a
check that fails. `Built.place_fault` says that the walk is refused with the fault of
the first one that does, if any.
-/

namespace ScoreSequencer

/-- A check of the walk, with the exact numbers it is about. -/
inductive Check where
  /-- There is a key for a pitch. -/
  | key (pitch : Pitch)
  /-- A length can be added to a position. -/
  | addition (position length : ℚ)
deriving DecidableEq

namespace Check

/-- The fault of a check that fails. -/
def fault? : Check → Option Fault
  | key pitch =>
    if 0 ≤ pitch.semitones ∧ pitch.semitones ≤ 127 then none else some (.outOfRange .sounding pitch.text)
  | addition position length =>
    if Width.w32.Combines (· + ·) position length then none else some (.overflow .ratioAddition)

/-- The fault of the first check that fails. -/
def firstFault (checks : List Check) : Option Fault := checks.findSome? fault?

theorem firstFault_cons (check : Check) (checks : List Check) :
    firstFault (check :: checks) = check.fault?.or (firstFault checks) := by
  rw [firstFault, List.findSome?_cons]
  cases check.fault? <;> rfl

theorem firstFault_append (checks more : List Check) :
    firstFault (checks ++ more) = (firstFault checks).or (firstFault more) :=
  List.findSome?_append

end Check

open Check (firstFault firstFault_cons firstFault_append)

namespace Arrangement

mutual
/-- The checks of an arrangement that begins at `position`, in the order of the walk.
Rests and harmonies add none of their own. -/
def checks (position : ℚ) : Arrangement → List Check
  | note pitch length => [.key pitch, .addition position length.value]
  | rest _ => []
  | harmony parts _ => checksTogether position parts
  | melody parts _ => checksInTurn position parts

def checksTogether (position : ℚ) : List Arrangement → List Check
  | [] => []
  | part :: parts => checks position part ++ checksTogether position parts

/-- After each part, the last one too, its length is added to the position. -/
def checksInTurn (position : ℚ) : List Arrangement → List Check
  | [] => []
  | part :: parts =>
    checks position part ++ .addition position part.extent :: checksInTurn (position + part.extent) parts
end

end Arrangement

/-! ## Faults of refused computations -/

def faultOf? {α : Type} : Except Fault α → Option Fault
  | .ok _ => none
  | .error fault => some fault

theorem faultOf?_eq_some {α : Type} {r : Except Fault α} {fault : Fault} :
    faultOf? r = some fault ↔ r = .error fault := by
  cases r <;> simp [faultOf?]

theorem faultOf?_eq_none {α : Type} {r : Except Fault α} : faultOf? r = none ↔ ∃ a, r = .ok a := by
  cases r <;> simp [faultOf?]

/-- The fault of two steps is that of the first one, or else that of the second. -/
theorem faultOf?_bind {α β : Type} {first : Except Fault α} {next : α → Except Fault β} {o o' : Option Fault}
    (hfirst : faultOf? first = o) (hnext : ∀ a, first = .ok a → faultOf? (next a) = o') :
    faultOf? (first >>= next) = o.or o' := by
  subst hfirst
  cases first with
  | ok a => exact hnext a rfl
  | error fault => rfl

theorem faultOf?_bind_return {α β : Type} {first : Except Fault α} (f : α → β) :
    faultOf? (first >>= fun a => return f a) = faultOf? first := by
  cases first <;> rfl

theorem Pitch.key_fault (p : Pitch) : faultOf? p.key = (Check.key p).fault? := by
  rw [Pitch.key, Check.fault?]
  by_cases h : 0 ≤ p.semitones ∧ p.semitones < 128
  · rw [dif_pos h, if_pos (by omega), faultOf?]
  · rw [dif_neg h, if_neg (by omega), faultOf?]

theorem NoteLength.add_fault {x y : NoteLength} (hx : x.Valid) (hy : y.Valid) :
    faultOf? (x.add y) = (Check.addition x.value y.value).fault? := by
  rw [Check.fault?]
  by_cases hcombines : Width.w32.Combines (· + ·) x.value y.value
  · rw [if_pos hcombines]
    cases h : x.add y with
    | ok z => rfl
    | error fault => exact absurd hcombines ((add_eq_error hx hy).1 h).2
  · rw [if_neg hcombines]
    exact faultOf?_eq_some.2 ((add_eq_error hx hy).2 ⟨rfl, hcombines⟩)

/-! ## The walk -/

namespace Arrangement

/-- Wherever the walk of an arrangement begins, its fault is that of the first check that fails. -/
def Checked (node : Arrangement) : Prop :=
  ∀ {position : NoteLength}, position.Valid → faultOf? (node.place position) = firstFault (node.checks position.value)

theorem placeTogether_fault {parts : List Arrangement} (hparts : ∀ part ∈ parts, Checked part)
    {position : NoteLength} (hp : position.Valid) :
    faultOf? (placeTogether position parts) = firstFault (checksTogether position.value parts) := by
  induction parts with
  | nil => rfl
  | cons part parts ih =>
    obtain ⟨hpart, hrest⟩ := List.forall_mem_cons.1 hparts
    rw [placeTogether, checksTogether, firstFault_append]
    apply faultOf?_bind (hpart hp)
    intro placed _
    rw [faultOf?_bind_return]
    exact ih hrest

theorem placeInTurn_fault {parts : List Arrangement} (hparts : ∀ part ∈ parts, Checked part ∧ LengthExact part)
    {position : NoteLength} (hp : position.Valid) :
    faultOf? (placeInTurn position parts) = firstFault (checksInTurn position.value parts) := by
  induction parts generalizing position with
  | nil => rfl
  | cons part parts ih =>
    obtain ⟨⟨hpart, hvalid, hextent⟩, hrest⟩ := List.forall_mem_cons.1 hparts
    rw [placeInTurn, checksInTurn, firstFault_append, firstFault_cons]
    apply faultOf?_bind (hpart hp)
    rintro ⟨length, notes⟩ hplace
    -- What the part consumes is its stored length, and so is what is added.
    obtain rfl := length_of_place hplace
    rw [← hextent]
    apply faultOf?_bind (NoteLength.add_fault hp hvalid)
    intro next hnext
    obtain ⟨hnextvalid, hnextval⟩ := NoteLength.add_exact hp hvalid hnext
    rw [faultOf?_bind_return, ← hnextval]
    exact ih hrest hnextvalid

theorem Built.place_fault {node : Arrangement} (built : node.Built) : node.Checked := by
  induction built with
  | note pitch hl =>
    intro position hp
    rw [place, checks, firstFault_cons, firstFault_cons]
    apply faultOf?_bind (Pitch.key_fault pitch)
    intro key _
    rw [faultOf?_bind_return, NoteLength.add_fault hp hl]
    exact (Option.or_none ..).symm
  | rest _ =>
    intro position _
    rfl
  | together _ hok ih =>
    intro position hp
    obtain ⟨_, _, rfl⟩ := together_eq_ok.1 hok
    rw [place, checks, faultOf?_bind_return]
    exact placeTogether_fault ih hp
  | inTurn hparts hok ih =>
    intro position hp
    obtain ⟨_, _, rfl⟩ := inTurn_eq_ok.1 hok
    rw [place, checks, faultOf?_bind_return]
    exact placeInTurn_fault (fun part hpart => ⟨ih part hpart, (hparts part hpart).length_exact⟩) hp

end Arrangement

end ScoreSequencer
