import Mathlib
import ScoreSequencer.Pitch
import ScoreSequencer.Proofs.Pitch.Decomposition
/-!
# Names of pitches

A pitch is written as the name of its class and the number of its octave, with nothing
between them. No class name holds a character with which a number begins, so the number is
what follows the last letter or sharp, and a name can be read back: `parts?` answers just
the class and the octave that were written (`parts?_eq_some`), `ofText?` just the pitch.
`text_identifies` says that no two pitches share a name.
-/

namespace ScoreSequencer

/-! ## Class names -/

namespace PitchClass

theorem names_nodup : names.Nodup := by decide

/-- The class with a name. -/
def ofText? (text : String) : Option PitchClass :=
  (names.finIdxOf? text).map fun i => ⟨i.cast length_names⟩

theorem ofText?_eq_some {text : String} {x : PitchClass} : ofText? text = some x ↔ text = x.text := by
  unfold ofText?
  rw [Option.map_eq_some_iff]
  constructor
  · rintro ⟨i, hi, rfl⟩
    exact (List.finIdxOf?_eq_some_iff.1 hi).1.symm
  · rintro rfl
    refine ⟨x.offset.cast length_names.symm, List.finIdxOf?_eq_some_iff.2 ⟨rfl, fun j hj heq => ?_⟩, rfl⟩
    have hindex := names_nodup.getElem_inj_iff.1 heq
    exact hj.ne (Fin.ext hindex)

end PitchClass

namespace Pitch

variable {p : Pitch} {text : String}

/-! ## Octave numbers -/

/-- The number of an octave, written in decimal with no character to spare. -/
def octaveOfText? (text : String) : Option Int := text.toInt?.filter fun octave => toString octave = text

theorem octaveOfText?_eq_some {octave : Int} :
    octaveOfText? text = some octave ↔ text = toString octave := by
  unfold octaveOfText?
  rw [Option.filter_eq_some_iff, decide_eq_true_eq, eq_comm (a := text), and_iff_right_iff_imp]
  rintro rfl
  rw [Int.toString_eq_repr]
  exact Int.toInt?_repr octave

/-! ## Where the octave begins -/

/-- A character with which no number begins. -/
def isNameChar (c : Char) : Bool := !c.isDigit && c ≠ '-'

theorem isNameChar_of_mem_names : ∀ name ∈ PitchClass.names, ∀ c ∈ name.toList, isNameChar c := by
  simp [PitchClass.names, isNameChar]

/-- A number begins with a digit, or with a minus sign if it is below zero. -/
theorem toString_head (octave : Int) : ∃ c rest, (toString octave).toList = c :: rest ∧ ¬isNameChar c := by
  rw [Int.toString_eq_repr, Int.repr_eq_if]
  split
  · rw [Nat.toList_repr]
    obtain ⟨c, rest, hdigits⟩ := List.exists_cons_of_ne_nil (Nat.toDigits_ne_nil (n := octave.toNat) (b := 10))
    have hmem : c ∈ Nat.toDigits 10 octave.toNat := hdigits ▸ List.mem_cons_self
    have hdigit := Nat.isDigit_of_mem_toDigits (by decide) (by decide) hmem
    exact ⟨c, rest, hdigits, by simp [isNameChar, hdigit]⟩
  · exact ⟨'-', (-octave).toNat.repr.toList, by simp, by decide⟩

/-- What stands before the first character with which a number can begin, and the rest. -/
def splitName (text : String) : String × String :=
  (.ofList (text.toList.takeWhile isNameChar), .ofList (text.toList.dropWhile isNameChar))

theorem splitName_append (text : String) : (splitName text).1 ++ (splitName text).2 = text := by
  rw [splitName, ← String.ofList_append, List.takeWhile_append_dropWhile, String.ofList_toList]

theorem splitName_text (x : PitchClass) (octave : Int) :
    splitName (x.text ++ toString octave) = (x.text, toString octave) := by
  -- All of the name passes, and the first character of the number stops the reading.
  have hname := isNameChar_of_mem_names x.text (List.getElem_mem _)
  obtain ⟨c, rest, hnumber, hbegins⟩ := toString_head octave
  rw [splitName, String.toList_append, List.takeWhile_append_of_pos hname, List.dropWhile_append_of_pos hname,
    hnumber, List.takeWhile_cons_of_neg hbegins, List.dropWhile_cons_of_neg hbegins, ← hnumber, List.append_nil,
    String.ofList_toList, String.ofList_toList]

/-! ## Reading a name back -/

/-- The class and the octave that a name is made of. -/
def parts? (text : String) : Option (PitchClass × Int) := do
  let (name, number) := splitName text
  return (← PitchClass.ofText? name, ← octaveOfText? number)

theorem parts?_eq_some {x : PitchClass} {octave : Int} :
    parts? text = some (x, octave) ↔ text = x.text ++ toString octave := by
  have hparts : parts? text = some (x, octave) ↔
      (splitName text).1 = x.text ∧ (splitName text).2 = toString octave := by
    simp [parts?, Option.bind_eq_some_iff, PitchClass.ofText?_eq_some, octaveOfText?_eq_some]
  rw [hparts]
  constructor
  · rintro ⟨hname, hnumber⟩
    rw [← splitName_append text, hname, hnumber]
  · rintro rfl
    rw [splitName_text]
    exact ⟨rfl, rfl⟩

theorem append_inj {x y : PitchClass} {m n : Int} :
    x.text ++ toString m = y.text ++ toString n ↔ x = y ∧ m = n := by
  rw [← parts?_eq_some, parts?_eq_some.2 rfl, Option.some.injEq, Prod.mk.injEq]

/-- The pitch with a name. Its semitones are counted in one step and not composed, which
would refuse the names of the eight lowest pitches. -/
def ofText? (text : String) : Option Pitch := do
  let (x, octave) ← parts? text
  ofSemitones? ((octave + 1) * 12 + x.offset)

theorem ofText?_eq_some : ofText? text = some p ↔ text = p.text := by
  unfold ofText?
  rw [Option.bind_eq_bind, Option.bind_eq_some_iff]
  constructor
  · rintro ⟨⟨x, octave⟩, hparts, hpitch⟩
    obtain ⟨rfl, rfl⟩ := semitones_eq_iff.1 (ofSemitones?_eq_some.1 hpitch)
    exact parts?_eq_some.1 hparts
  · intro htext
    exact ⟨(p.pitchClass, p.octave), parts?_eq_some.2 htext, ofSemitones?_eq_some.2 p.semitones_eq⟩

/-- A zero to spare is no part of a name. -/
example : ofText? "C04" = none := by cbv

/-! ## Main theorem -/

/-- No two pitches share a name. A name is made of one class and one octave in one way only,
it is read back as its pitch, and no other text is read as this pitch. -/
theorem text_identifies (p : Pitch) :
    (∀ q : Pitch, q.text = p.text ↔ q = p) ∧
    (∀ x octave, x.text ++ toString octave = p.text ↔ x = p.pitchClass ∧ octave = p.octave) ∧
    ∀ text, ofText? text = some p ↔ text = p.text := by
  refine ⟨fun q => ?_, fun x octave => append_inj, fun text => ofText?_eq_some⟩
  rw [← ofText?_eq_some, ofText?_eq_some.2 rfl, Option.some.injEq]

/-- The lowest pitch has a name, although it cannot be composed. -/
example : (⟨-2147483648, by decide⟩ : Pitch).text = "E-178956972" := by decide

end Pitch

end ScoreSequencer
