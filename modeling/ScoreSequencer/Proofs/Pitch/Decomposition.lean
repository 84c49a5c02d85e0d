import Mathlib
import ScoreSequencer.Pitch
import ScoreSequencer.Proofs.Ratio.Checked
/-!
# Class and octave of a pitch

A pitch has just one class and one octave, and is given by the two (`semitones_eq_iff`).
Composing it from them brings the octave to semitones before the class is added, so it
also has to hold the pitch at which the octave begins (`compose_eq_ok`). The lowest octave
begins below the least number of 32 bits, and its eight pitches cannot be composed from
their own class and octave. `compose_parts_iff` says that these are the only ones.
-/

namespace ScoreSequencer

namespace PitchClass

theorem eq_iff_offset {x y : PitchClass} : x = y ↔ (x.offset : Int) = y.offset := by
  obtain ⟨i⟩ := x
  obtain ⟨j⟩ := y
  simp only [PitchClass.mk.injEq, Fin.ext_iff]
  omega

theorem offset_ofOffset (n : Int) : ((ofOffset n).offset : Int) = n % 12 :=
  Int.toNat_of_nonneg (Int.emod_nonneg n (by decide))

end PitchClass

namespace Pitch

variable {p q : Pitch} {x : PitchClass} {octave : Int} {fault : Fault}

theorem eq_iff_semitones : p = q ↔ p.semitones = q.semitones := by
  cases p
  cases q
  simp

theorem ofSemitones?_eq_some {n : Int} : ofSemitones? n = some p ↔ p.semitones = n := by
  obtain ⟨m, hm⟩ := p
  unfold ofSemitones?
  split
  · simp [eq_comm]
  · rename_i hn
    simp only [reduceCtorEq, false_iff]
    rintro rfl
    exact hn hm

/-! ## The two parts of a pitch -/

theorem offset_pitchClass (p : Pitch) : (p.pitchClass.offset : Int) = p.semitones % 12 :=
  PitchClass.offset_ofOffset p.semitones

/-- Quotient and remainder are unique, below zero too. -/
theorem semitones_eq_iff :
    p.semitones = (octave + 1) * 12 + x.offset ↔ p.pitchClass = x ∧ p.octave = octave := by
  have hoffset := x.offset.isLt
  rw [PitchClass.eq_iff_offset, offset_pitchClass, Pitch.octave]
  omega

theorem semitones_eq (p : Pitch) : p.semitones = (p.octave + 1) * 12 + p.pitchClass.offset :=
  semitones_eq_iff.2 ⟨rfl, rfl⟩

/-! ## Composing -/

/-- A pitch is composed if 32 bits hold it and the beginning of its octave. An octave that
cannot be counted from C-1 within 32 bits does not begin within them either. -/
theorem compose_eq (x : PitchClass) (octave : Int) : compose x octave =
    if h : Width.w32.Holds ((octave + 1) * 12) ∧ Width.w32.Holds ((octave + 1) * 12 + x.offset) then
      .ok ⟨(octave + 1) * 12 + x.offset, h.2⟩
    else .error (.overflow .pitchConstruction) := by
  unfold compose ofSemitones?
  simp only [Width.narrow_bind]
  by_cases hbegin : Width.w32.Holds ((octave + 1) * 12)
  · rw [if_pos (Width.holds_of_mul (by decide) hbegin), if_pos hbegin]
    by_cases hpitch : Width.w32.Holds ((octave + 1) * 12 + x.offset)
    · rw [dif_pos hpitch, dif_pos ⟨hbegin, hpitch⟩]
      rfl
    · rw [dif_neg hpitch, dif_neg (fun h => hpitch h.2)]
      rfl
  · rw [if_neg hbegin, dif_neg (fun h => hbegin h.1), ite_self]

theorem compose_eq_ok :
    compose x octave = .ok p ↔ Width.w32.Holds ((octave + 1) * 12) ∧ p.pitchClass = x ∧ p.octave = octave := by
  rw [compose_eq, ← semitones_eq_iff]
  have hholds := p.holds
  split_ifs with h
  · simp only [Except.ok.injEq, eq_iff_semitones, h.1, true_and, eq_comm]
  · simp only [false_iff]
    rintro ⟨hbegin, hpitch⟩
    exact h ⟨hbegin, hpitch ▸ hholds⟩

theorem compose_eq_error : compose x octave = .error fault ↔ fault = .overflow .pitchConstruction ∧
    ¬(Width.w32.Holds ((octave + 1) * 12) ∧ Width.w32.Holds ((octave + 1) * 12 + x.offset)) := by
  rw [compose_eq]
  split_ifs with h <;> simp [h, eq_comm]

/-! ## Main theorem -/

/-- A pitch's octave begins within 32 bits unless the pitch is one of the eight lowest. -/
theorem holds_octave_iff (p : Pitch) :
    Width.w32.Holds ((p.octave + 1) * 12) ↔ Width.w32.least + 8 ≤ p.semitones := by
  have hgreatest := Width.greatest_w32
  have hleast := Width.least_eq (w := .w32)
  obtain ⟨hlow, hhigh⟩ := p.holds
  have hparts := p.semitones_eq
  have hoffset := p.pitchClass.offset.isLt
  simp only [Width.Holds]
  omega

/-- Class and octave determine a pitch. It can be composed from them unless it is one of
the eight lowest pitches, which all belong to the octave that begins below 32 bits. A
class and an octave are refused just when the pitch or the beginning of the octave
leaves 32 bits, always as an overflow of the construction. -/
theorem compose_parts_iff (p : Pitch) :
    (∀ q : Pitch, q = p ↔ q.pitchClass = p.pitchClass ∧ q.octave = p.octave) ∧
    (compose p.pitchClass p.octave = .ok p ↔ Width.w32.least + 8 ≤ p.semitones) ∧
    (compose p.pitchClass p.octave = .error (.overflow .pitchConstruction) ↔ p.semitones < Width.w32.least + 8) ∧
    ∀ x octave fault, compose x octave = .error fault ↔ fault = .overflow .pitchConstruction ∧
      ¬(Width.w32.Holds ((octave + 1) * 12) ∧ Width.w32.Holds ((octave + 1) * 12 + x.offset)) := by
  refine ⟨fun q => ?_, ?_, ?_, fun x octave fault => compose_eq_error⟩
  · rw [eq_iff_semitones, p.semitones_eq, semitones_eq_iff]
  · rw [compose_eq_ok, holds_octave_iff]
    simp
  · rw [compose_eq_error, ← p.semitones_eq, holds_octave_iff]
    simp [p.holds]

/-- The least number of semitones, an E. -/
def lowest : Pitch := ⟨Width.w32.least, Width.holds_least⟩

/-- The lowest pitch is refused when it is composed from its own class and octave, although
32 bits hold it. -/
theorem lowest_refused : lowest.pitchClass = .e ∧ lowest.octave = -178956972 ∧
    Width.w32.Holds (12 * (-178956972 + 1) + PitchClass.e.offset) ∧
    compose lowest.pitchClass lowest.octave = .error (.overflow .pitchConstruction) := by
  decide

end Pitch

end ScoreSequencer
