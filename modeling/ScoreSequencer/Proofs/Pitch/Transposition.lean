import Mathlib
import ScoreSequencer.Proofs.Pitch.Decomposition
/-!
# Intervals move pitches and pitch classes alike

An interval is added to the semitones of a pitch within 32 bits and to the offset of a
class modulo twelve. The two agree (`pitchClass_of_up`), whatever the sizes and signs, and
the same interval the other way leads back. `transposition_acts` collects this for
pitches, for classes and for classes moved within an octave.
-/

namespace ScoreSequencer

/-! ## Moving a class -/

namespace PitchClass

theorem offset_up (x : PitchClass) (i : Interval) : ((x.up i).offset : Int) = (x.offset + i.semitones) % 12 := by
  rw [up, offset_ofOffset, Int.add_emod_emod]

theorem offset_down (x : PitchClass) (i : Interval) : ((x.down i).offset : Int) = (x.offset - i.semitones) % 12 := by
  rw [down, offset_ofOffset, Int.sub_emod_emod]

/-- What is brought back into the octave is never far outside of it. -/
theorem holds_moved (x : PitchClass) (i : Interval) :
    Width.w32.Holds (x.offset + i.semitones % 12) ∧ Width.w32.Holds (x.offset - i.semitones % 12) := by
  have hgreatest := Width.greatest_w32
  have hleast := Width.least_eq (w := .w32)
  have hoffset := x.offset.isLt
  simp only [Width.Holds]
  omega

theorem down_up (x : PitchClass) (i : Interval) : (x.up i).down i = x := by
  have hoffset := x.offset.isLt
  rw [eq_iff_offset, offset_down, offset_up]
  omega

theorem up_down (x : PitchClass) (i : Interval) : (x.down i).up i = x := by
  have hoffset := x.offset.isLt
  rw [eq_iff_offset, offset_up, offset_down]
  omega

theorem up_comm (x : PitchClass) (i j : Interval) : (x.up i).up j = (x.up j).up i := by
  rw [eq_iff_offset, offset_up, offset_up, offset_up, offset_up]
  omega

theorem down_comm (x : PitchClass) (i j : Interval) : (x.down i).down j = (x.down j).down i := by
  rw [eq_iff_offset, offset_down, offset_down, offset_down, offset_down]
  omega

end PitchClass

/-! ## Moving a pitch -/

theorem Interval.ofSemitones?_eq_some {n : Int} {i : Interval} : ofSemitones? n = some i ↔ i.semitones = n := by
  obtain ⟨m, hm⟩ := i
  unfold ofSemitones?
  split
  · simp [eq_comm]
  · rename_i hn
    simp only [reduceCtorEq, false_iff]
    rintro rfl
    exact hn hm

namespace Pitch

variable {p q : Pitch} {i : Interval}

theorem up_eq_ok : p.up i = .ok q ↔ q.semitones = p.semitones + i.semitones := by
  rw [up, ← ofSemitones?_eq_some]
  cases ofSemitones? (p.semitones + i.semitones) <;> simp

theorem down_eq_ok : p.down i = .ok q ↔ q.semitones = p.semitones - i.semitones := by
  rw [down, ← ofSemitones?_eq_some]
  cases ofSemitones? (p.semitones - i.semitones) <;> simp

theorem distance_eq_ok : p.distance q = .ok i ↔ i.semitones = p.semitones - q.semitones := by
  rw [distance, ← Interval.ofSemitones?_eq_some]
  cases Interval.ofSemitones? (p.semitones - q.semitones) <;> simp

theorem pitchClass_of_up (h : p.up i = .ok q) : q.pitchClass = p.pitchClass.up i := by
  rw [PitchClass.eq_iff_offset, PitchClass.offset_up, offset_pitchClass, offset_pitchClass, up_eq_ok.1 h,
    Int.emod_add_emod]

theorem pitchClass_of_down (h : p.down i = .ok q) : q.pitchClass = p.pitchClass.down i := by
  rw [PitchClass.eq_iff_offset, PitchClass.offset_down, offset_pitchClass, offset_pitchClass, down_eq_ok.1 h,
    Int.emod_sub_emod]

/-- The semitones from one pitch to another, counted by their octaves and classes. -/
def steps (p q : Pitch) : Int := 12 * (q.octave - p.octave) + (q.pitchClass.offset - p.pitchClass.offset)

theorem steps_eq (p q : Pitch) : p.steps q = q.semitones - p.semitones := by
  have hp := p.semitones_eq
  have hq := q.semitones_eq
  rw [steps]
  omega

/-! ## Main theorem -/

/-- Where a pitch can be moved by an interval, its class moves by it too, octaves and classes
count that many semitones, the same interval leads back, and it is the distance of the two
pitches. Classes can be moved by any interval. They stay within the octave, intervals that
move them commute, and the same interval leads back. What is composed of a class and an octave
has this class and this octave, so a pitch of which only the class is moved keeps its octave. -/
theorem transposition_acts (p : Pitch) (i : Interval) :
    (∀ q, p.up i = .ok q →
      q.pitchClass = p.pitchClass.up i ∧ p.steps q = i.semitones ∧ q.down i = .ok p ∧ q.distance p = .ok i) ∧
    (∀ q, p.down i = .ok q →
      q.pitchClass = p.pitchClass.down i ∧ p.steps q = -i.semitones ∧ q.up i = .ok p ∧ p.distance q = .ok i) ∧
    (∀ x : PitchClass, Width.w32.Holds (x.offset + i.semitones % 12) ∧
      Width.w32.Holds (x.offset - i.semitones % 12) ∧
      ((x.up i).offset : Int) = (x.offset + i.semitones) % 12 ∧
      ((x.down i).offset : Int) = (x.offset - i.semitones) % 12 ∧
      (x.up i).down i = x ∧ (x.down i).up i = x ∧
      ∀ j, (x.up i).up j = (x.up j).up i ∧ (x.down i).down j = (x.down j).down i) ∧
    (∀ x octave q, compose x octave = .ok q → q.pitchClass = x ∧ q.octave = octave) ∧
    ∀ q, compose (p.pitchClass.up i) p.octave = .ok q ∨ compose (p.pitchClass.down i) p.octave = .ok q →
      q.octave = p.octave := by
  have hcomposed : ∀ {x octave q}, compose x octave = .ok q → q.pitchClass = x ∧ q.octave = octave :=
    fun h => (compose_eq_ok.1 h).2
  refine ⟨fun q h => ?_, fun q h => ?_, fun x => ?_, fun x octave q => hcomposed, fun q h => ?_⟩
  · have hq := up_eq_ok.1 h
    refine ⟨pitchClass_of_up h, ?_, down_eq_ok.2 ?_, distance_eq_ok.2 ?_⟩
    · rw [steps_eq, hq, add_sub_cancel_left]
    · rw [hq, add_sub_cancel_right]
    · rw [hq, add_sub_cancel_left]
  · have hq := down_eq_ok.1 h
    refine ⟨pitchClass_of_down h, ?_, up_eq_ok.2 ?_, distance_eq_ok.2 ?_⟩
    · rw [steps_eq, hq, sub_sub_cancel_left]
    · rw [hq, sub_add_cancel]
    · rw [hq, sub_sub_cancel]
  · obtain ⟨hsum, hdifference⟩ := x.holds_moved i
    exact ⟨hsum, hdifference, x.offset_up i, x.offset_down i, x.down_up i, x.up_down i,
      fun j => ⟨x.up_comm i j, x.down_comm i j⟩⟩
  · rcases h with h | h <;> exact (hcomposed h).2

/-- The longest interval up. -/
def farthest : Interval := ⟨Width.w32.greatest, by decide⟩

/-- The B below C-1. -/
def below : Pitch := ⟨-1, by decide⟩

/-- From the lowest pitch the longest interval leads up to the B below C-1, and back. Moved down
by it, the class of this B is that of an E in the same octave. -/
theorem transposition_acts_farthest :
    lowest.up farthest = .ok below ∧ below.pitchClass = lowest.pitchClass.up farthest ∧
    lowest.steps below = farthest.semitones ∧ below.down farthest = .ok lowest ∧
    below.distance lowest = .ok farthest ∧ (below.pitchClass.down farthest).up farthest = below.pitchClass ∧
    compose (below.pitchClass.down farthest) below.octave = .ok ⟨-8, by decide⟩ ∧
    (⟨-8, by decide⟩ : Pitch).octave = below.octave := by
  have hdown : below.down farthest = .ok lowest := by decide
  have hcompose : compose (below.pitchClass.down farthest) below.octave = .ok ⟨-8, by decide⟩ := by decide
  obtain ⟨-, hmoved, hclasses, -, hkept⟩ := transposition_acts below farthest
  obtain ⟨-, -, hup, -⟩ := hmoved _ hdown
  obtain ⟨hclass, hsteps, hback, hdistance⟩ := (transposition_acts lowest farthest).1 _ hup
  obtain ⟨-, -, -, -, -, hreturn, -⟩ := hclasses below.pitchClass
  exact ⟨hup, hclass, hsteps, hback, hdistance, hreturn, hcompose, hkept _ (.inr hcompose)⟩

end Pitch

end ScoreSequencer
