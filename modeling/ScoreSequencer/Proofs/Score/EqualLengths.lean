import Mathlib
import ScoreSequencer.Proofs.Ratio.NoteLengths
import ScoreSequencer.Proofs.Score.Extent
/-!
# Parts of equal length

A harmony compares the length of each part with the longest one before it, and equal
lengths are multiplied crosswise like any others of one sign. So a harmony of two parts
of equal length can be refused (`twins_refused`). `equal_compare_iff` says when equal
ratios compare as equal and when equal parts go together: just when the product of
numerator and denominator stays within the width.
-/

namespace ScoreSequencer

namespace NoteLength

variable {x : NoteLength}

theorem max_self (hx : x.Valid) : x.max x =
    if Width.w32.Holds (x.ratio.numer * x.ratio.denom) then .ok x else .error (.overflow .ratioComparison) := by
  rw [max, Ratio.max_self hx.canonical]
  split <;> rfl

end NoteLength

namespace Arrangement

theorem longest_concat (parts : List Arrangement) (last : Arrangement) :
    longest (parts ++ [last]) = longest parts >>= fun l => l.max last.length := by
  rw [longest, List.foldlM_append]
  simp [longest]

theorem longest_singleton {part : Arrangement} (hpart : part.Built) : longest [part] = .ok part.length :=
  (longest_concat [] part).trans (NoteLength.zero_max hpart.length_exact.1)

/-- A part as long as the longest one before it is taken just when this length can be
compared with itself. -/
theorem together_concat_of_longest {parts : List Arrangement} {last : Arrangement} (hlast : last.Built)
    (h : longest parts = .ok last.length) : together (parts ++ [last]) =
      if Width.w32.Holds (last.length.ratio.numer * last.length.ratio.denom) then
        .ok (harmony (parts ++ [last]) last.length)
      else .error (.overflow .ratioComparison) := by
  rw [together, longest_concat, h, step_of_ok, NoteLength.max_self hlast.length_exact.1]
  split <;> rfl

end Arrangement

/-! ## Main theorem -/

open Arrangement

/-- Only equal ratios compare as equal, and they do just when the width holds the
product of numerator and denominator. Otherwise the comparison of a ratio with itself is
refused, and with it the greater and the lesser of the two. So is a harmony in which a
part is as long as the longest one before it, in particular one of two equal parts. -/
theorem equal_compare_iff {w : Width} {x y : Ratio w} (hx : x.Made) (hy : y.Made) :
    (x.cmp y = .ok .eq ↔ x = y ∧ w.Holds (x.numer * x.denom)) ∧
    (x.cmp x = if w.Holds (x.numer * x.denom) then .ok .eq else .error (.overflow .ratioComparison)) ∧
    (x.max x = if w.Holds (x.numer * x.denom) then .ok x else .error (.overflow .ratioComparison)) ∧
    (x.min x = if w.Holds (x.numer * x.denom) then .ok x else .error (.overflow .ratioComparison)) ∧
    (∀ (parts : List Arrangement) (last : Arrangement), last.Built → longest parts = .ok last.length →
      together (parts ++ [last]) =
        if Width.w32.Holds (last.length.ratio.numer * last.length.ratio.denom) then
          .ok (harmony (parts ++ [last]) last.length)
        else .error (.overflow .ratioComparison)) ∧
    ∀ p q : Arrangement, p.Built → q.Built → p.length = q.length → together [p, q] =
      if Width.w32.Holds (p.length.ratio.numer * p.length.ratio.denom) then .ok (harmony [p, q] p.length)
      else .error (.overflow .ratioComparison) := by
  have hcan := hx.canonical
  refine ⟨Ratio.cmp_eq_eq_iff hcan hy.canonical, Ratio.cmp_self hcan, Ratio.max_self hcan, Ratio.min_self hcan,
    fun parts last hlast => together_concat_of_longest hlast, fun p q hp hq hlength => ?_⟩
  have hlongest := longest_singleton hp
  rw [hlength] at hlongest ⊢
  exact together_concat_of_longest hq hlongest

/-- A length just short enough to be compared with itself. -/
def comparable : NoteLength := ⟨⟨46341, 46340⟩⟩

theorem comparable_built : (rest comparable).Built := .rest (by decide)

theorem equal_compare_comparable : comparable.ratio.Made ∧ (rest comparable).Built ∧
    comparable.ratio.cmp comparable.ratio = .ok .eq ∧ comparable.ratio.max comparable.ratio = .ok comparable.ratio ∧
    together [rest comparable, rest comparable] = .ok (harmony [rest comparable, rest comparable] comparable) := by
  have hmade : comparable.ratio.Made := Ratio.Canonical.made (by decide)
  have hholds : Width.w32.Holds (comparable.ratio.numer * comparable.ratio.denom) := by decide
  obtain ⟨hcmp, -, hmax, -, -, htogether⟩ := equal_compare_iff hmade hmade
  exact ⟨hmade, comparable_built, hcmp.2 ⟨rfl, hholds⟩, hmax.trans (if_pos hholds),
    (htogether _ _ comparable_built comparable_built rfl).trans (if_pos hholds)⟩

/-- Slightly less than a whole note. -/
def twin : NoteLength := ⟨⟨46349, 46351⟩⟩

/-- In eight bits `12/11` cannot be compared with itself, and in thirty-two bits two
rests of one length make no harmony. -/
theorem twins_refused :
    (⟨12, 11⟩ : Ratio .w8).Made ∧ Ratio.cmp (w := .w8) ⟨12, 11⟩ ⟨12, 11⟩ = .error (.overflow .ratioComparison) ∧
    Ratio.max (w := .w8) ⟨12, 11⟩ ⟨12, 11⟩ = .error (.overflow .ratioComparison) ∧
    Ratio.min (w := .w8) ⟨12, 11⟩ ⟨12, 11⟩ = .error (.overflow .ratioComparison) ∧
    (rest twin).Built ∧ together [rest twin, rest twin] = .error (.overflow .ratioComparison) := by
  have hbuilt : (rest twin).Built := .rest (by decide)
  have hlongest : longest [rest twin] = .ok (rest twin).length := longest_singleton hbuilt
  exact ⟨Ratio.Canonical.made (by decide), by decide +kernel, by decide +kernel, by decide +kernel, hbuilt,
    (together_concat_of_longest hbuilt hlongest).trans (if_neg (by decide))⟩

end ScoreSequencer
