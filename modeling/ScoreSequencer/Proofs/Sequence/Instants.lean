import Mathlib
import ScoreSequencer.Proofs.Binary64.Monotone
import ScoreSequencer.Proofs.Sequence.Compilation
/-!
# Later positions are not earlier instants

Bringing a position to an instant rounds three times: when the fraction becomes
a number, when it is scaled and when it is added to the start. Each step keeps
the order, so no note of a compiled sequence ends before it begins. It may well
end at the same instant.
-/

namespace ScoreSequencer

/-! ## Timings -/

/-- An accepted timing gives a whole note a finite time above zero. -/
theorem Timing.ofBeats_isPositive {timing : Timing} {beatsPerMeasure beatsPerNote : Nat} {beatsPerMinute : Binary64}
    (h : ofBeats beatsPerMeasure beatsPerNote beatsPerMinute = .ok timing) : timing.secondsPerNote.isPositive := by
  obtain ⟨signature, -, h⟩ := step_ok.1 h
  obtain ⟨tempo, -, h⟩ := step_ok.1 h
  unfold make at h
  dsimp only at h
  split at h
  · rename_i hpos
    cases h
    exact hpos
  · cases h

/-! ## Fractions as numbers -/

theorem Binary64.ofInt_toNat {n : Int} (h : 0 ≤ n) : ofInt n = ofNat n.toNat := by
  rw [ofInt, ofNat, decide_eq_false h.not_gt, show n.natAbs = n.toNat by omega]

/-- The numerator and denominator of a length, as natural numbers. -/
structure NoteLength.Parts (x : NoteLength) (n d : Nat) : Prop where
  numer : x.ratio.numer = n
  denom : x.ratio.denom = d
  numer_lt : n < 2 ^ 53
  denom_lt : d < 2 ^ 53
  denom_pos : 0 < d

namespace NoteLength

theorem Valid.parts {x : NoteLength} (h : x.Valid) : ∃ n d, x.Parts n d := by
  have hn0 := h.nonneg
  have hd0 := h.canonical.denom_pos
  obtain ⟨-, hn⟩ := h.canonical.holds_numer
  obtain ⟨-, hd⟩ := h.canonical.holds_denom
  rw [Width.greatest_w32] at hn hd
  exact ⟨x.ratio.numer.toNat, x.ratio.denom.toNat, by omega, by omega, by omega, by omega, by omega⟩

theorem Parts.toBinary64 {x : NoteLength} {n d : Nat} (h : x.Parts n d) :
    x.ratio.toBinary64 = Binary64.ofNat n / Binary64.ofNat d := by
  unfold Ratio.toBinary64
  rw [h.numer, h.denom, Binary64.ofInt_toNat (by omega), Binary64.ofInt_toNat (by omega)]
  rfl

theorem Valid.toBinary64_nonneg {x : NoteLength} (h : x.Valid) : x.ratio.toBinary64.Nonneg := by
  obtain ⟨n, d, hx⟩ := h.parts
  rw [hx.toBinary64, Binary64.div_ofNat hx.numer_lt hx.denom_lt hx.denom_pos]
  exact Binary64.ofUnits_nonneg _ _

theorem toBinary64_mono {x y : NoteLength} (hx : x.Valid) (hy : y.Valid) (h : x.value ≤ y.value) :
    x.ratio.toBinary64.magnitude ≤ y.ratio.toBinary64.magnitude := by
  obtain ⟨a, b, hab⟩ := hx.parts
  obtain ⟨c, d, hcd⟩ := hy.parts
  rw [hab.toBinary64, hcd.toBinary64]
  refine Binary64.div_ofNat_mono hab.numer_lt hab.denom_lt hcd.numer_lt hcd.denom_lt hab.denom_pos hcd.denom_pos ?_
  unfold value Ratio.value at h
  rw [hab.numer, hab.denom, hcd.numer, hcd.denom] at h
  have hb : (0 : ℚ) < b := by exact_mod_cast hab.denom_pos
  have hd : (0 : ℚ) < d := by exact_mod_cast hcd.denom_pos
  push_cast at h
  rw [div_le_div_iff₀ hb hd] at h
  exact_mod_cast h

end NoteLength

/-! ## Spans and instants -/

namespace Timing

variable {timing : Timing} {start : Instant} {x y : NoteLength}

theorem span_nonneg (hpos : timing.secondsPerNote.isPositive) (hx : x.Valid) : (timing.span x).seconds.Nonneg :=
  Binary64.mul_nonneg hx.toBinary64_nonneg hpos

theorem span_mono (hpos : timing.secondsPerNote.isPositive) (hx : x.Valid) (hy : y.Valid) (h : x.value ≤ y.value) :
    (timing.span x).seconds.rank ≤ (timing.span y).seconds.rank := by
  rw [(span_nonneg hpos hx).rank_eq, (span_nonneg hpos hy).rank_eq]
  have hquotients := NoteLength.toBinary64_mono hx hy h
  exact_mod_cast Binary64.mul_mono hx.toBinary64_nonneg hy.toBinary64_nonneg hpos hquotients

/-- From a finite start, a position that is not before another one is not brought
to an earlier instant. -/
theorem instant_mono (hpos : timing.secondsPerNote.isPositive) (hstart : start.seconds.isFinite)
    (hx : x.Valid) (hy : y.Valid) (h : x.value ≤ y.value) :
    ¬(timing.instant start y).Before (timing.instant start x) := by
  have hxnum := Binary64.isNaN_eq_false.2 (span_nonneg hpos hx).number
  have hynum := Binary64.isNaN_eq_false.2 (span_nonneg hpos hy).number
  rw [Instant.not_before_iff]
  exact Binary64.add_mono hstart hxnum hynum (span_mono hpos hx hy h)

end Timing

/-- No note of a compiled sequence ends before it begins. -/
theorem Sequence.Compiled.not_off_before_on {root : Arrangement} {start : Instant} {timing : Timing} {voice : Voice}
    {s : Sequence} (hc : Compiled root start timing voice s) (hpos : timing.secondsPerNote.isPositive)
    (hstart : start.seconds.isFinite) : ∀ n ∈ root.timedNotes timing start, ¬n.off.Before n.on := by
  obtain ⟨notes, hplaced, htimed⟩ := hc.placed
  rw [htimed]
  intro n hn
  obtain ⟨p, hp, rfl⟩ := List.mem_map.1 hn
  obtain ⟨o, -, ho⟩ := exists_of_placed hplaced p hp
  exact Timing.instant_mono hpos hstart ho.onset_valid ho.release_valid ho.onset_le_release

end ScoreSequencer
