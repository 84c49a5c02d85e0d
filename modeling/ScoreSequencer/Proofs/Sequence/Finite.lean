import Mathlib
import ScoreSequencer.Proofs.Binary64.Overflow
import ScoreSequencer.Proofs.Sequence.Bounds
/-!
# Finite times

A timing is accepted if the time of one whole note is finite. Longer notes of a slow piece
may take longer than any finite number of seconds (`breve_not_finite`). As all events are
between the start and the end, the times of a sequence are finite if its end is.
`compile_finite_iff` says when that is: the time of the whole piece and its end must stay
below the least number that is rounded to infinity. A timing and a start give finite times to
all arrangements just when they do so to the longest note there is.
-/

namespace ScoreSequencer

/-- The most whole notes that a length can have. -/
def NoteLength.longest : NoteLength := ⟨⟨Width.w32.greatest, 1⟩⟩

namespace NoteLength

variable {x : NoteLength}

theorem longest_valid : longest.Valid := by decide

theorem Valid.le_longest (hx : x.Valid) : x.value ≤ longest.value := by
  have hdenom : (1 : ℚ) ≤ x.ratio.denom := by exact_mod_cast hx.canonical.denom_pos
  have hnumer : (x.ratio.numer : ℚ) ≤ Width.w32.greatest := by exact_mod_cast hx.canonical.holds_numer.2
  have hnonneg : (0 : ℚ) ≤ x.ratio.numer := by exact_mod_cast hx.nonneg
  calc x.value ≤ x.ratio.numer := div_le_self hnonneg hdenom
    _ ≤ Width.w32.greatest := hnumer
    _ = longest.value := by simp [value, Ratio.value, longest]

/-- The fraction of a length is rounded to a finite number. -/
theorem Valid.toBinary64_isFinite (hx : x.Valid) : x.ratio.toBinary64.isFinite := by
  obtain ⟨n, d, hparts⟩ := hx.parts
  rw [hparts.toBinary64]
  exact Binary64.div_ofNat_isFinite hparts.numer_lt hparts.denom_lt hparts.denom_pos

end NoteLength

/-! ## Lengths that fit -/

namespace Timing

variable {timing : Timing} {start : Instant} {x : NoteLength}

/-- A length fits after the start: neither the time it takes nor the instant at which it
ends is rounded to infinity. -/
structure Fits (timing : Timing) (start : Instant) (x : NoteLength) : Prop where
  span : x.ratio.toBinary64.value * timing.secondsPerNote.value < Binary64.limit
  instant : start.seconds.value + (timing.span x).seconds.value < Binary64.limit

theorem span_isFinite_iff (hpos : timing.secondsPerNote.isPositive) (hx : x.Valid) :
    (timing.span x).seconds.isFinite ↔ x.ratio.toBinary64.value * timing.secondsPerNote.value < Binary64.limit :=
  Binary64.mul_isFinite_iff hx.toBinary64_nonneg hx.toBinary64_isFinite hpos

theorem instant_isFinite_iff (hpos : timing.secondsPerNote.isPositive) (hstart : start.seconds.isFinite)
    (hx : x.Valid) : (timing.instant start x).seconds.isFinite ↔ timing.Fits start x := by
  constructor
  · intro h
    have hspan : (timing.span x).seconds.isFinite := Binary64.finite_of_add_right hstart h
    have hsum := (Binary64.add_isFinite_iff hstart hspan).1 h
    exact ⟨(span_isFinite_iff hpos hx).1 hspan, (abs_lt.1 hsum).2⟩
  · rintro ⟨hproduct, hsum⟩
    have hspan := (span_isFinite_iff hpos hx).2 hproduct
    have hnonneg := (span_nonneg hpos hx).value_nonneg
    have hlower := (abs_lt.1 (Binary64.abs_value_lt hstart)).1
    exact (Binary64.add_isFinite_iff hstart hspan).2 (abs_lt.2 ⟨by linarith, hsum⟩)

/-- A shorter length fits if a longer one does. -/
theorem Fits.mono {y : NoteLength} (hpos : timing.secondsPerNote.isPositive) (hstart : start.seconds.isFinite)
    (hx : x.Valid) (hy : y.Valid) (hle : x.value ≤ y.value) (h : timing.Fits start y) : timing.Fits start x := by
  rw [← instant_isFinite_iff hpos hstart hx]
  exact Binary64.isFinite_of_le_of_le hstart (start_le_instant hpos hstart hx)
    (instant_le_instant hpos hstart hx hy hle) ((instant_isFinite_iff hpos hstart hy).2 h)

end Timing

/-! ## Sequences -/

namespace Sequence

variable {root : Arrangement} {start : Instant} {timing : Timing} {voice : Voice} {s : Sequence}

/-- All times of a sequence are finite numbers. -/
structure Finite (s : Sequence) : Prop where
  events : ∀ e ∈ s.events, e.time.seconds.isFinite
  duration : s.duration.seconds.isFinite
  endTime : s.endTime.seconds.isFinite

/-- Nothing comes after the end, so the times are finite if it is. -/
theorem Compiled.finite_iff_endTime (hc : Compiled root start timing voice s) (built : root.Built)
    (hpos : timing.secondsPerNote.isPositive) (hstart : start.seconds.isFinite) :
    s.Finite ↔ s.endTime.seconds.isFinite := by
  refine ⟨Finite.endTime, fun h => ⟨?_, ?_, h⟩⟩
  · intro e he
    obtain ⟨x, hx, -, htime⟩ := hc.exists_position built e he
    have hafter : start.seconds.le e.time.seconds := htime ▸ Timing.start_le_instant hpos hstart hx
    exact Binary64.isFinite_of_le_of_le hstart hafter (hc.le_endTime built hpos hstart e he) h
  · refine Binary64.finite_of_add_right (a := s.start.seconds) ?_ h
    rwa [hc.start_eq]

theorem Compiled.finite_iff (hc : Compiled root start timing voice s) (built : root.Built)
    (hpos : timing.secondsPerNote.isPositive) (hstart : start.seconds.isFinite) :
    s.Finite ↔ timing.Fits start root.length := by
  rw [hc.finite_iff_endTime built hpos hstart, hc.endTime_eq]
  exact Timing.instant_isFinite_iff hpos hstart built.length_exact.1

/-! ## Main theorem -/

/-- From a finite start, with an accepted timing, all times of a compiled sequence are finite
just when the length of the arrangement fits after the start. They are for every
arrangement just when the longest note fits. -/
theorem compile_finite_iff {beatsPerMeasure beatsPerNote : Nat} {beatsPerMinute : Binary64}
    (hstart : start.seconds.isFinite)
    (htiming : Timing.ofBeats beatsPerMeasure beatsPerNote beatsPerMinute = .ok timing) :
    (∀ root voice s, root.Built → compile root start timing voice = .ok s →
      (s.Finite ↔ timing.Fits start root.length)) ∧
    ((∀ root voice s, root.Built → compile root start timing voice = .ok s → s.Finite) ↔
      timing.Fits start .longest) := by
  have hpos := Timing.ofBeats_isPositive htiming
  have hiff : ∀ root voice s, root.Built → compile root start timing voice = .ok s →
      (s.Finite ↔ timing.Fits start root.length) :=
    fun root voice s built h => (compiled built h).finite_iff built hpos hstart
  refine ⟨hiff, fun hall => ?_, fun hfits root voice s built h => ?_⟩
  · have built : (Arrangement.rest .longest).Built := .rest NoteLength.longest_valid
    have hplace : ((Arrangement.rest .longest).place .zero).isOk := by decide +kernel
    obtain ⟨s, h⟩ := exists_compile hplace start timing default
    exact (hiff _ _ _ built h).1 (hall _ _ _ built h)
  · have hx := built.length_exact.1
    exact (hiff _ _ _ built h).2 (hfits.mono hpos hstart hx NoteLength.longest_valid hx.le_longest)

end Sequence

/-! ## A slow piece -/

/-- Two whole notes. -/
def NoteLength.breve : NoteLength := ⟨⟨2, 1⟩⟩

/-- At 2 ^ -1016 beats a minute a whole note takes fifteen sixteenths of 2 ^ 1024 seconds. -/
def languid : Timing := ⟨.common, ⟨.ofBits 0x0070000000000000⟩, .ofNat (15 * Nat.pow 2 1020)⟩

theorem languid_eq : Timing.ofBeats 4 4 (.ofBits 0x0070000000000000) = .ok languid := by decide +kernel

theorem compile_finite_iff_languid :
    Binary64.zero.isFinite ∧ Timing.ofBeats 4 4 (.ofBits 0x0070000000000000) = .ok languid ∧
      (∃ s, Sequence.compile (c4 .whole) ⟨.zero⟩ languid default = .ok s ∧ s.Finite) ∧
      ¬∀ root voice s, root.Built → Sequence.compile root ⟨.zero⟩ languid voice = .ok s → s.Finite := by
  have hstart : (⟨.zero⟩ : Instant).seconds.isFinite := by decide
  have hpos := Timing.ofBeats_isPositive languid_eq
  have hwhole : NoteLength.whole.Valid := by decide
  have hplace : ((c4 .whole).place .zero).isOk := by decide +kernel
  obtain ⟨s, h⟩ := Sequence.exists_compile hplace ⟨.zero⟩ languid default
  obtain ⟨hiff, hall⟩ := Sequence.compile_finite_iff hstart languid_eq
  refine ⟨hstart, languid_eq, ⟨s, h, (hiff _ _ _ (.note _ hwhole) h).2 ?_⟩, ?_⟩
  · exact (Timing.instant_isFinite_iff hpos hstart hwhole).1 (by decide +kernel)
  · rw [hall, ← Timing.instant_isFinite_iff hpos hstart NoteLength.longest_valid]
    decide +kernel

/-- Two whole notes of the slow piece take longer than any finite number of seconds. -/
theorem breve_not_finite :
    (c4 .breve).Built ∧ Timing.ofBeats 4 4 (.ofBits 0x0070000000000000) = .ok languid ∧
      ∃ s, Sequence.compile (c4 .breve) ⟨.zero⟩ languid default = .ok s ∧
        (∃ e ∈ s.events, e.time.seconds.isInfinite) ∧ s.duration.seconds.isInfinite ∧
        s.endTime.seconds.isInfinite := by
  have hplace : (c4 .breve).place .zero = .ok (.breve, [⟨default, .zero, .breve⟩]) := by decide +kernel
  have hspan : (languid.span .breve).seconds.isInfinite := by decide +kernel
  have hend : (languid.instant ⟨.zero⟩ .breve).seconds.isInfinite := by decide +kernel
  refine ⟨.note _ (by decide), languid_eq, _, Sequence.compile_eq_ok.2 ⟨_, _, hplace, rfl⟩, ?_, hspan, hend⟩
  refine ⟨⟨.off, default, default, default, languid.instant ⟨.zero⟩ .breve⟩, List.mem_mergeSort.2 ?_, hend⟩
  exact List.mem_flatMap.2 ⟨_, List.mem_singleton_self _, List.mem_cons_of_mem _ (List.mem_singleton_self _)⟩

end ScoreSequencer
