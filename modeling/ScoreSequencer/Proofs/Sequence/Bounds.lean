import Mathlib
import ScoreSequencer.Proofs.Score.Slot
import ScoreSequencer.Proofs.Sequence.Instants
/-!
# Events between the start and the end

The walk keeps every note in the slot of the piece, and bringing positions to
instants keeps their order, so no event of a compiled sequence comes before the
start or after the end time.
-/

namespace ScoreSequencer

namespace Timing

variable {timing : Timing} {start : Instant} {x y : NoteLength}

/-- The instant of a position is a number, and it does not come before a finite start. -/
theorem start_le_instant (hpos : timing.secondsPerNote.isPositive) (hstart : start.seconds.isFinite)
    (hx : x.Valid) : start.seconds.le (timing.instant start x).seconds := by
  have hspan := span_nonneg hpos hx
  have hinstant : (timing.instant start x).seconds.isNaN = false :=
    Binary64.add_isNaN hstart (Binary64.isNaN_eq_false.2 hspan.number)
  exact Binary64.le_of_rank (Binary64.isNaN_of_isFinite hstart) hinstant (Binary64.rank_le_add hstart hspan)

theorem instant_le_instant (hpos : timing.secondsPerNote.isPositive) (hstart : start.seconds.isFinite)
    (hx : x.Valid) (hy : y.Valid) (h : x.value ≤ y.value) :
    (timing.instant start x).seconds.le (timing.instant start y).seconds := by
  have hnumber : ∀ {z : NoteLength}, z.Valid → (timing.instant start z).seconds.isNaN = false := fun hz =>
    Binary64.add_isNaN hstart (Binary64.isNaN_eq_false.2 (span_nonneg hpos hz).number)
  exact Binary64.le_of_rank (hnumber hx) (hnumber hy) (Instant.not_before_iff.1 (instant_mono hpos hstart hx hy h))

end Timing

namespace Sequence

variable {root : Arrangement} {start : Instant} {timing : Timing} {voice : Voice} {s : Sequence}

/-- Every event is at the instant of a position in the slot of the piece. -/
theorem Compiled.exists_position (hc : Compiled root start timing voice s) (built : root.Built) :
    ∀ e ∈ s.events, ∃ x : NoteLength, x.Valid ∧ x.value ≤ root.length.value ∧ e.time = timing.instant start x := by
  obtain ⟨notes, hplaced, htimed⟩ := hc.placed
  obtain ⟨-, hextent⟩ := built.length_exact
  intro e he
  obtain ⟨n, hn, hen⟩ := List.mem_flatMap.1 (hc.sorted.perm.subset he)
  rw [htimed] at hn
  obtain ⟨p, hp, rfl⟩ := List.mem_map.1 hn
  obtain ⟨o, ho, hop⟩ := exists_of_placed hplaced p hp
  obtain ⟨-, honset, hrelease⟩ := built.contained o ho
  simp only [TimedNote.events, List.mem_cons, List.not_mem_nil, or_false] at hen
  rcases hen with rfl | rfl
  · exact ⟨p.onset, hop.onset_valid, by rw [hop.onset, hextent]; linarith, rfl⟩
  · exact ⟨p.release, hop.release_valid, by rw [hop.release, hextent]; linarith, rfl⟩

theorem Compiled.endTime_eq (hc : Compiled root start timing voice s) :
    s.endTime = timing.instant start root.length := by
  rw [endTime, hc.start_eq, hc.duration_eq, Timing.instant]

/-- No event of a compiled sequence comes after its end. -/
theorem Compiled.le_endTime (hc : Compiled root start timing voice s) (built : root.Built)
    (hpos : timing.secondsPerNote.isPositive) (hstart : start.seconds.isFinite) :
    ∀ e ∈ s.events, e.time.seconds.le s.endTime.seconds := by
  intro e he
  obtain ⟨x, hx, hle, htime⟩ := hc.exists_position built e he
  rw [htime, hc.endTime_eq]
  exact Timing.instant_le_instant hpos hstart hx built.length_exact.1 hle

/-! ## Main theorem -/

/-- An arrangement stays inside its slot wherever the walk meets it; and from a
finite start, with an accepted timing, all events of the compiled sequence are
between the start and the end time. -/
theorem compile_in_slot (built : root.Built) :
    (∀ position length notes, position.Valid → root.place position = .ok (length, notes) →
      root.InSlot position length notes) ∧
    ∀ start timing voice s beatsPerMeasure beatsPerNote beatsPerMinute, start.seconds.isFinite →
      Timing.ofBeats beatsPerMeasure beatsPerNote beatsPerMinute = .ok timing →
      compile root start timing voice = .ok s →
      ∀ e ∈ s.events, start.seconds.le e.time.seconds ∧ e.time.seconds.le s.endTime.seconds := by
  refine ⟨fun _ _ _ hp h => built.in_slot hp h, ?_⟩
  intro start timing voice s _ _ _ hstart htiming h e he
  have hpos := Timing.ofBeats_isPositive htiming
  have hc := compiled built h
  refine ⟨?_, hc.le_endTime built hpos hstart e he⟩
  obtain ⟨x, hx, -, htime⟩ := hc.exists_position built e he
  rw [htime]
  exact Timing.start_le_instant hpos hstart hx

theorem compile_in_slot_touching :
    touching.Built ∧ touching.InSlot .quarter .half [⟨default, .half, ⟨⟨3, 4⟩⟩⟩, ⟨default, .quarter, .half⟩] ∧
      compile touching ⟨.zero⟩ crotchets default = .ok touchingSequence ∧
      ∀ e ∈ touchingSequence.events,
        Binary64.zero.le e.time.seconds ∧ e.time.seconds.le touchingSequence.endTime.seconds := by
  have hplace : touching.place .quarter =
      .ok (.half, [⟨default, .half, ⟨⟨3, 4⟩⟩⟩, ⟨default, .quarter, .half⟩]) := by
    decide +kernel
  obtain ⟨hslot, hbounds⟩ := compile_in_slot touching_built
  exact ⟨touching_built, hslot _ _ _ quarter_valid hplace, touching_compiles,
    hbounds _ _ _ _ _ _ _ (by decide) crotchets_eq touching_compiles⟩

end Sequence

end ScoreSequencer
