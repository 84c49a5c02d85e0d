import Mathlib
import ScoreSequencer.Sequence
import ScoreSequencer.Proofs.Score.Walk
import ScoreSequencer.Proofs.Sequence.DispatchOrder
/-!
# What compiling computes

A `TimedNote` is an occurrence with its onset and release brought to instants.
Compiling an arrangement that can be built gives the stable sort of the two
events of every timed note, in the order of the walk.
-/

namespace ScoreSequencer

/-- A note in time: its key and the instants at which it begins and ends. -/
structure TimedNote where
  key : Key
  on : Instant
  off : Instant
deriving DecidableEq

/-- The events of a note, its trigger before its release. -/
def TimedNote.events (voice : Voice) (n : TimedNote) : List Event :=
  [⟨.on, voice.channel, n.key, voice.velocity, n.on⟩,
   ⟨.off, voice.channel, n.key, voice.velocity, n.off⟩]

/-- The time an exact length takes: its fraction in lowest terms is turned into a
binary64 number and scaled. -/
def Timing.spanAt (timing : Timing) (length : ℚ) : Span :=
  ⟨Binary64.ofInt length.num / Binary64.ofInt length.den * timing.secondsPerNote⟩

/-- The instant of an exact position. -/
def Timing.instantAt (timing : Timing) (start : Instant) (position : ℚ) : Instant :=
  start + timing.spanAt position

/-- An occurrence in time. A pitch outside the keys has none. -/
def Occurrence.timed? (timing : Timing) (start : Instant) (o : Occurrence) : Option TimedNote :=
  if h : 0 ≤ o.pitch.semitones ∧ o.pitch.semitones < 128 then
    some ⟨⟨o.pitch.semitones.toNat, by omega⟩, timing.instantAt start o.onset, timing.instantAt start o.release⟩
  else none

/-- The notes of an arrangement in time, in the order of the walk. -/
def Arrangement.timedNotes (root : Arrangement) (timing : Timing) (start : Instant) : List TimedNote :=
  root.occurrences.filterMap (·.timed? timing start)

/-! ## From positions to instants -/

/-- A canonical length takes the time of its value. -/
theorem Timing.span_eq {x : NoteLength} (hx : x.Valid) (timing : Timing) :
    timing.span x = timing.spanAt x.value := by
  unfold span spanAt Ratio.toBinary64 NoteLength.value
  rw [hx.canonical.num_value, hx.canonical.den_value]

theorem Timing.instant_eq {x : NoteLength} (hx : x.Valid) (timing : Timing) (start : Instant) :
    timing.instant start x = timing.instantAt start x.value := by
  rw [instant, instantAt, span_eq hx]

/-- A placed note in time. -/
def PlacedNote.timed (timing : Timing) (start : Instant) (n : PlacedNote) : TimedNote :=
  ⟨n.key, timing.instant start n.onset, timing.instant start n.release⟩

theorem Occurrence.PlacedAs.pitch_range {base : ℚ} {o : Occurrence} {n : PlacedNote} (h : o.PlacedAs base n) :
    0 ≤ o.pitch.semitones ∧ o.pitch.semitones < 128 := by
  have hkey := h.key
  have hlt := n.key.number_lt
  omega

theorem Occurrence.PlacedAs.timed_eq {o : Occurrence} {n : PlacedNote} (h : o.PlacedAs 0 n)
    (timing : Timing) (start : Instant) : o.timed? timing start = some (n.timed timing start) := by
  have hnum : o.pitch.semitones.toNat = n.key.number := by
    rw [← h.key]
    exact Int.toNat_natCast _
  have honset := h.onset
  have hrelease := h.release
  rw [zero_add] at honset hrelease
  unfold timed?
  rw [dif_pos h.pitch_range, PlacedNote.timed, Timing.instant_eq h.onset_valid, Timing.instant_eq h.release_valid,
    honset, hrelease]
  simp only [hnum]

theorem timed_of_placed {os : List Occurrence} {notes : List PlacedNote}
    (h : List.Forall₂ (Occurrence.PlacedAs 0) os notes) (timing : Timing) (start : Instant) :
    os.filterMap (·.timed? timing start) = notes.map (·.timed timing start) := by
  induction h with
  | nil => rfl
  | cons ho _ ih => rw [List.filterMap_cons, ho.timed_eq, ih, List.map_cons]

theorem pitch_range_of_placed {base : ℚ} {os : List Occurrence} {notes : List PlacedNote}
    (h : List.Forall₂ (Occurrence.PlacedAs base) os notes) :
    ∀ o ∈ os, 0 ≤ o.pitch.semitones ∧ o.pitch.semitones < 128 := by
  induction h with
  | nil => simp
  | cons ho _ ih => exact List.forall_mem_cons.2 ⟨ho.pitch_range, ih⟩

/-! ## The compiled sequence -/

namespace Sequence

variable {root : Arrangement} {start : Instant} {timing : Timing} {voice : Voice} {s : Sequence}

theorem compile_eq_ok : compile root start timing voice = .ok s ↔ ∃ length notes,
    root.place .zero = .ok (length, notes) ∧
    s = ⟨(notes.flatMap (·.events timing start voice)).mergeSort Event.notAfter, start, length,
      timing.span length⟩ := by
  unfold compile
  rw [step_ok]
  constructor
  · rintro ⟨⟨length, notes⟩, hplace, h⟩
    exact ⟨length, notes, hplace, (return_ok.1 h).symm⟩
  · rintro ⟨length, notes, hplace, rfl⟩
    exact ⟨(length, notes), hplace, rfl⟩

/-- A sequence is what is compiled if it is so in all its parts. -/
theorem compile_eq {notes : List PlacedNote} (hplace : root.place .zero = .ok (s.length, notes))
    (hsort : Event.StableSort (notes.flatMap (·.events timing s.start voice)) s.events)
    (hduration : s.duration = timing.span s.length) : compile root s.start timing voice = .ok s := by
  refine compile_eq_ok.2 ⟨s.length, notes, hplace, ?_⟩
  rw [← Event.stableSort_iff.1 hsort, ← hduration]

theorem exists_compile (h : (root.place .zero).isOk) (start : Instant) (timing : Timing) (voice : Voice) :
    ∃ s, compile root start timing voice = .ok s := by
  cases hplace : root.place .zero with
  | error fault => simp [hplace, Except.isOk, Except.toBool] at h
  | ok placed => exact ⟨_, compile_eq_ok.2 ⟨placed.1, placed.2, hplace, rfl⟩⟩

/-- Every event of a compiled sequence is on the channel of the voice. -/
theorem channel_of_compile (h : compile root start timing voice = .ok s) :
    ∀ e ∈ s.events, e.channel = voice.channel := by
  obtain ⟨length, notes, -, rfl⟩ := compile_eq_ok.1 h
  intro e he
  obtain ⟨n, -, hn⟩ := List.mem_flatMap.1 (List.mem_mergeSort.1 he)
  simp only [PlacedNote.events, List.mem_cons, List.not_mem_nil, or_false] at hn
  rcases hn with rfl | rfl <;> rfl

/-- What is known of the sequence of an arrangement that can be built. -/
structure Compiled (root : Arrangement) (start : Instant) (timing : Timing) (voice : Voice) (s : Sequence) :
    Prop where
  sorted : Event.StableSort ((root.timedNotes timing start).flatMap (·.events voice)) s.events
  placed : ∃ notes, List.Forall₂ (Occurrence.PlacedAs 0) root.occurrences notes ∧
    root.timedNotes timing start = notes.map (·.timed timing start)
  start_eq : s.start = start
  length_eq : s.length = root.length
  duration_eq : s.duration = timing.span root.length

theorem compiled (built : root.Built) (h : compile root start timing voice = .ok s) :
    Compiled root start timing voice s := by
  obtain ⟨length, notes, hplace, rfl⟩ := compile_eq_ok.1 h
  obtain ⟨rfl, hwalk⟩ := built.walk_exact NoteLength.zero_valid hplace
  rw [NoteLength.zero_value] at hwalk
  have htimed := timed_of_placed hwalk timing start
  refine ⟨?_, ⟨notes, hwalk, htimed⟩, rfl, rfl, rfl⟩
  rw [Arrangement.timedNotes, htimed, List.flatMap_map]
  exact Event.mergeSort_stableSort _

theorem length_timedNotes (h : Compiled root start timing voice s) :
    (root.timedNotes timing start).length = root.noteCount := by
  obtain ⟨notes, hplaced, htimed⟩ := h.placed
  rw [htimed, List.length_map, ← hplaced.length_eq, Arrangement.length_occurrences]

theorem length_events (voice : Voice) (notes : List TimedNote) :
    (notes.flatMap (·.events voice)).length = 2 * notes.length := by
  induction notes with
  | nil => rfl
  | cons n notes ih =>
    rw [List.flatMap_cons, List.length_append, ih, List.length_cons, Nat.mul_succ, Nat.add_comm]
    rfl

/-! ## Main theorem -/

/-- A compiled sequence is the stable sort of the walk, and of nothing else: the
trigger and release of every note at its exact onset and release. No note is
left out or without a key, so there are two events a note, and the sequence
lasts as long as the arrangement's exact length. -/
theorem compile_sorts_walk (built : root.Built) (h : compile root start timing voice = .ok s) :
    (∀ events, Event.StableSort ((root.timedNotes timing start).flatMap (·.events voice)) events ↔
      events = s.events) ∧
    (∀ o ∈ root.occurrences, 0 ≤ o.pitch.semitones ∧ o.pitch.semitones < 128) ∧
    (root.timedNotes timing start).length = root.noteCount ∧
    s.events.length = 2 * root.noteCount ∧
    s.start = start ∧ s.duration = timing.span root.length ∧ s.duration = timing.spanAt root.extent := by
  have hc := compiled built h
  have hlen := length_timedNotes hc
  obtain ⟨notes, hplaced, -⟩ := hc.placed
  obtain ⟨hvalid, hextent⟩ := built.length_exact
  refine ⟨fun events => ?_, pitch_range_of_placed hplaced, hlen, ?_, hc.start_eq, hc.duration_eq, ?_⟩
  · rw [Event.stableSort_iff, ← Event.stableSort_iff.1 hc.sorted]
  · rw [hc.sorted.perm.length_eq, length_events, hlen]
  · rw [hc.duration_eq, Timing.span_eq hvalid, hextent]

end Sequence

/-! ## Two notes that touch -/

/-- A quarter takes one second. -/
def crotchets : Timing := ⟨.common, ⟨.ofNat 60⟩, .ofNat 4⟩

theorem crotchets_eq : Timing.ofBeats 4 4 (.ofNat 60) = .ok crotchets := by decide +kernel

/-- A note on middle C. -/
def c4 (length : NoteLength) : Arrangement := .note ⟨60, by decide⟩ length

/-- A note and, in a part of its own, another on the same key that begins where it ends. -/
def touching : Arrangement := .harmony [.melody [.rest .quarter, c4 .quarter] .half, c4 .quarter] .half

theorem quarter_valid : NoteLength.quarter.Valid := by decide

theorem touching_built : touching.Built := by
  have hnote : (c4 .quarter).Built := .note _ quarter_valid
  have hmelody : (Arrangement.melody [.rest .quarter, c4 .quarter] .half).Built := by
    refine .inTurn ?_ (Arrangement.inTurn_eq_ok.2 ⟨_, by decide +kernel, rfl⟩)
    exact List.forall_mem_cons.2 ⟨.rest quarter_valid, List.forall_mem_singleton.2 hnote⟩
  refine .together ?_ (Arrangement.together_eq_ok.2 ⟨_, by decide +kernel, rfl⟩)
  exact List.forall_mem_cons.2 ⟨hmelody, List.forall_mem_singleton.2 hnote⟩

/-- The first note is released before the second one is triggered. -/
def touchingSequence : Sequence where
  events := [⟨.on, default, default, default, ⟨.zero⟩⟩, ⟨.off, default, default, default, ⟨.ofNat 1⟩⟩,
    ⟨.on, default, default, default, ⟨.ofNat 1⟩⟩, ⟨.off, default, default, default, ⟨.ofNat 2⟩⟩]
  start := ⟨.zero⟩
  length := .half
  duration := ⟨.ofNat 2⟩

theorem touching_compiles : Sequence.compile touching ⟨.zero⟩ crotchets default = .ok touchingSequence := by
  have hplace : touching.place .zero = .ok (.half, [⟨default, .quarter, .half⟩, ⟨default, .zero, .quarter⟩]) := by
    decide +kernel
  exact Sequence.compile_eq (s := touchingSequence) hplace (by decide +kernel) (by decide +kernel)

/-- The walk comes to the later note first. -/
theorem touching_timedNotes : touching.timedNotes crotchets ⟨.zero⟩ =
    [⟨default, ⟨.ofNat 1⟩, ⟨.ofNat 2⟩⟩, ⟨default, ⟨.zero⟩, ⟨.ofNat 1⟩⟩] := by
  decide +kernel

theorem compile_sorts_walk_touching :
    touching.Built ∧ Sequence.compile touching ⟨.zero⟩ crotchets default = .ok touchingSequence ∧
      (∀ events, Event.StableSort ((touching.timedNotes crotchets ⟨.zero⟩).flatMap (·.events default)) events ↔
        events = touchingSequence.events) ∧
      touchingSequence.events.length = 2 * touching.noteCount := by
  obtain ⟨hsort, -, -, hlen, -⟩ := Sequence.compile_sorts_walk touching_built touching_compiles
  exact ⟨touching_built, touching_compiles, hsort, hlen⟩

/-! ## A note on its own -/

/-- Middle C for a quarter. -/
def crotchetSequence : Sequence where
  events := [⟨.on, default, default, default, ⟨.zero⟩⟩, ⟨.off, default, default, default, ⟨.ofNat 1⟩⟩]
  start := ⟨.zero⟩
  length := .quarter
  duration := ⟨.ofNat 1⟩

theorem crotchet_compiles : Sequence.compile (c4 .quarter) ⟨.zero⟩ crotchets default = .ok crotchetSequence := by
  have hplace : (c4 .quarter).place .zero = .ok (.quarter, [⟨default, .zero, .quarter⟩]) := by decide +kernel
  exact Sequence.compile_eq (s := crotchetSequence) hplace (by decide +kernel) (by decide +kernel)

end ScoreSequencer
