import Mathlib
import ScoreSequencer.Proofs.Score.Context
import ScoreSequencer.Proofs.Score.Music
import ScoreSequencer.Proofs.Sequence.Compilation
/-!
# Regrouping does not change the sequence

A melody within a melody may as well be written out, and so may a harmony within a
harmony; and a node is as good as the composite of it alone. The lengths stored on
the way differ, and sums are taken in another order, so the one tree may overflow
where the other does not. But where both can be built and compiled, the positions
are the same exact numbers in lowest terms, and the sequences are equal.
-/

namespace ScoreSequencer

namespace Arrangement

/-- One change of the grouping, anywhere in a score. The lengths stored in the
composites are left open: of those, at most one can be built. -/
inductive Regrouping : Arrangement → Arrangement → Prop
  | melody (before parts after : List Arrangement) (inner outer outer' : NoteLength) :
      Regrouping (.melody (before ++ .melody parts inner :: after) outer) (.melody (before ++ parts ++ after) outer')
  | harmony (before parts after : List Arrangement) (inner outer outer' : NoteLength) :
      Regrouping (.harmony (before ++ .harmony parts inner :: after) outer) (.harmony (before ++ parts ++ after) outer')
  | melody_of_one (node : Arrangement) (outer : NoteLength) : Regrouping node (.melody [node] outer)
  | harmony_of_one (node : Arrangement) (outer : NoteLength) : Regrouping node (.harmony [node] outer)
  | within (frame : Frame) {x y : Arrangement} (outer outer' : NoteLength) :
      Regrouping x y → Regrouping (frame.composite x outer) (frame.composite y outer')

/-- Any number of changes of the grouping, either way. -/
def Regrouped : Arrangement → Arrangement → Prop := Relation.EqvGen Regrouping

variable {x y : Arrangement}

theorem music_composite (h : x.music = y.music) (frame : Frame) (outer outer' : NoteLength) :
    (frame.composite x outer).music = (frame.composite y outer').music := by
  cases frame with
  | harmony before after => simp only [Frame.composite, music_harmony, List.map_append, List.map_cons, h]
  | melody before after => simp only [Frame.composite, music_melody, List.map_append, List.map_cons, h]

theorem Regrouping.music_eq (h : Regrouping x y) : x.music = y.music := by
  induction h with
  | melody before parts after inner outer outer' =>
    simp only [music_melody, List.map_append, List.map_cons]
    exact Music.foldr_group _ _ _ _
  | harmony before parts after inner outer outer' =>
    simp only [music_harmony, List.map_append, List.map_cons]
    exact Music.foldr_group _ _ _ _
  | melody_of_one node outer =>
    rw [music_melody]
    exact (Std.LawfulRightIdentity.right_id node.music).symm
  | harmony_of_one node outer =>
    rw [music_harmony]
    exact (Std.LawfulRightIdentity.right_id node.music).symm
  | within frame outer outer' _ ih => exact music_composite ih frame outer outer'

theorem Regrouped.music_eq (h : Regrouped x y) : x.music = y.music := by
  induction h with
  | rel _ _ h => exact h.music_eq
  | refl _ => rfl
  | symm _ _ _ ih => exact ih.symm
  | trans _ _ _ _ _ ih ih' => exact ih.trans ih'

/-! ## Arrangements with the same music -/

/-- Arrangements of the same music that can be built store the same length. -/
theorem Built.length_eq_of_music (hx : x.Built) (hy : y.Built) (h : x.music = y.music) : x.length = y.length := by
  obtain ⟨hvalid, hextent⟩ := hx.length_exact
  obtain ⟨hvalid', hextent'⟩ := hy.length_exact
  refine hvalid.eq_of_value hvalid' ?_
  rw [hextent, hextent', ← hx.extent_music, ← hy.extent_music, h]

end Arrangement

/-- A note in time is decided by its sounding: the ancestors matter no further. -/
theorem Occurrence.timed?_factors (timing : Timing) (start : Instant) :
    (Occurrence.timed? timing start).FactorsThrough Occurrence.sounding := by
  intro o o' h
  obtain ⟨hpitch, honset, hrelease⟩ := Sounding.mk.inj h
  simp only [timed?, hpitch, honset, hrelease]

theorem Arrangement.timedNotes_congr {x y : Arrangement}
    (h : x.occurrences.map Occurrence.sounding = y.occurrences.map Occurrence.sounding) (timing : Timing)
    (start : Instant) : x.timedNotes timing start = y.timedNotes timing start := by
  obtain ⟨timed, htimed⟩ := (Function.factorsThrough_iff _).1 (Occurrence.timed?_factors timing start)
  have hsoundings : ∀ node : Arrangement,
      node.timedNotes timing start = (node.occurrences.map Occurrence.sounding).filterMap timed := by
    intro node
    rw [timedNotes, htimed, List.filterMap_map]
  rw [hsoundings x, hsoundings y, h]

attribute [ext] Sequence

namespace Sequence

variable {x y : Arrangement} {start : Instant} {timing : Timing} {voice : Voice} {s t : Sequence}

theorem compile_eq_of_music (hx : x.Built) (hy : y.Built) (h : x.music = y.music)
    (hs : compile x start timing voice = .ok s) (ht : compile y start timing voice = .ok t) : s = t := by
  have hcx := compiled hx hs
  have hcy := compiled hy ht
  have hlength := hx.length_eq_of_music hy h
  have hnotes : x.timedNotes timing start = y.timedNotes timing start := by
    refine Arrangement.timedNotes_congr ?_ timing start
    rw [hx.soundings_music, hy.soundings_music, h]
  have hevents : s.events = t.events := by
    rw [Event.stableSort_iff.1 hcx.sorted, Event.stableSort_iff.1 hcy.sorted, hnotes]
  rw [Sequence.ext_iff]
  refine ⟨hevents, ?_, ?_, ?_⟩
  · rw [hcx.start_eq, hcy.start_eq]
  · rw [hcx.length_eq, hcy.length_eq, hlength]
  · rw [hcx.duration_eq, hcy.duration_eq, hlength]

/-! ## Main theorem -/

/-- Scores that differ only in their grouping compile to the same sequence. -/
theorem compile_regrouped (hx : x.Built) (hy : y.Built) (h : x.Regrouped y)
    (hs : compile x start timing voice = .ok s) (ht : compile y start timing voice = .ok t) : s = t :=
  compile_eq_of_music hx hy h.music_eq hs ht

end Sequence

/-! ## A triplet -/

/-- A note that takes a third of a quarter. -/
def third : Arrangement := c4 ⟨⟨1, 12⟩⟩

/-- A triplet with its last two notes grouped. -/
def triplet : Arrangement := .melody [third, .melody [third, third] ⟨⟨1, 6⟩⟩] .quarter

/-- The triplet written out, in a harmony of its own. -/
def writtenTriplet : Arrangement := .harmony [.melody [third, third, third] .quarter] .quarter

theorem triplet_regrouped : triplet.Regrouped writtenTriplet :=
  .trans _ _ _ (.rel _ _ (.melody [third] [third, third] [] _ _ .quarter)) (.rel _ _ (.harmony_of_one _ _))

theorem third_built : third.Built := .note _ (by decide)

theorem triplet_built : triplet.Built := by
  have hgroup : (Arrangement.melody [third, third] ⟨⟨1, 6⟩⟩).Built := by
    refine .inTurn ?_ (Arrangement.inTurn_eq_ok.2 ⟨_, by decide +kernel, rfl⟩)
    simp [third_built]
  refine .inTurn ?_ (Arrangement.inTurn_eq_ok.2 ⟨_, by decide +kernel, rfl⟩)
  simp [third_built, hgroup]

theorem writtenTriplet_built : writtenTriplet.Built := by
  have hmelody : (Arrangement.melody [third, third, third] .quarter).Built := by
    refine .inTurn ?_ (Arrangement.inTurn_eq_ok.2 ⟨_, by decide +kernel, rfl⟩)
    simp [third_built]
  refine .together ?_ (Arrangement.together_eq_ok.2 ⟨_, by decide +kernel, rfl⟩)
  simp [hmelody]

def tripletSequence : Sequence where
  events := [⟨.on, default, default, default, ⟨.zero⟩⟩, ⟨.off, default, default, default, ⟨.ofNat 1 / .ofNat 3⟩⟩,
    ⟨.on, default, default, default, ⟨.ofNat 1 / .ofNat 3⟩⟩, ⟨.off, default, default, default, ⟨.ofNat 2 / .ofNat 3⟩⟩,
    ⟨.on, default, default, default, ⟨.ofNat 2 / .ofNat 3⟩⟩, ⟨.off, default, default, default, ⟨.ofNat 1⟩⟩]
  start := ⟨.zero⟩
  length := .quarter
  duration := ⟨.ofNat 1⟩

theorem triplet_compiles : Sequence.compile triplet ⟨.zero⟩ crotchets default = .ok tripletSequence := by
  have hplace : triplet.place .zero = .ok (.quarter,
      [⟨default, .zero, ⟨⟨1, 12⟩⟩⟩, ⟨default, ⟨⟨1, 12⟩⟩, ⟨⟨1, 6⟩⟩⟩, ⟨default, ⟨⟨1, 6⟩⟩, .quarter⟩]) := by
    decide +kernel
  exact Sequence.compile_eq (s := tripletSequence) hplace (by decide +kernel) (by decide +kernel)

theorem compile_regrouped_triplet : Sequence.compile triplet ⟨.zero⟩ crotchets default = .ok tripletSequence ∧
    Sequence.compile writtenTriplet ⟨.zero⟩ crotchets default = .ok tripletSequence := by
  obtain ⟨t, ht⟩ : ∃ t, Sequence.compile writtenTriplet ⟨.zero⟩ crotchets default = .ok t :=
    Sequence.exists_compile (by decide +kernel) _ _ _
  obtain rfl := Sequence.compile_regrouped triplet_built writtenTriplet_built triplet_regrouped triplet_compiles ht
  exact ⟨triplet_compiles, ht⟩

end ScoreSequencer
