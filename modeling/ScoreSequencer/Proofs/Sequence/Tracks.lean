import Mathlib
import ScoreSequencer.Proofs.Ratio.NoteLengths
import ScoreSequencer.Proofs.Sequence.Outcome
/-!
# Scores laid out as tracks

In general the walk may overflow on a score that could be built: it adds up positions
from the start of the piece, building adds up lengths from the start of each melody.
In a score laid out as tracks nothing but notes and rests comes later in a melody, so
every melody begins where the piece does. The walk then repeats the very additions by
which the score was built, and only a pitch without a key can stop it.
-/

namespace ScoreSequencer

open Check (firstFault firstFault_append)

namespace Arrangement

inductive Leaf : Arrangement → Prop
  | note (pitch : Pitch) (length : NoteLength) : Leaf (note pitch length)
  | rest (length : NoteLength) : Leaf (rest length)

/-- A leaf, a harmony of tracks, or a melody in which leaves follow a first track. -/
inductive Tracks : Arrangement → Prop
  | leaf {node : Arrangement} : node.Leaf → Tracks node
  | harmony {parts : List Arrangement} (length : NoteLength) :
      (∀ part ∈ parts, Tracks part) → Tracks (harmony parts length)
  | melody {parts : List Arrangement} (length : NoteLength) :
      (∀ part ∈ parts.head?, Tracks part) → (∀ part ∈ parts.tail, part.Leaf) → Tracks (melody parts length)

end Arrangement

/-! ## The checks that are left -/

/-- The checks that some notes have keys. -/
def keyChecks (occurrences : List Occurrence) : List Check := occurrences.map fun o => .key o.pitch

theorem keyChecks_append (first rest : List Occurrence) :
    keyChecks (first ++ rest) = keyChecks first ++ keyChecks rest :=
  List.map_append

theorem keyChecks_under (ancestor : Ancestor) (occurrences : List Occurrence) :
    keyChecks (occurrences.map (·.under ancestor)) = keyChecks occurrences :=
  List.map_map

theorem firstFault_keyChecks_eq_none {occurrences : List Occurrence} : firstFault (keyChecks occurrences) = none ↔
    ∀ o ∈ occurrences, 0 ≤ o.pitch.semitones ∧ o.pitch.semitones ≤ 127 := by
  simp [firstFault, keyChecks, List.findSome?_eq_none_iff, Check.fault?]

/-- Only a note outside the keys is reported. -/
theorem firstFault_keyChecks_ne_overflow (occurrences : List Occurrence) (operation : Operation) :
    firstFault (keyChecks occurrences) ≠ some (.overflow operation) := by
  intro h
  obtain ⟨check, hcheck, hfault⟩ := List.exists_of_findSome?_eq_some h
  obtain ⟨o, -, rfl⟩ := List.mem_map.1 hcheck
  rw [Check.fault?] at hfault
  split_ifs at hfault
  cases hfault

namespace Arrangement

variable {node : Arrangement} {parts : List Arrangement}

/-! ## The walk -/

/-- Where the end of a leaf is a position, only its pitch is checked. -/
theorem Leaf.place_fault (leaf : node.Leaf) {position next : NoteLength} (h : position.add node.length = .ok next) :
    faultOf? (node.place position) = firstFault (keyChecks node.occurrences) := by
  cases leaf with
  | note pitch length =>
    rw [place, occurrences, keyChecks, List.map_singleton, Check.firstFault_cons]
    apply faultOf?_bind (Pitch.key_fault pitch)
    intro key _
    rw [faultOf?_bind_return]
    exact faultOf?_eq_none.2 ⟨next, h⟩
  | rest length => rfl

/-- A part whose end is a position, and the parts after it. -/
theorem placeInTurn_cons_fault {part : Arrangement} {position next : NoteLength} {first rest : Option Fault}
    (hpart : faultOf? (part.place position) = first) (hnext : position.add part.length = .ok next)
    (hrest : faultOf? (placeInTurn next parts) = rest) :
    faultOf? (placeInTurn position (part :: parts)) = first.or rest := by
  rw [placeInTurn]
  apply faultOf?_bind hpart
  rintro ⟨length, notes⟩ hplace
  obtain rfl := length_of_place hplace
  dsimp only
  rw [hnext, step_of_ok, faultOf?_bind_return]
  exact hrest

/-- Leaves that follow one another are placed by the additions of their total. -/
theorem placeInTurn_leaves (hleaves : ∀ part ∈ parts, part.Leaf) {position l : NoteLength}
    (h : parts.foldlM (fun l part => l.add part.length) position = .ok l) (before : List Arrangement) :
    faultOf? (placeInTurn position parts) = firstFault (keyChecks (occurrencesInTurn before parts)) := by
  induction parts generalizing position before with
  | nil => rfl
  | cons part parts ih =>
    obtain ⟨hleaf, hrest⟩ := List.forall_mem_cons.1 hleaves
    obtain ⟨next, hnext, h⟩ := step_ok.1 h
    rw [occurrencesInTurn, keyChecks_append, keyChecks_under, firstFault_append]
    exact placeInTurn_cons_fault (hleaf.place_fault hnext) hnext (ih hrest h _)

/-- From the start of the piece, only the pitches are checked. -/
def OnlyKeysChecked (node : Arrangement) : Prop :=
  faultOf? (node.place .zero) = firstFault (keyChecks node.occurrences)

theorem placeTogether_keys (hparts : ∀ part ∈ parts, OnlyKeysChecked part) :
    faultOf? (placeTogether .zero parts) = firstFault (keyChecks (occurrencesTogether parts)) := by
  induction parts with
  | nil => rfl
  | cons part parts ih =>
    obtain ⟨hpart, hrest⟩ := List.forall_mem_cons.1 hparts
    rw [placeTogether, occurrencesTogether, keyChecks_append, keyChecks_under, firstFault_append]
    apply faultOf?_bind hpart
    intro placed _
    rw [faultOf?_bind_return]
    exact ih hrest

/-- The first part begins where the piece does, and the leaves after it are placed by
the additions of the total length. -/
theorem placeInTurn_keys (hfirst : ∀ part ∈ parts.head?, OnlyKeysChecked part)
    (hrest : ∀ part ∈ parts.tail, part.Leaf) {l : NoteLength} (h : total parts = .ok l) :
    faultOf? (placeInTurn .zero parts) = firstFault (keyChecks (occurrencesInTurn [] parts)) := by
  cases parts with
  | nil => rfl
  | cons part parts =>
    obtain ⟨next, hnext, h⟩ := step_ok.1 h
    rw [occurrencesInTurn, keyChecks_append, keyChecks_under, firstFault_append]
    exact placeInTurn_cons_fault (hfirst part rfl) hnext (placeInTurn_leaves hrest h _)

theorem Tracks.onlyKeysChecked (tracks : node.Tracks) (built : node.Built) : node.OnlyKeysChecked := by
  induction tracks with
  | leaf leaf =>
    exact leaf.place_fault (NoteLength.zero_add_ok built.length_exact.1)
  | harmony length _ ih =>
    rw [OnlyKeysChecked, place, occurrences, faultOf?_bind_return]
    exact placeTogether_keys fun part hpart => ih part hpart (built.fields.1 part hpart)
  | melody length _ hleaves ih =>
    obtain ⟨hparts, htotal⟩ := built.fields
    rw [OnlyKeysChecked, place, occurrences, faultOf?_bind_return]
    refine placeInTurn_keys (fun part hpart => ih part hpart (hparts part ?_)) hleaves htotal
    exact List.mem_of_head? hpart

end Arrangement

/-! ## Main theorem -/

namespace Sequence

variable {root : Arrangement}

/-- A score that is laid out as tracks and could be built never overflows when it is
compiled: it compiles if all its pitches have keys, and only then. -/
theorem compile_tracks (built : root.Built) (tracks : root.Tracks) (start : Instant) (timing : Timing)
    (voice : Voice) :
    (∀ operation, compile root start timing voice ≠ .error (.overflow operation)) ∧
    ((∃ s, compile root start timing voice = .ok s) ↔
      ∀ o ∈ root.occurrences, 0 ≤ o.pitch.semitones ∧ o.pitch.semitones ≤ 127) := by
  have houtcome : faultOf? (compile root start timing voice) = firstFault (keyChecks root.occurrences) :=
    (faultOf?_bind_return _).trans (tracks.onlyKeysChecked built)
  refine ⟨fun operation h => ?_, ?_⟩
  · rw [← faultOf?_eq_some, houtcome] at h
    exact firstFault_keyChecks_ne_overflow _ _ h
  · rw [← faultOf?_eq_none, houtcome]
    exact firstFault_keyChecks_eq_none

/-- A long note on the highest key. -/
def high : Arrangement := .note ⟨127, by decide⟩ ⟨⟨46350, 46351⟩⟩

/-- The lengths of `uneven`, which overflows in the walk, laid out as tracks. -/
def even : Arrangement :=
  .melody [.harmony [.melody [high, .rest ⟨⟨1, 46351⟩⟩] .whole, high] .whole, .rest ⟨⟨1, 46349⟩⟩] ⟨⟨46350, 46349⟩⟩

theorem even_built : even.Built := by
  have hhigh : high.Built := .note _ (by decide)
  have hmelody : (Arrangement.melody [high, .rest ⟨⟨1, 46351⟩⟩] .whole).Built := by
    refine .inTurn ?_ (Arrangement.inTurn_eq_ok.2 ⟨_, by decide +kernel, rfl⟩)
    exact List.forall_mem_cons.2 ⟨hhigh, List.forall_mem_singleton.2 (.rest (by decide))⟩
  have hharmony : (Arrangement.harmony [.melody [high, .rest ⟨⟨1, 46351⟩⟩] .whole, high] .whole).Built := by
    refine .together ?_ (Arrangement.together_eq_ok.2 ⟨_, by decide +kernel, rfl⟩)
    exact List.forall_mem_cons.2 ⟨hmelody, List.forall_mem_singleton.2 hhigh⟩
  refine .inTurn ?_ (Arrangement.inTurn_eq_ok.2 ⟨_, by decide +kernel, rfl⟩)
  exact List.forall_mem_cons.2 ⟨hharmony, List.forall_mem_singleton.2 (.rest (by decide))⟩

theorem even_tracks : even.Tracks := by
  have hhigh : high.Leaf := .note _ _
  refine .melody _ ?_ (List.forall_mem_singleton.2 (.rest _))
  rintro _ ⟨⟩
  refine .harmony _ (List.forall_mem_cons.2 ⟨?_, List.forall_mem_singleton.2 (.leaf hhigh)⟩)
  refine .melody _ ?_ (List.forall_mem_singleton.2 (.rest _))
  rintro _ ⟨⟩
  exact .leaf hhigh

theorem compile_tracks_even : even.Built ∧ even.Tracks ∧
    (∀ operation, compile even ⟨.zero⟩ crotchets default ≠ .error (.overflow operation)) ∧
    ∃ s, compile even ⟨.zero⟩ crotchets default = .ok s := by
  obtain ⟨hfits, hcompiles⟩ := compile_tracks even_built even_tracks ⟨.zero⟩ crotchets default
  exact ⟨even_built, even_tracks, hfits, hcompiles.2 (by decide)⟩

end Sequence

end ScoreSequencer
