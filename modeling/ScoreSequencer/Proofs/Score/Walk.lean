import Mathlib
import ScoreSequencer.Placement
import ScoreSequencer.Proofs.Score.Extent
/-!
# The walk places every note where it occurs

An `Occurrence` is a note of an arrangement together with the composites above
it. Its onset is a sum over these: a melody delays the branch by the extents of
the parts before it, a harmony not at all. No position is threaded and nothing
is rounded or bounded. `Built.walk_exact` says that the notes `place` answers
are the occurrences in order, each at exactly its onset.
-/

namespace ScoreSequencer

/-- A composite above a note, as seen from the branch that holds the note. -/
inductive Ancestor where
  | harmony
  /-- The parts stand before the branch. -/
  | melody (before : List Arrangement)

/-- How much later than the composite the branch begins. -/
def Ancestor.delay : Ancestor → ℚ
  | harmony => 0
  | melody before => (before.map Arrangement.extent).sum

/-- A note of an arrangement with the composites above it, the outermost first. -/
structure Occurrence where
  ancestors : List Ancestor
  pitch : Pitch
  length : NoteLength

namespace Occurrence

/-- The same note, seen from one composite further up. -/
def under (ancestor : Ancestor) (o : Occurrence) : Occurrence :=
  { o with ancestors := ancestor :: o.ancestors }

/-- Where the note begins, in whole notes from the start of the arrangement. -/
def onset (o : Occurrence) : ℚ := (o.ancestors.map Ancestor.delay).sum

/-- Where the note ends. -/
def release (o : Occurrence) : ℚ := o.onset + o.length.value

theorem onset_under (ancestor : Ancestor) (o : Occurrence) :
    (o.under ancestor).onset = ancestor.delay + o.onset := rfl

theorem release_under (ancestor : Ancestor) (o : Occurrence) :
    (o.under ancestor).release = ancestor.delay + o.release :=
  add_assoc ancestor.delay o.onset o.length.value

end Occurrence

namespace Arrangement

mutual
/-- The notes of an arrangement, depth first and from left to right. -/
def occurrences : Arrangement → List Occurrence
  | note pitch length => [⟨[], pitch, length⟩]
  | rest _ => []
  | harmony parts _ => occurrencesTogether parts
  | melody parts _ => occurrencesInTurn [] parts

/-- The notes of the parts of a harmony. -/
def occurrencesTogether : List Arrangement → List Occurrence
  | [] => []
  | part :: parts => (occurrences part).map (·.under .harmony) ++ occurrencesTogether parts

/-- The notes of the parts of a melody that follow some others. -/
def occurrencesInTurn (before : List Arrangement) : List Arrangement → List Occurrence
  | [] => []
  | part :: parts =>
    (occurrences part).map (·.under (.melody before)) ++ occurrencesInTurn (before ++ [part]) parts
end

mutual
theorem length_occurrences : ∀ node : Arrangement, node.occurrences.length = node.noteCount
  | note _ _ => rfl
  | rest _ => rfl
  | harmony parts _ => length_occurrencesTogether parts
  | melody parts _ => length_occurrencesInTurn [] parts

theorem length_occurrencesTogether :
    ∀ parts : List Arrangement, (occurrencesTogether parts).length = noteCountAll parts
  | [] => rfl
  | part :: parts => by
    rw [occurrencesTogether, List.length_append, List.length_map, length_occurrences part,
      length_occurrencesTogether parts, noteCountAll]

theorem length_occurrencesInTurn (before : List Arrangement) :
    ∀ parts : List Arrangement, (occurrencesInTurn before parts).length = noteCountAll parts
  | [] => rfl
  | part :: parts => by
    rw [occurrencesInTurn, List.length_append, List.length_map, length_occurrences part,
      length_occurrencesInTurn _ parts, noteCountAll]
end

end Arrangement

/-! ## Placing an occurrence -/

/-- In a piece that begins at `start`, the placed note is the occurrence. -/
structure Occurrence.PlacedAs (start : ℚ) (o : Occurrence) (n : PlacedNote) : Prop where
  key : (n.key.number : Int) = o.pitch.semitones
  length_nonneg : 0 ≤ o.length.value
  onset_valid : n.onset.Valid
  onset : n.onset.value = start + o.onset
  release_valid : n.release.Valid
  release : n.release.value = start + o.release

theorem Occurrence.PlacedAs.under {start base : ℚ} {ancestor : Ancestor} {o : Occurrence} {n : PlacedNote}
    (h : o.PlacedAs start n) (hstart : start = base + ancestor.delay) : (o.under ancestor).PlacedAs base n where
  key := h.key
  length_nonneg := h.length_nonneg
  onset_valid := h.onset_valid
  onset := by rw [h.onset, Occurrence.onset_under, hstart, add_assoc]
  release_valid := h.release_valid
  release := by rw [h.release, Occurrence.release_under, hstart, add_assoc]

theorem Occurrence.PlacedAs.onset_le_release {start : ℚ} {o : Occurrence} {n : PlacedNote}
    (h : o.PlacedAs start n) : n.onset.value ≤ n.release.value := by
  have hlen := h.length_nonneg
  rw [h.onset, h.release, Occurrence.release]
  linarith

/-- Every placed note is some occurrence in its place. -/
theorem exists_of_placed {base : ℚ} {os : List Occurrence} {notes : List PlacedNote}
    (h : List.Forall₂ (Occurrence.PlacedAs base) os notes) : ∀ n ∈ notes, ∃ o ∈ os, o.PlacedAs base n := by
  induction h with
  | nil => simp
  | @cons o n os notes ho _ ih =>
    intro m hm
    rcases List.mem_cons.1 hm with rfl | hm
    · exact ⟨o, List.mem_cons_self, ho⟩
    · obtain ⟨p, hp, hpm⟩ := ih m hm
      exact ⟨p, List.mem_cons_of_mem _ hp, hpm⟩

theorem Pitch.number_key {p : Pitch} {k : Key} (h : p.key = .ok k) : (k.number : Int) = p.semitones := by
  unfold Pitch.key at h
  split at h
  · cases h
    simp only
    omega
  · cases h

namespace Arrangement

/-- Wherever the walk of an arrangement begins, it answers the stored length and
the occurrences, each in its place. -/
def Walked (node : Arrangement) : Prop :=
  ∀ {position : NoteLength} {length notes}, position.Valid → node.place position = .ok (length, notes) →
    length = node.length ∧ List.Forall₂ (Occurrence.PlacedAs position.value) node.occurrences notes

/-- A walk of a part is a walk of the composite, as far as the part goes. -/
theorem walked_under {base start : ℚ} {ancestor : Ancestor} {os : List Occurrence} {notes : List PlacedNote}
    (hstart : start = base + ancestor.delay) (h : List.Forall₂ (Occurrence.PlacedAs start) os notes) :
    List.Forall₂ (Occurrence.PlacedAs base) (os.map (·.under ancestor)) notes :=
  List.forall₂_map_left_iff.2 (h.imp fun _ _ ho => ho.under hstart)

theorem placeTogether_walked {parts : List Arrangement} (hparts : ∀ part ∈ parts, Walked part)
    {position : NoteLength} (hp : position.Valid) {notes : List PlacedNote}
    (h : placeTogether position parts = .ok notes) :
    List.Forall₂ (Occurrence.PlacedAs position.value) (occurrencesTogether parts) notes := by
  induction parts generalizing notes with
  | nil =>
    cases return_ok.1 h
    exact .nil
  | cons part parts ih =>
    obtain ⟨⟨length, first⟩, hfirst, h⟩ := step_ok.1 h
    obtain ⟨rest, hrest, h⟩ := step_ok.1 h
    cases return_ok.1 h
    have hwalk := (hparts part List.mem_cons_self hp hfirst).2
    exact List.rel_append (walked_under (by simp [Ancestor.delay]) hwalk)
      (ih (fun p hp => hparts p (List.mem_cons_of_mem _ hp)) hrest)

/-- The position reached is the base plus the extents of the parts before. -/
theorem placeInTurn_walked {parts : List Arrangement} (hparts : ∀ part ∈ parts, Walked part ∧ LengthExact part)
    {base : ℚ} {before : List Arrangement} {position : NoteLength} (hp : position.Valid)
    (hpos : position.value = base + (before.map extent).sum) {notes : List PlacedNote}
    (h : placeInTurn position parts = .ok notes) :
    List.Forall₂ (Occurrence.PlacedAs base) (occurrencesInTurn before parts) notes := by
  induction parts generalizing before position notes with
  | nil =>
    cases return_ok.1 h
    exact .nil
  | cons part parts ih =>
    obtain ⟨⟨length, first⟩, hfirst, h⟩ := step_ok.1 h
    obtain ⟨next, hnext, h⟩ := step_ok.1 h
    obtain ⟨rest, hrest, h⟩ := step_ok.1 h
    cases return_ok.1 h
    -- The part answers its stored length, which is its extent, so the next part begins after it.
    obtain ⟨hwalked, hlen, hext⟩ := hparts part List.mem_cons_self
    obtain ⟨rfl, hwalk⟩ := hwalked hp hfirst
    obtain ⟨hvalid, hval⟩ := NoteLength.add_exact hp hlen hnext
    have hparts' : ∀ p ∈ parts, Walked p ∧ LengthExact p := fun p hp => hparts p (List.mem_cons_of_mem _ hp)
    refine List.rel_append (walked_under hpos hwalk) (ih hparts' hvalid ?_ hrest)
    rw [hval, hpos, hext, List.map_append, List.sum_append, List.map_singleton, List.sum_singleton, add_assoc]

/-- Every arrangement that can be built is walked exactly. -/
theorem Built.walk_exact {node : Arrangement} (built : node.Built) : node.Walked := by
  induction built with
  | note pitch hlen =>
    intro position length notes hp h
    obtain ⟨key, hkey, h⟩ := step_ok.1 h
    obtain ⟨release, hrelease, h⟩ := step_ok.1 h
    cases return_ok.1 h
    obtain ⟨hvalid, hval⟩ := NoteLength.add_exact hp hlen hrelease
    refine ⟨rfl, .cons ⟨Pitch.number_key hkey, hlen.value_nonneg, hp, ?_, hvalid, ?_⟩ .nil⟩
    · simp [Occurrence.onset]
    · simp [Occurrence.release, Occurrence.onset, hval]
  | rest hlen =>
    intro position length notes hp h
    cases return_ok.1 h
    exact ⟨rfl, .nil⟩
  | together _ hok ih =>
    intro position length notes hp h
    obtain ⟨_, _, rfl⟩ := together_eq_ok.1 hok
    obtain ⟨ns, hns, h⟩ := step_ok.1 h
    cases return_ok.1 h
    exact ⟨rfl, placeTogether_walked ih hp hns⟩
  | inTurn hparts hok ih =>
    intro position length notes hp h
    obtain ⟨_, _, rfl⟩ := inTurn_eq_ok.1 hok
    obtain ⟨ns, hns, h⟩ := step_ok.1 h
    cases return_ok.1 h
    refine ⟨rfl, placeInTurn_walked (fun part hpart => ?_) hp (by simp) hns⟩
    exact ⟨ih part hpart, (hparts part hpart).length_exact⟩

end Arrangement

end ScoreSequencer
