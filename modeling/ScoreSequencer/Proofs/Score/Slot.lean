import Mathlib
import ScoreSequencer.Proofs.Score.Walk
/-!
# An arrangement stays inside its slot

The walk never compares what the parts of a composite take up with the length
stored for it. It need not: the slot that begins where the arrangement does and is
as long as its stored length holds every note (`Built.in_slot`), the parts of a
melody fill it exactly, and no part of a harmony is longer.
-/

namespace ScoreSequencer

/-! ## Notes inside a stretch -/

/-- The note begins and ends between two positions. -/
structure Occurrence.Within (first last : ℚ) (o : Occurrence) : Prop where
  first_le : first ≤ o.onset
  onset_le : o.onset ≤ o.release
  release_le : o.release ≤ last

namespace Occurrence.Within

variable {first last : ℚ} {o : Occurrence}

theorem under (h : o.Within first last) (ancestor : Ancestor) :
    (o.under ancestor).Within (ancestor.delay + first) (ancestor.delay + last) where
  first_le := by rw [onset_under]; linarith [h.first_le]
  onset_le := by rw [onset_under, release_under]; linarith [h.onset_le]
  release_le := by rw [release_under]; linarith [h.release_le]

theorem mono (h : o.Within first last) {first' last' : ℚ} (hfirst : first' ≤ first) (hlast : last ≤ last') :
    o.Within first' last' :=
  ⟨hfirst.trans h.first_le, h.onset_le, h.release_le.trans hlast⟩

end Occurrence.Within

namespace Arrangement

theorem extent_le_extentTogether {part : Arrangement} {parts : List Arrangement} (h : part ∈ parts) :
    part.extent ≤ extentTogether parts := by
  induction parts with
  | nil => cases h
  | cons first parts ih =>
    rw [extentTogether]
    rcases List.mem_cons.1 h with rfl | h
    · exact le_max_left _ _
    · exact (ih h).trans (le_max_right _ _)

theorem extentInTurn_nonneg {parts : List Arrangement} (h : ∀ part ∈ parts, 0 ≤ part.extent) :
    0 ≤ extentInTurn parts := by
  induction parts with
  | nil => exact le_rfl
  | cons part parts ih =>
    obtain ⟨hpart, hrest⟩ := List.forall_mem_cons.1 h
    exact add_nonneg hpart (ih hrest)

theorem Built.extent_nonneg {node : Arrangement} (built : node.Built) : 0 ≤ node.extent := by
  obtain ⟨hvalid, hextent⟩ := built.length_exact
  rw [← hextent]
  exact hvalid.value_nonneg

/-- All notes lie within the extent. -/
def Contained (node : Arrangement) : Prop := ∀ o ∈ node.occurrences, o.Within 0 node.extent

theorem occurrencesTogether_within {parts : List Arrangement} (h : ∀ part ∈ parts, Contained part) :
    ∀ o ∈ occurrencesTogether parts, o.Within 0 (extentTogether parts) := by
  induction parts with
  | nil => simp [occurrencesTogether]
  | cons part parts ih =>
    obtain ⟨hpart, hrest⟩ := List.forall_mem_cons.1 h
    intro o ho
    rw [extentTogether]
    rcases List.mem_append.1 ho with ho | ho
    · obtain ⟨inner, hinner, rfl⟩ := List.mem_map.1 ho
      refine ((hpart inner hinner).under .harmony).mono ?_ ?_
      · simp [Ancestor.delay]
      · simp [Ancestor.delay]
    · exact (ih hrest o ho).mono le_rfl (le_max_right _ _)

theorem occurrencesInTurn_within {parts : List Arrangement}
    (h : ∀ part ∈ parts, Contained part ∧ 0 ≤ part.extent) (before : List Arrangement) :
    ∀ o ∈ occurrencesInTurn before parts,
      o.Within (before.map extent).sum ((before.map extent).sum + extentInTurn parts) := by
  induction parts generalizing before with
  | nil => simp [occurrencesInTurn]
  | cons part parts ih =>
    obtain ⟨⟨hpart, hextent⟩, hrest⟩ := List.forall_mem_cons.1 h
    have hnonneg := extentInTurn_nonneg fun p hp => (hrest p hp).2
    intro o ho
    rw [extentInTurn]
    rcases List.mem_append.1 ho with ho | ho
    · obtain ⟨inner, hinner, rfl⟩ := List.mem_map.1 ho
      refine ((hpart inner hinner).under (.melody before)).mono ?_ ?_ <;> simp only [Ancestor.delay] <;> linarith
    · -- The parts that follow begin where this one ends.
      have hsum : ((before ++ [part]).map extent).sum = (before.map extent).sum + part.extent := by simp
      have hlater := ih hrest (before ++ [part]) o ho
      rw [hsum] at hlater
      exact hlater.mono (by linarith) (by linarith)

theorem Built.contained {node : Arrangement} (built : node.Built) : node.Contained := by
  induction built with
  | note pitch h =>
    intro o ho
    obtain rfl := List.mem_singleton.1 ho
    have hlength := h.value_nonneg
    exact ⟨le_rfl, le_add_of_nonneg_right hlength, by simp [Occurrence.release, Occurrence.onset, extent]⟩
  | rest h => simp [Contained, occurrences]
  | together hparts hok ih =>
    obtain ⟨_, _, rfl⟩ := together_eq_ok.1 hok
    exact occurrencesTogether_within ih
  | inTurn hparts hok ih =>
    obtain ⟨_, _, rfl⟩ := inTurn_eq_ok.1 hok
    have hwithin := occurrencesInTurn_within (fun part hp => ⟨ih part hp, (hparts part hp).extent_nonneg⟩) []
    simpa [Contained, occurrences, extent] using hwithin

/-! ## What the walk consumes -/

theorem length_of_place {node : Arrangement} {position length : NoteLength} {notes : List PlacedNote}
    (h : node.place position = .ok (length, notes)) : length = node.length := by
  cases node with
  | note pitch l =>
    obtain ⟨_, _, h⟩ := step_ok.1 h
    obtain ⟨_, _, h⟩ := step_ok.1 h
    cases return_ok.1 h
    rfl
  | rest l =>
    cases return_ok.1 h
    rfl
  | harmony parts l | melody parts l =>
    obtain ⟨_, _, h⟩ := step_ok.1 h
    cases return_ok.1 h
    rfl

theorem place_of_placeTogether {parts : List Arrangement} {position : NoteLength} {notes : List PlacedNote}
    (h : placeTogether position parts = .ok notes) :
    ∀ part ∈ parts, ∃ ns, part.place position = .ok (part.length, ns) := by
  induction parts generalizing notes with
  | nil => simp
  | cons part parts ih =>
    obtain ⟨⟨length, first⟩, hfirst, h⟩ := step_ok.1 h
    obtain ⟨rest, hrest, -⟩ := step_ok.1 h
    obtain rfl := length_of_place hfirst
    exact List.forall_mem_cons.2 ⟨⟨first, hfirst⟩, ih hrest⟩

/-- The walk of parts in turn goes on from the position after the last one. -/
theorem placeInTurn_append {parts : List Arrangement} (hparts : ∀ part ∈ parts, LengthExact part)
    {position : NoteLength} (hp : position.Valid) {notes : List PlacedNote}
    (h : placeInTurn position parts = .ok notes) :
    ∃ last : NoteLength, last.Valid ∧ last.value = position.value + extentInTurn parts ∧
      ∀ more, placeInTurn position (parts ++ more) = do return notes ++ (← placeInTurn last more) := by
  induction parts generalizing position notes with
  | nil =>
    cases return_ok.1 h
    refine ⟨position, hp, (add_zero _).symm, fun more => ?_⟩
    cases hmore : placeInTurn position more <;> simp [hmore, bind, Except.bind, pure, Except.pure]
  | cons part parts ih =>
    obtain ⟨⟨length, first⟩, hfirst, h⟩ := step_ok.1 h
    obtain ⟨next, hnext, h⟩ := step_ok.1 h
    obtain ⟨rest, hrest, h⟩ := step_ok.1 h
    cases return_ok.1 h
    obtain rfl := length_of_place hfirst
    obtain ⟨⟨hvalid, hextent⟩, htail⟩ := List.forall_mem_cons.1 hparts
    obtain ⟨hnextvalid, hnextval⟩ := NoteLength.add_exact hp hvalid hnext
    obtain ⟨last, hlast, hval, happend⟩ := ih htail hnextvalid hrest
    refine ⟨last, hlast, ?_, fun more => ?_⟩
    · rw [hval, hnextval, hextent, extentInTurn, add_assoc]
    · rw [List.cons_append, placeInTurn, hfirst]
      simp only [bind, Except.bind, hnext, happend]
      cases placeInTurn last more <;> simp [pure, Except.pure]

/-! ## The slot -/

/-- What holds of the walk of an arrangement from a position, where it succeeds. -/
structure InSlot (node : Arrangement) (position length : NoteLength) (notes : List PlacedNote) : Prop where
  length_eq : length = node.length
  /-- The notes are those of the arrangement in order, each where it occurs. -/
  placed : List.Forall₂ (Occurrence.PlacedAs position.value) node.occurrences notes
  inside : ∀ n ∈ notes, position.value ≤ n.onset.value ∧ n.onset.value ≤ n.release.value ∧
    n.release.value ≤ position.value + node.length.value
  /-- What followed the parts of a melody would begin at the end of the slot. -/
  filled : ∀ parts l, node = .melody parts l → ∃ last : NoteLength, last.value = position.value + l.value ∧
    ∀ more, placeInTurn position (parts ++ more) = do return notes ++ (← placeInTurn last more)
  /-- No part of a harmony consumes more than the slot. -/
  enclosed : ∀ parts l, node = .harmony parts l → ∀ part ∈ parts, ∃ consumed ns,
    part.place position = .ok (consumed, ns) ∧ consumed.value ≤ l.value

/-- Wherever the walk of an arrangement that can be built begins, it stays in the slot. -/
theorem Built.in_slot {node : Arrangement} (built : node.Built) {position length : NoteLength}
    {notes : List PlacedNote} (hp : position.Valid) (h : node.place position = .ok (length, notes)) :
    InSlot node position length notes := by
  obtain ⟨hlength, hplaced⟩ := built.walk_exact hp h
  obtain ⟨hvalid, hextent⟩ := built.length_exact
  refine ⟨hlength, hplaced, ?_, ?_, ?_⟩
  · intro n hn
    obtain ⟨o, ho, hon⟩ := exists_of_placed hplaced n hn
    obtain ⟨hfirst, honset, hlast⟩ := built.contained o ho
    rw [hon.onset, hon.release, hextent]
    refine ⟨?_, ?_, ?_⟩ <;> linarith
  · rintro parts l rfl
    obtain ⟨ns, hns, h⟩ := step_ok.1 h
    cases return_ok.1 h
    have hparts : ∀ part ∈ parts, LengthExact part := fun part hpart => (built.fields.1 part hpart).length_exact
    obtain ⟨last, -, hlast, hmore⟩ := placeInTurn_append hparts hp hns
    exact ⟨last, by rw [hlast]; exact congrArg _ hextent.symm, hmore⟩
  · rintro parts l rfl part hpart
    obtain ⟨ns, hns, -⟩ := step_ok.1 h
    obtain ⟨own, hown⟩ := place_of_placeTogether hns part hpart
    refine ⟨part.length, own, hown, ?_⟩
    calc part.length.value = part.extent := (built.fields.1 part hpart).length_exact.2
      _ ≤ extentTogether parts := extent_le_extentTogether hpart
      _ = l.value := hextent.symm

end Arrangement

end ScoreSequencer
