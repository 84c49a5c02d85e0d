import Mathlib
import ScoreSequencer.Proofs.Score.Lengths
import ScoreSequencer.Proofs.Score.Slot
import ScoreSequencer.Proofs.Sequence.Compilation
/-!
# A harmony mixes its parts

The walk of a harmony is the walks of its parts one after the other, all from the same
position. A stable sort treats the events of each part as if they were sorted alone
(`filter_mergeSort`), so the events of a harmony interleave those of its parts, each
compiled on its own.
-/

namespace ScoreSequencer

/-! ## Interleavings -/

section Interleavings

variable {α : Type} {lists : List (List α)} {mixed : List α}

/-- The elements of `mixed` can be assigned to the lists so that those assigned to a
list are that list, in order. -/
def Interleaves (lists : List (List α)) (mixed : List α) : Prop :=
  ∃ assigned : List (ℕ × α), assigned.map Prod.snd = mixed ∧ (∀ a ∈ assigned, a.1 < lists.length) ∧
    ∀ i (h : i < lists.length), (assigned.filter (·.1 = i)).map Prod.snd = lists[i]

/-- Lists one after the other interleave. -/
theorem interleaves_flatten (lists : List (List α)) : Interleaves lists lists.flatten := by
  induction lists with
  | nil => exact ⟨[], rfl, nofun, nofun⟩
  | cons list lists ih =>
    obtain ⟨assigned, hmap, hlt, hlists⟩ := ih
    refine ⟨list.map (0, ·) ++ assigned.map fun a => (a.1 + 1, a.2), ?_, ?_, ?_⟩
    · simp [hmap, Function.comp_def]
    · intro a ha
      rcases List.mem_append.1 ha with ha | ha
      · obtain ⟨_, _, rfl⟩ := List.mem_map.1 ha
        exact Nat.succ_pos _
      · obtain ⟨b, hb, rfl⟩ := List.mem_map.1 ha
        exact Nat.succ_lt_succ (hlt b hb)
    · intro i hi
      cases i with
      | zero => simp [List.filter_map, Function.comp_def]
      | succ i =>
        have hi' : i < lists.length := Nat.lt_of_succ_lt_succ hi
        simp [List.filter_map, Function.comp_def, hlists i hi']

variable {le : α → α → Bool} (htrans : ∀ a b c, le a b → le b c → le a c) (htotal : ∀ a b, le a b || le b a)

include htrans htotal

/-- Sorting an interleaving sorts each of the lists. -/
theorem Interleaves.mergeSort (h : Interleaves lists mixed) :
    Interleaves (lists.map (·.mergeSort le)) (mixed.mergeSort le) := by
  obtain ⟨assigned, rfl, hlt, hlists⟩ := h
  refine ⟨assigned.mergeSort fun a b => le a.2 b.2, ?_, ?_, ?_⟩
  · exact List.map_mergeSort fun _ _ _ _ => rfl
  · intro a ha
    rw [List.length_map]
    exact hlt a (List.mem_mergeSort.1 ha)
  · intro i hi
    rw [List.length_map] at hi
    rw [filter_mergeSort (fun a b c => htrans a.2 b.2 c.2) (fun a b => htotal a.2 b.2),
      List.map_mergeSort (s := le) fun _ _ _ _ => rfl, hlists i hi, List.getElem_map]

end Interleavings

/-! ## The parts on their own -/

namespace Sequence

variable {parts : List Arrangement} {root : Arrangement} {start : Instant} {timing : Timing} {voice : Voice}
  {s : Sequence}

/-- Where the walk of the parts succeeds, each of them compiles, and sorting the events
of the parts apart gives what they compile to. -/
theorem compile_parts {notes : List PlacedNote} (h : Arrangement.placeTogether .zero parts = .ok notes)
    (start : Instant) (timing : Timing) (voice : Voice) :
    ∃ ss : List Sequence, List.Forall₂ (fun part t => compile part start timing voice = .ok t) parts ss ∧
      ss.map duration = parts.map (timing.span ·.length) ∧
      ∃ own : List (List Event), own.flatten = notes.flatMap (·.events timing start voice) ∧
        ss.map events = own.map (·.mergeSort Event.notAfter) := by
  induction parts generalizing notes with
  | nil =>
    cases return_ok.1 h
    exact ⟨[], .nil, rfl, [], rfl, rfl⟩
  | cons part parts ih =>
    obtain ⟨⟨length, first⟩, hfirst, h⟩ := step_ok.1 h
    obtain ⟨rest, hrest, h⟩ := step_ok.1 h
    cases return_ok.1 h
    obtain ⟨ss, hss, hdurations, own, hown, hevents⟩ := ih hrest
    obtain rfl := Arrangement.length_of_place hfirst
    refine ⟨_ :: ss, .cons (compile_eq_ok.2 ⟨_, _, hfirst, rfl⟩) hss, ?_,
      first.flatMap (·.events timing start voice) :: own, ?_, ?_⟩
    · rw [List.map_cons, List.map_cons, hdurations]
    · rw [List.flatten_cons, hown, List.flatMap_append]
    · rw [List.map_cons, List.map_cons, hevents]

/-! ## Main theorem -/

/-- Where a harmony compiles, so do its parts, and the events of the harmony interleave
theirs. It lasts as long as one of them, or no time if there are none. -/
theorem compile_together (hparts : ∀ part ∈ parts, part.Built) (hroot : Arrangement.together parts = .ok root)
    (hs : compile root start timing voice = .ok s) :
    ∃ ss : List Sequence, List.Forall₂ (fun part t => compile part start timing voice = .ok t) parts ss ∧
      Interleaves (ss.map events) s.events ∧
      (parts = [] → s.duration = timing.span .zero) ∧ (parts ≠ [] → ∃ t ∈ ss, s.duration = t.duration) := by
  obtain ⟨length, notes, hplace, rfl⟩ := compile_eq_ok.1 hs
  obtain rfl := Arrangement.length_of_place hplace
  obtain ⟨l, hl, rfl⟩ := Arrangement.together_eq_ok.1 hroot
  obtain ⟨ns, hns, hplace⟩ := step_ok.1 hplace
  cases return_ok.1 hplace
  obtain ⟨ss, hss, hdurations, own, hown, hevents⟩ := compile_parts hns start timing voice
  refine ⟨ss, hss, ?_, ?_, fun hne => ?_⟩
  · rw [hevents, ← hown]
    exact (interleaves_flatten own).mergeSort Event.notAfter_trans Event.notAfter_total
  · rintro rfl
    cases return_ok.1 hl
    rfl
  · obtain ⟨part, hpart, hlength⟩ := Arrangement.exists_longest hparts hne hroot
    have hmem : timing.span part.length ∈ ss.map duration := hdurations ▸ List.mem_map_of_mem hpart
    obtain ⟨t, ht, hdur⟩ := List.mem_map.1 hmem
    exact ⟨t, ht, by rw [hdur, hlength]⟩

/-- The two notes of `touching` apart. -/
theorem touching_parts_built : ∀ part ∈ [Arrangement.melody [.rest .quarter, c4 .quarter] .half, c4 .quarter],
    part.Built := touching_built.fields.1

/-- The later one. -/
def lateSequence : Sequence where
  events := [⟨.on, default, default, default, ⟨.ofNat 1⟩⟩, ⟨.off, default, default, default, ⟨.ofNat 2⟩⟩]
  start := ⟨.zero⟩
  length := .half
  duration := ⟨.ofNat 2⟩

theorem late_compiles :
    compile (.melody [.rest .quarter, c4 .quarter] .half) ⟨.zero⟩ crotchets default = .ok lateSequence := by
  have hplace : (Arrangement.melody [.rest .quarter, c4 .quarter] .half).place .zero =
      .ok (.half, [⟨default, .quarter, .half⟩]) := by
    decide +kernel
  exact compile_eq (s := lateSequence) hplace (by decide +kernel) (by decide +kernel)

theorem compile_together_touching :
    compile touching ⟨.zero⟩ crotchets default = .ok touchingSequence ∧
    compile (.melody [.rest .quarter, c4 .quarter] .half) ⟨.zero⟩ crotchets default = .ok lateSequence ∧
    compile (c4 .quarter) ⟨.zero⟩ crotchets default = .ok crotchetSequence ∧
    Interleaves [lateSequence.events, crotchetSequence.events] touchingSequence.events ∧
    ∃ t ∈ [lateSequence, crotchetSequence], touchingSequence.duration = t.duration := by
  obtain ⟨ss, hss, hmix, -, hduration⟩ := compile_together touching_parts_built
    (Arrangement.together_eq_ok.2 ⟨_, by decide +kernel, rfl⟩) touching_compiles
  have hparts : ss = [lateSequence, crotchetSequence] := by
    cases hss with
    | cons hlate hrest =>
      cases hrest with
      | cons hearly hnil =>
        cases hnil
        cases hlate.symm.trans late_compiles
        cases hearly.symm.trans crotchet_compiles
        rfl
  subst hparts
  exact ⟨touching_compiles, late_compiles, crotchet_compiles, hmix, hduration (List.cons_ne_nil _ _)⟩

end Sequence

end ScoreSequencer
