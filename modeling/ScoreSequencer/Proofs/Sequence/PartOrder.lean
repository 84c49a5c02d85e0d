import Mathlib
import ScoreSequencer.Proofs.Score.Context
import ScoreSequencer.Proofs.Sequence.Compilation
/-!
# The order of the parts of a harmony

The parts of a harmony all begin where it begins, so their order decides no more
than the order in which the walk comes to the notes. Sorting hides even that, except
among events at the same instant with the same trigger, which keep the order of
the walk (`SameUpToTies`).

The longest length is found by comparing in the order of the parts, and a
comparison may overflow in one order and not in another. Where both harmonies can
be built, they are equally long.
-/

namespace ScoreSequencer

namespace Arrangement

/-! ## The length of a harmony -/

theorem extentTogether_perm {parts parts' : List Arrangement} (h : parts.Perm parts') :
    extentTogether parts = extentTogether parts' := by
  induction h with
  | nil => rfl
  | cons part _ ih => rw [extentTogether, extentTogether, ih]
  | swap p q parts => exact max_left_comm _ _ _
  | trans _ _ ih ih' => rw [ih, ih']

theorem together_length {parts : List Arrangement} {node : Arrangement} (hparts : ∀ part ∈ parts, part.Built)
    (h : together parts = .ok node) : node.length.Valid ∧ node.length.value = extentTogether parts := by
  have hexact := (Built.together hparts h).length_exact
  obtain ⟨_, _, rfl⟩ := together_eq_ok.1 h
  exact hexact

theorem together_length_perm {parts parts' : List Arrangement} {x y : Arrangement}
    (hparts : ∀ part ∈ parts, part.Built) (hperm : parts.Perm parts') (hx : together parts = .ok x)
    (hy : together parts' = .ok y) : x.length = y.length := by
  obtain ⟨hvalid, hextent⟩ := together_length hparts hx
  obtain ⟨hvalid', hextent'⟩ := together_length (fun part hpart => hparts part (hperm.symm.subset hpart)) hy
  exact hvalid.eq_of_value hvalid' (by rw [hextent, hextent', extentTogether_perm hperm])

/-! ## The same notes in another order -/

/-- Wherever the walk of `x` succeeds, that of `y` takes up as much and comes to
the same notes in some order. -/
def Reordered (x y : Arrangement) : Prop :=
  ∀ position length notes, x.place position = .ok (length, notes) →
    ∃ notes', y.place position = .ok (length, notes') ∧ notes.Perm notes'

theorem Reordered.refl (x : Arrangement) : Reordered x x := fun _ _ notes h => ⟨notes, h, .refl notes⟩

/-- Parts at the same position, each of them reordered. -/
theorem placeTogether_reordered {parts parts' : List Arrangement} (hparts : List.Forall₂ Reordered parts parts')
    {position : NoteLength} {notes : List PlacedNote} (h : placeTogether position parts = .ok notes) :
    ∃ notes', placeTogether position parts' = .ok notes' ∧ notes.Perm notes' := by
  induction hparts generalizing notes with
  | nil => exact ⟨notes, h, .refl notes⟩
  | cons hpart _ ih =>
    obtain ⟨⟨length, first⟩, hfirst, h⟩ := step_ok.1 h
    obtain ⟨rest, hrest, h⟩ := step_ok.1 h
    cases return_ok.1 h
    obtain ⟨first', hfirst', hperm⟩ := hpart _ _ _ hfirst
    obtain ⟨rest', hrest', hperm'⟩ := ih hrest
    exact ⟨first' ++ rest', step_ok.2 ⟨_, hfirst', step_ok.2 ⟨_, hrest', rfl⟩⟩, hperm.append hperm'⟩

theorem placeInTurn_reordered {parts parts' : List Arrangement} (hparts : List.Forall₂ Reordered parts parts')
    {position : NoteLength} {notes : List PlacedNote} (h : placeInTurn position parts = .ok notes) :
    ∃ notes', placeInTurn position parts' = .ok notes' ∧ notes.Perm notes' := by
  induction hparts generalizing position notes with
  | nil => exact ⟨notes, h, .refl notes⟩
  | cons hpart _ ih =>
    obtain ⟨⟨length, first⟩, hfirst, h⟩ := step_ok.1 h
    obtain ⟨next, hnext, h⟩ := step_ok.1 h
    obtain ⟨rest, hrest, h⟩ := step_ok.1 h
    cases return_ok.1 h
    -- Both walks go on from the same position, since both parts take up `length`.
    obtain ⟨first', hfirst', hperm⟩ := hpart _ _ _ hfirst
    obtain ⟨rest', hrest', hperm'⟩ := ih hrest
    exact ⟨first' ++ rest', step_ok.2 ⟨_, hfirst', step_ok.2 ⟨_, hnext, step_ok.2 ⟨_, hrest', rfl⟩⟩⟩,
      hperm.append hperm'⟩

/-- Parts at the same position in another order. -/
theorem placeTogether_perm {parts parts' : List Arrangement} (hparts : parts.Perm parts')
    {position : NoteLength} {notes : List PlacedNote} (h : placeTogether position parts = .ok notes) :
    ∃ notes', placeTogether position parts' = .ok notes' ∧ notes.Perm notes' := by
  induction hparts generalizing notes with
  | nil => exact ⟨notes, h, .refl notes⟩
  | cons part _ ih =>
    obtain ⟨first, hfirst, h⟩ := step_ok.1 h
    obtain ⟨rest, hrest, h⟩ := step_ok.1 h
    cases return_ok.1 h
    obtain ⟨rest', hrest', hperm⟩ := ih hrest
    exact ⟨first.2 ++ rest', step_ok.2 ⟨_, hfirst, step_ok.2 ⟨_, hrest', rfl⟩⟩, hperm.append_left _⟩
  | swap p q parts =>
    obtain ⟨first, hfirst, h⟩ := step_ok.1 h
    obtain ⟨more, hmore, h⟩ := step_ok.1 h
    cases return_ok.1 h
    obtain ⟨second, hsecond, hmore⟩ := step_ok.1 hmore
    obtain ⟨rest, hrest, hmore⟩ := step_ok.1 hmore
    cases return_ok.1 hmore
    refine ⟨second.2 ++ (first.2 ++ rest), ?_, List.perm_append_comm_assoc _ _ _⟩
    exact step_ok.2 ⟨_, hsecond, step_ok.2 ⟨_, step_ok.2 ⟨_, hfirst, step_ok.2 ⟨_, hrest, rfl⟩⟩, rfl⟩⟩
  | trans _ _ ih ih' =>
    obtain ⟨middle, hmiddle, hperm⟩ := ih h
    obtain ⟨notes', hnotes', hperm'⟩ := ih' hmiddle
    exact ⟨notes', hnotes', hperm.trans hperm'⟩

theorem reordered_of_perm {parts parts' : List Arrangement} (hparts : parts.Perm parts') (l : NoteLength) :
    Reordered (harmony parts l) (harmony parts' l) := by
  intro position length notes h
  obtain ⟨ns, hns, h⟩ := step_ok.1 h
  cases return_ok.1 h
  obtain ⟨notes', hnotes', hperm⟩ := placeTogether_perm hparts hns
  exact ⟨notes', step_ok.2 ⟨_, hnotes', rfl⟩, hperm⟩

/-! ## Within a context -/

theorem Reordered.composite {x y : Arrangement} (h : Reordered x y) (frame : Frame) (l : NoteLength) :
    Reordered (frame.composite x l) (frame.composite y l) := by
  have hrefl : ∀ parts : List Arrangement, List.Forall₂ Reordered parts parts := fun parts =>
    List.forall₂_same.2 fun part _ => .refl part
  intro position length notes hplace
  cases frame with
  | harmony before after =>
    obtain ⟨ns, hns, hplace⟩ := step_ok.1 hplace
    cases return_ok.1 hplace
    obtain ⟨notes', hnotes', hperm⟩ :=
      placeTogether_reordered (List.rel_append (hrefl before) (.cons h (hrefl after))) hns
    exact ⟨notes', step_ok.2 ⟨_, hnotes', rfl⟩, hperm⟩
  | melody before after =>
    obtain ⟨ns, hns, hplace⟩ := step_ok.1 hplace
    cases return_ok.1 hplace
    obtain ⟨notes', hnotes', hperm⟩ :=
      placeInTurn_reordered (List.rel_append (hrefl before) (.cons h (hrefl after))) hns
    exact ⟨notes', step_ok.2 ⟨_, hnotes', rfl⟩, hperm⟩

theorem Reordered.fill {x y : Arrangement} (h : Reordered x y) (hlength : x.length = y.length)
    {context : List Frame} {root root' : Arrangement} (hx : Arrangement.fill context x = .ok root)
    (hy : Arrangement.fill context y = .ok root') : Reordered root root' := by
  induction context generalizing x y with
  | nil =>
    cases return_ok.1 hx
    cases return_ok.1 hy
    exact h
  | cons frame context ih =>
    obtain ⟨x', hx', hx⟩ := step_ok.1 hx
    obtain ⟨y', hy', hy⟩ := step_ok.1 hy
    obtain ⟨l, hl, rfl⟩ := Frame.build_eq_ok.1 hx'
    obtain ⟨l', hl', rfl⟩ := Frame.build_eq_ok.1 hy'
    rw [buildLength_congr hlength, hl'] at hl
    cases hl
    exact ih (h.composite frame l) (by simp) hx hy

end Arrangement

/-! ## Sequences up to ties -/

namespace Event

/-- What decides the place of an event in the order of dispatch. -/
def moment (e : Event) : Instant × Trigger := (e.time, e.trigger)

/-- The order of dispatch on moments. -/
def MomentNotAfter (p q : Instant × Trigger) : Prop :=
  p.1.seconds.rank < q.1.seconds.rank ∨ p.1.seconds.rank = q.1.seconds.rank ∧ p.2.rank ≤ q.2.rank

theorem momentNotAfter_antisymm {p q : Instant × Trigger} (hpq : MomentNotAfter p q) (hqp : MomentNotAfter q p) :
    p = q := by
  unfold MomentNotAfter at hpq hqp
  exact Prod.ext (Instant.eq_iff_rank.2 (by omega)) (Trigger.rank_injective (by omega))

theorem map_moment_ordered {events : List Event} (h : events.Pairwise fun a b => a.order b ≠ .gt) :
    (events.map moment).Pairwise MomentNotAfter :=
  List.pairwise_map.2 (h.imp order_ne_gt.1)

theorem map_moment_eq {l l' : List Event} (hperm : l.Perm l') (hl : l.Pairwise fun a b => a.order b ≠ .gt)
    (hl' : l'.Pairwise fun a b => a.order b ≠ .gt) : l.map moment = l'.map moment :=
  List.Perm.eq_of_pairwise (fun _ _ _ _ => momentNotAfter_antisymm) (map_moment_ordered hl)
    (map_moment_ordered hl') (hperm.map moment)

end Event

namespace Sequence

/-- Two sequences that differ in no more than the order of events at the same
instant with the same trigger. -/
structure SameUpToTies (s s' : Sequence) : Prop where
  duration_eq : s.duration = s'.duration
  moments_eq : s.events.map Event.moment = s'.events.map Event.moment
  ties_perm : ∀ m, (s.events.filter (·.moment = m)).Perm (s'.events.filter (·.moment = m))

variable {start : Instant} {timing : Timing} {voice : Voice} {s : Sequence}

theorem compile_of_reordered {root root' : Arrangement} (h : root.Reordered root')
    (hs : compile root start timing voice = .ok s) :
    ∃ s', compile root' start timing voice = .ok s' ∧ SameUpToTies s s' := by
  obtain ⟨length, notes, hplace, rfl⟩ := compile_eq_ok.1 hs
  obtain ⟨notes', hplace', hnotes⟩ := h _ _ _ hplace
  refine ⟨_, compile_eq_ok.2 ⟨_, _, hplace', rfl⟩, ?_⟩
  have hevents : ((notes.flatMap (·.events timing start voice)).mergeSort Event.notAfter).Perm
      ((notes'.flatMap (·.events timing start voice)).mergeSort Event.notAfter) := by
    refine (List.mergeSort_perm _ _).trans (.trans ?_ (List.mergeSort_perm _ _).symm)
    exact hnotes.flatMap_right _
  exact ⟨rfl, Event.map_moment_eq hevents (Event.mergeSort_ordered _) (Event.mergeSort_ordered _),
    fun m => hevents.filter _⟩

/-! ## Main theorem -/

open Arrangement in
/-- Two harmonies of the same parts, each of which can be built, are equally long,
and so are the nodes around them. Compiling the one tree succeeds just when
compiling the other does, and then the sequences are the same up to ties. -/
theorem compile_part_order {parts parts' : List Arrangement} {x y : Arrangement}
    (hparts : ∀ part ∈ parts, part.Built) (hperm : parts.Perm parts') (hx : together parts = .ok x)
    (hy : together parts' = .ok y) (context : List Frame) :
    x.length = y.length ∧
    (∀ n, (fill (context.take n) x).map Arrangement.length = (fill (context.take n) y).map Arrangement.length) ∧
    ∀ root root', fill context x = .ok root → fill context y = .ok root' → ∀ start timing voice,
      ((∃ s, compile root start timing voice = .ok s) ↔ ∃ s', compile root' start timing voice = .ok s') ∧
      ∀ s s', compile root start timing voice = .ok s → compile root' start timing voice = .ok s' →
        SameUpToTies s s' := by
  have hlength := together_length_perm hparts hperm hx hy
  refine ⟨hlength, fun n => fill_length hlength _, fun root root' hroot hroot' start timing voice => ?_⟩
  obtain ⟨l, -, rfl⟩ := together_eq_ok.1 hx
  obtain ⟨l', -, rfl⟩ := together_eq_ok.1 hy
  cases hlength
  have hforth := (reordered_of_perm hperm l).fill rfl hroot hroot'
  have hback := (reordered_of_perm hperm.symm l).fill rfl hroot' hroot
  refine ⟨⟨?_, ?_⟩, fun s s' hs hs' => ?_⟩
  · rintro ⟨s, hs⟩
    obtain ⟨s', hs', -⟩ := compile_of_reordered hforth hs
    exact ⟨s', hs'⟩
  · rintro ⟨s', hs'⟩
    obtain ⟨s, hs, -⟩ := compile_of_reordered hback hs'
    exact ⟨s, hs⟩
  · obtain ⟨t, ht, hsame⟩ := compile_of_reordered hforth hs
    rw [hs'] at ht
    cases ht
    exact hsame

/-- The key of G4. -/
def highKey : Key := ⟨67, by decide⟩

/-- A note on it. -/
def g4 (length : NoteLength) : Arrangement := .note ⟨67, by decide⟩ length

/-- A hole between a rest and a note. -/
def interlude : List Frame := [.melody [.rest .quarter] [c4 .quarter]]

/-- The interlude with two parts in it that last a half. -/
def duet (p q : Arrangement) : Arrangement :=
  .melody [.rest .quarter, .harmony [p, q] .half, c4 .quarter] .whole

/-- What it compiles to, apart from the two events that begin its parts. -/
def duetSequence (triggers : List Event) : Sequence where
  events := triggers ++ [⟨.off, default, default, default, ⟨.ofNat 2⟩⟩,
    ⟨.off, default, highKey, default, ⟨.ofNat 3⟩⟩, ⟨.on, default, default, default, ⟨.ofNat 3⟩⟩,
    ⟨.off, default, default, default, ⟨.ofNat 4⟩⟩]
  start := ⟨.zero⟩
  length := .whole
  duration := ⟨.ofNat 4⟩

def lowTrigger : Event := ⟨.on, default, default, default, ⟨.ofNat 1⟩⟩

def highTrigger : Event := ⟨.on, default, highKey, default, ⟨.ofNat 1⟩⟩

theorem duet_compiles : compile (duet (c4 .quarter) (g4 .half)) ⟨.zero⟩ crotchets default =
    .ok (duetSequence [lowTrigger, highTrigger]) := by
  have hplace : (duet (c4 .quarter) (g4 .half)).place .zero = .ok (.whole, [⟨default, .quarter, .half⟩,
      ⟨highKey, .quarter, ⟨⟨3, 4⟩⟩⟩, ⟨default, ⟨⟨3, 4⟩⟩, .whole⟩]) := by
    decide +kernel
  exact compile_eq (s := duetSequence [lowTrigger, highTrigger]) hplace (by decide +kernel) (by decide +kernel)

theorem duet_compiles_swapped : compile (duet (g4 .half) (c4 .quarter)) ⟨.zero⟩ crotchets default =
    .ok (duetSequence [highTrigger, lowTrigger]) := by
  have hplace : (duet (g4 .half) (c4 .quarter)).place .zero = .ok (.whole,
      [⟨highKey, .quarter, ⟨⟨3, 4⟩⟩⟩, ⟨default, .quarter, .half⟩, ⟨default, ⟨⟨3, 4⟩⟩, .whole⟩]) := by
    decide +kernel
  exact compile_eq (s := duetSequence [highTrigger, lowTrigger]) hplace (by decide +kernel) (by decide +kernel)

/-- The triggers of the two notes tie, and the walk comes to either of them first. -/
theorem compile_part_order_duet :
    compile (duet (c4 .quarter) (g4 .half)) ⟨.zero⟩ crotchets default = .ok (duetSequence [lowTrigger, highTrigger]) ∧
    compile (duet (g4 .half) (c4 .quarter)) ⟨.zero⟩ crotchets default = .ok (duetSequence [highTrigger, lowTrigger]) ∧
    SameUpToTies (duetSequence [lowTrigger, highTrigger]) (duetSequence [highTrigger, lowTrigger]) := by
  have hhalf : NoteLength.half.Valid := by decide
  have hparts : ∀ part ∈ [c4 .quarter, g4 .half], part.Built :=
    List.forall_mem_cons.2 ⟨.note _ quarter_valid, List.forall_mem_singleton.2 (.note _ hhalf)⟩
  obtain ⟨-, -, hcompile⟩ := compile_part_order (x := .harmony [c4 .quarter, g4 .half] .half)
    (y := .harmony [g4 .half, c4 .quarter] .half) hparts (.swap _ _ _)
    (Arrangement.together_eq_ok.2 ⟨_, by decide +kernel, rfl⟩)
    (Arrangement.together_eq_ok.2 ⟨_, by decide +kernel, rfl⟩) interlude
  obtain ⟨-, hsame⟩ := hcompile (duet (c4 .quarter) (g4 .half)) (duet (g4 .half) (c4 .quarter))
    (step_ok.2 ⟨_, Frame.build_eq_ok.2 ⟨.whole, by decide +kernel, rfl⟩, rfl⟩)
    (step_ok.2 ⟨_, Frame.build_eq_ok.2 ⟨.whole, by decide +kernel, rfl⟩, rfl⟩) ⟨.zero⟩ crotchets default
  exact ⟨duet_compiles, duet_compiles_swapped, hsame _ _ duet_compiles duet_compiles_swapped⟩

end Sequence

end ScoreSequencer
