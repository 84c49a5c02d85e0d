import Mathlib
import ScoreSequencer.Proofs.Score.Context
import ScoreSequencer.Proofs.Score.Lengths
import ScoreSequencer.Proofs.Score.Slot
import ScoreSequencer.Proofs.Sequence.PartOrder
/-!
# Pitches, channel and velocity do not influence the order

The walk of a score is that of the score with every note on the same pitch, as long as
all pitches have keys: both are refused alike, or both come to notes at the same
positions (`place_unpitched`). The order of dispatch looks at instants and triggers
only, so even ties are kept in the same order. To say which note an event stems from,
the events are sorted together with the numbers of their notes (`dispatched`).
-/

namespace ScoreSequencer

/-! ## Steps that are refused alike -/

section Refusals

variable {α β γ δ ε ζ : Type} {x : Except Fault α} {y : Except Fault β} {f : α → γ} {g : β → γ}

/-- Two steps that agree so far go on to agree. -/
theorem map_bind_congr {next : α → Except Fault δ} {next' : β → Except Fault ε} {f' : δ → ζ} {g' : ε → ζ}
    (h : x.map f = y.map g) (hnext : ∀ a b, f a = g b → (next a).map f' = (next' b).map g') :
    (x >>= next).map f' = (y >>= next').map g' := by
  cases x with
  | error fault =>
    cases y with
    | error fault' => exact congrArg Except.error (Except.error.inj h)
    | ok b => cases h
  | ok a =>
    cases y with
    | error fault' => cases h
    | ok b => exact hnext a b (Except.ok.inj h)

theorem exists_ok_of_map_eq (h : x.map f = y.map g) {a : α} (hx : x = .ok a) : ∃ b, y = .ok b ∧ f a = g b := by
  subst hx
  cases y with
  | ok b => exact ⟨b, rfl, Except.ok.inj h⟩
  | error fault => cases h

end Refusals

/-! ## Scores without pitches -/

namespace Arrangement

mutual
/-- The arrangement with every note on the same pitch. -/
def unpitched : Arrangement → Arrangement
  | note _ length => note (Key.pitch default) length
  | rest length => rest length
  | harmony parts length => harmony (unpitchedAll parts) length
  | melody parts length => melody (unpitchedAll parts) length

def unpitchedAll : List Arrangement → List Arrangement
  | [] => []
  | part :: parts => unpitched part :: unpitchedAll parts
end

theorem unpitchedAll_eq_map (parts : List Arrangement) : unpitchedAll parts = parts.map unpitched := by
  induction parts with
  | nil => rfl
  | cons part parts ih => rw [unpitchedAll, ih, List.map_cons]

@[simp] theorem length_unpitched (node : Arrangement) : node.unpitched.length = node.length := by
  cases node <;> rfl

theorem map_length_unpitchedAll (parts : List Arrangement) : (unpitchedAll parts).map length = parts.map length := by
  simp [unpitchedAll_eq_map, Function.comp_def]

theorem built_unpitchedAll {parts : List Arrangement} (h : ∀ part ∈ parts, part.unpitched.Built) :
    ∀ part ∈ unpitchedAll parts, part.Built := by
  rw [unpitchedAll_eq_map]
  exact List.forall_mem_map.2 h

theorem Built.unpitched {node : Arrangement} (built : node.Built) : node.unpitched.Built := by
  induction built with
  | note _ h => exact .note _ h
  | rest h => exact .rest h
  | together _ hok ih =>
    obtain ⟨l, hl, rfl⟩ := together_eq_ok.1 hok
    refine .together (built_unpitchedAll ih) (together_eq_ok.2 ⟨l, ?_, rfl⟩)
    rw [longest_congr (map_length_unpitchedAll _), hl]
  | inTurn _ hok ih =>
    obtain ⟨l, hl, rfl⟩ := inTurn_eq_ok.1 hok
    refine .inTurn (built_unpitchedAll ih) (inTurn_eq_ok.2 ⟨l, ?_, rfl⟩)
    rw [total_congr (map_length_unpitchedAll _), hl]

end Arrangement

/-! ## The walk without pitches -/

/-- Where a note begins and ends. -/
def PlacedNote.span (n : PlacedNote) : NoteLength × NoteLength := (n.onset, n.release)

/-- The pitches of all notes have keys. -/
def Keyed (occurrences : List Occurrence) : Prop :=
  ∀ o ∈ occurrences, 0 ≤ o.pitch.semitones ∧ o.pitch.semitones ≤ 127

theorem keyed_under_append {ancestor : Ancestor} {first rest : List Occurrence} :
    Keyed (first.map (·.under ancestor) ++ rest) ↔ Keyed first ∧ Keyed rest := by
  simp only [Keyed, List.forall_mem_append, List.forall_mem_map]
  rfl

theorem Pitch.key_of_range {p : Pitch} (h : 0 ≤ p.semitones ∧ p.semitones ≤ 127) : ∃ key, p.key = .ok key :=
  ⟨_, dif_pos (by omega)⟩

namespace Arrangement

/-- What a walk comes to, but for the keys. -/
def spans (placed : NoteLength × List PlacedNote) : NoteLength × List (NoteLength × NoteLength) :=
  (placed.1, placed.2.map PlacedNote.span)

theorem map_span_append {first first' rest rest' : List PlacedNote}
    (h : first.map PlacedNote.span = first'.map PlacedNote.span)
    (h' : rest.map PlacedNote.span = rest'.map PlacedNote.span) :
    (first ++ rest).map PlacedNote.span = (first' ++ rest').map PlacedNote.span := by
  rw [List.map_append, h, h', List.map_append]

mutual
theorem place_unpitched : ∀ (node : Arrangement) (position : NoteLength), Keyed node.occurrences →
    (node.place position).map spans = (node.unpitched.place position).map spans
  | note pitch length, position, keyed => by
    obtain ⟨key, hkey⟩ := Pitch.key_of_range (keyed _ List.mem_cons_self)
    obtain ⟨key', hkey'⟩ : ∃ key, (Key.pitch default).key = .ok key := Pitch.key_of_range (by decide)
    rw [unpitched, place, place, hkey, hkey', step_of_ok, step_of_ok]
    cases position.add length <;> rfl
  | rest length, position, _ => rfl
  | harmony parts length, position, keyed => by
    rw [unpitched, place, place]
    exact map_bind_congr (placeTogether_unpitched parts position keyed) fun _ _ h =>
      congrArg (fun spans => Except.ok (length, spans)) h
  | melody parts length, position, keyed => by
    rw [unpitched, place, place]
    exact map_bind_congr (placeInTurn_unpitched [] parts position keyed) fun _ _ h =>
      congrArg (fun spans => Except.ok (length, spans)) h

theorem placeTogether_unpitched : ∀ (parts : List Arrangement) (position : NoteLength),
    Keyed (occurrencesTogether parts) →
    (placeTogether position parts).map (·.map PlacedNote.span) =
      (placeTogether position (unpitchedAll parts)).map (·.map PlacedNote.span)
  | [], position, _ => rfl
  | part :: parts, position, keyed => by
    rw [occurrencesTogether, keyed_under_append] at keyed
    rw [unpitchedAll, placeTogether, placeTogether]
    refine map_bind_congr (place_unpitched part position keyed.1) ?_
    rintro ⟨length, first⟩ ⟨length', first'⟩ hfirst
    exact map_bind_congr (placeTogether_unpitched parts position keyed.2) fun _ _ hrest =>
      congrArg Except.ok (map_span_append (Prod.mk.inj hfirst).2 hrest)

theorem placeInTurn_unpitched (before : List Arrangement) : ∀ (parts : List Arrangement) (position : NoteLength),
    Keyed (occurrencesInTurn before parts) →
    (placeInTurn position parts).map (·.map PlacedNote.span) =
      (placeInTurn position (unpitchedAll parts)).map (·.map PlacedNote.span)
  | [], position, _ => rfl
  | part :: parts, position, keyed => by
    rw [occurrencesInTurn, keyed_under_append] at keyed
    rw [unpitchedAll, placeInTurn, placeInTurn]
    refine map_bind_congr (place_unpitched part position keyed.1) ?_
    rintro ⟨length, first⟩ ⟨length', first'⟩ hfirst
    -- Both parts consume as much, so both walks go on from the same position.
    obtain ⟨rfl, hspans⟩ := Prod.mk.inj hfirst
    dsimp only
    cases position.add length with
    | error fault => rfl
    | ok next =>
      rw [step_of_ok, step_of_ok]
      exact map_bind_congr (placeInTurn_unpitched _ parts next keyed.2) fun _ _ hrest =>
        congrArg Except.ok (map_span_append hspans hrest)
end

variable {x y : Arrangement}

/-- Scores that differ only in their pitches, all of which have keys, are refused alike
or come to notes at the same positions. -/
theorem Built.place_repitched (hx : x.Built) (hy : y.Built) (hrhythm : x.unpitched.outline = y.unpitched.outline)
    (hkeyx : Keyed x.occurrences) (hkeyy : Keyed y.occurrences) (position : NoteLength) :
    (x.place position).map spans = (y.place position).map spans := by
  rw [place_unpitched x position hkeyx, place_unpitched y position hkeyy,
    hx.unpitched.outlineDecides _ hy.unpitched hrhythm]

end Arrangement

/-! ## The order of dispatch -/

/-- The events of some notes in the order of the walk, each with the number of its note. -/
def numbered (voice : Voice) (notes : List TimedNote) : List (ℕ × Event) :=
  notes.zipIdx.flatMap fun n => (n.1.events voice).map (n.2, ·)

/-- The events of some notes in the order of dispatch, each with the number of its note. -/
def dispatched (voice : Voice) (notes : List TimedNote) : List (ℕ × Event) :=
  (numbered voice notes).mergeSort fun a b => a.2.notAfter b.2

/-- The events with their numbers are the sorted events. -/
theorem map_snd_dispatched (voice : Voice) (notes : List TimedNote) :
    (dispatched voice notes).map Prod.snd = (notes.flatMap (·.events voice)).mergeSort Event.notAfter := by
  have hsort : (dispatched voice notes).map Prod.snd =
      ((numbered voice notes).map Prod.snd).mergeSort Event.notAfter := List.map_mergeSort fun _ _ _ _ => rfl
  have hevents : (numbered voice notes).map Prod.snd = notes.flatMap (·.events voice) := by
    simp [numbered, List.map_flatMap, Function.comp_def, ← List.flatMap_map]
  rw [hsort, hevents]

/-- The number of the note an event stems from, with what decides its place. -/
def numberedMoment (a : ℕ × Event) : ℕ × Instant × Trigger := (a.1, a.2.moment)

/-- The instants of a note. -/
def TimedNote.times (n : TimedNote) : Instant × Instant := (n.on, n.off)

/-- Notes at the same instants are dispatched alike, whatever their keys and the voice. -/
theorem map_numberedMoment_dispatched {notes notes' : List TimedNote}
    (h : notes.map TimedNote.times = notes'.map TimedNote.times) (voice voice' : Voice) :
    (dispatched voice notes).map numberedMoment = (dispatched voice' notes').map numberedMoment := by
  let order (p q : ℕ × Instant × Trigger) : Bool :=
    (p.2.1.totalOrder q.2.1).then (compare p.2.2.rank q.2.2.rank) != .gt
  have hsort : ∀ (voice : Voice) (notes : List TimedNote), (dispatched voice notes).map numberedMoment =
      ((numbered voice notes).map numberedMoment).mergeSort order :=
    fun voice notes => List.map_mergeSort fun _ _ _ _ => rfl
  have hmoments : ∀ (voice : Voice) (notes : List TimedNote), (numbered voice notes).map numberedMoment =
      (notes.map TimedNote.times).zipIdx.flatMap fun n => [(n.2, n.1.1, .on), (n.2, n.1.2, .off)] := by
    intro voice notes
    rw [numbered, List.map_flatMap, List.zipIdx_map, List.flatMap_map]
    rfl
  rw [hsort, hsort, hmoments, hmoments, h]

namespace Sequence

variable {root root' : Arrangement} {start : Instant} {timing : Timing} {voice : Voice}

theorem timedNotes_of_place (built : root.Built) {length : NoteLength} {notes : List PlacedNote}
    (h : root.place .zero = .ok (length, notes)) (timing : Timing) (start : Instant) :
    root.timedNotes timing start = notes.map (·.timed timing start) := by
  obtain ⟨-, hplaced⟩ := built.walk_exact NoteLength.zero_valid h
  rw [NoteLength.zero_value] at hplaced
  exact timed_of_placed hplaced timing start

/-- Notes at the same positions are at the same instants. -/
theorem map_times_timedNotes (built : root.Built) (built' : root'.Built) {length length' : NoteLength}
    {notes notes' : List PlacedNote} (h : root.place .zero = .ok (length, notes))
    (h' : root'.place .zero = .ok (length', notes'))
    (hspans : notes.map PlacedNote.span = notes'.map PlacedNote.span) (timing : Timing) (start : Instant) :
    (root.timedNotes timing start).map TimedNote.times = (root'.timedNotes timing start).map TimedNote.times := by
  have htimes : ∀ notes : List PlacedNote, (notes.map (·.timed timing start)).map TimedNote.times =
      (notes.map PlacedNote.span).map (Prod.map (timing.instant start) (timing.instant start)) := by
    intro notes
    rw [List.map_map, List.map_map]
    rfl
  rw [timedNotes_of_place built h, timedNotes_of_place built' h', htimes, htimes, hspans]

theorem exists_compile_iff : (∃ s, compile root start timing voice = .ok s) ↔ ∃ placed, root.place .zero = .ok placed := by
  simp only [compile_eq_ok]
  constructor
  · rintro ⟨s, length, notes, hplace, -⟩
    exact ⟨_, hplace⟩
  · rintro ⟨⟨length, notes⟩, hplace⟩
    exact ⟨_, length, notes, hplace, rfl⟩

/-! ## Main theorem -/

/-- Two scores of the same shape with the same lengths at the leaves, in which all
pitches have keys, compile alike with any two voices. If they do, both sequences
last as long, and their events stem from the same notes, one by one, with the same
trigger at the same instant. -/
theorem compile_repitched (built : root.Built) (built' : root'.Built)
    (hrhythm : root.unpitched.outline = root'.unpitched.outline)
    (hkeys : ∀ o ∈ root.occurrences, 0 ≤ o.pitch.semitones ∧ o.pitch.semitones ≤ 127)
    (hkeys' : ∀ o ∈ root'.occurrences, 0 ≤ o.pitch.semitones ∧ o.pitch.semitones ≤ 127)
    (start : Instant) (timing : Timing) (voice voice' : Voice) :
    ((∃ s, compile root start timing voice = .ok s) ↔ ∃ t, compile root' start timing voice' = .ok t) ∧
    ∀ s t, compile root start timing voice = .ok s → compile root' start timing voice' = .ok t →
      s.duration = t.duration ∧ s.events.length = t.events.length ∧
      (dispatched voice (root.timedNotes timing start)).map Prod.snd = s.events ∧
      (dispatched voice' (root'.timedNotes timing start)).map Prod.snd = t.events ∧
      (dispatched voice (root.timedNotes timing start)).map numberedMoment =
        (dispatched voice' (root'.timedNotes timing start)).map numberedMoment := by
  have hwalk := built.place_repitched built' hrhythm hkeys hkeys' .zero
  refine ⟨?_, fun s t hs ht => ?_⟩
  · rw [exists_compile_iff, exists_compile_iff]
    constructor
    · rintro ⟨placed, hplace⟩
      obtain ⟨placed', hplace', -⟩ := exists_ok_of_map_eq hwalk hplace
      exact ⟨placed', hplace'⟩
    · rintro ⟨placed', hplace'⟩
      obtain ⟨placed, hplace, -⟩ := exists_ok_of_map_eq hwalk.symm hplace'
      exact ⟨placed, hplace⟩
  · have hc := compiled built hs
    have hc' := compiled built' ht
    have hevents := map_snd_dispatched voice (root.timedNotes timing start)
    have hevents' := map_snd_dispatched voice' (root'.timedNotes timing start)
    rw [← Event.stableSort_iff.1 hc.sorted] at hevents
    rw [← Event.stableSort_iff.1 hc'.sorted] at hevents'
    obtain ⟨length, notes, hplace, -⟩ := compile_eq_ok.1 hs
    obtain ⟨length', notes', hplace', -⟩ := compile_eq_ok.1 ht
    rw [hplace, hplace'] at hwalk
    obtain ⟨hlength, hspans⟩ := Prod.mk.inj (Except.ok.inj hwalk)
    have hmoments := map_numberedMoment_dispatched
      (map_times_timedNotes built built' hplace hplace' hspans timing start) voice voice'
    refine ⟨?_, ?_, hevents, hevents', hmoments⟩
    · rw [hc.duration_eq, hc'.duration_eq, ← Arrangement.length_of_place hplace,
        ← Arrangement.length_of_place hplace']
      exact congrArg timing.span hlength
    · rw [← hevents, ← hevents', List.length_map, List.length_map]
      simpa using congrArg List.length hmoments

/-- The notes of `touching`, the later one a fifth higher. -/
def passing : Arrangement := .harmony [.melody [.rest .quarter, g4 .quarter] .half, c4 .quarter] .half

theorem passing_built : passing.Built := by
  have hmelody : (Arrangement.melody [.rest .quarter, g4 .quarter] .half).Built := by
    refine .inTurn ?_ (Arrangement.inTurn_eq_ok.2 ⟨_, by decide +kernel, rfl⟩)
    exact List.forall_mem_cons.2 ⟨.rest quarter_valid, List.forall_mem_singleton.2 (.note _ quarter_valid)⟩
  refine .together ?_ (Arrangement.together_eq_ok.2 ⟨_, by decide +kernel, rfl⟩)
  exact List.forall_mem_cons.2 ⟨hmelody, List.forall_mem_singleton.2 (.note _ quarter_valid)⟩

/-- A loud voice on another channel. -/
def loud : Voice := ⟨⟨3, by decide⟩, ⟨127, by decide⟩⟩

def passingSequence : Sequence where
  events := [⟨.on, loud.channel, default, loud.velocity, ⟨.zero⟩⟩,
    ⟨.off, loud.channel, default, loud.velocity, ⟨.ofNat 1⟩⟩,
    ⟨.on, loud.channel, highKey, loud.velocity, ⟨.ofNat 1⟩⟩,
    ⟨.off, loud.channel, highKey, loud.velocity, ⟨.ofNat 2⟩⟩]
  start := ⟨.zero⟩
  length := .half
  duration := ⟨.ofNat 2⟩

theorem passing_compiles : compile passing ⟨.zero⟩ crotchets loud = .ok passingSequence := by
  have hplace : passing.place .zero =
      .ok (.half, [⟨highKey, .quarter, .half⟩, ⟨default, .zero, .quarter⟩]) := by
    decide +kernel
  exact compile_eq (s := passingSequence) hplace (by decide +kernel) (by decide +kernel)

/-- A release and a trigger at the same instant stay in their order. -/
theorem compile_repitched_passing :
    touching.unpitched.outline = passing.unpitched.outline ∧
    (∀ o ∈ touching.occurrences, 0 ≤ o.pitch.semitones ∧ o.pitch.semitones ≤ 127) ∧
    (∀ o ∈ passing.occurrences, 0 ≤ o.pitch.semitones ∧ o.pitch.semitones ≤ 127) ∧
    compile touching ⟨.zero⟩ crotchets default = .ok touchingSequence ∧
    compile passing ⟨.zero⟩ crotchets loud = .ok passingSequence ∧
    touchingSequence.duration = passingSequence.duration ∧
    touchingSequence.events.length = passingSequence.events.length := by
  have hkeys : ∀ o ∈ touching.occurrences, 0 ≤ o.pitch.semitones ∧ o.pitch.semitones ≤ 127 := by decide
  have hkeys' : ∀ o ∈ passing.occurrences, 0 ≤ o.pitch.semitones ∧ o.pitch.semitones ≤ 127 := by decide
  obtain ⟨-, halike⟩ :=
    compile_repitched touching_built passing_built rfl hkeys hkeys' ⟨.zero⟩ crotchets default loud
  obtain ⟨hduration, hlength, -⟩ := halike _ _ touching_compiles passing_compiles
  exact ⟨rfl, hkeys, hkeys', touching_compiles, passing_compiles, hduration, hlength⟩

end Sequence

end ScoreSequencer
