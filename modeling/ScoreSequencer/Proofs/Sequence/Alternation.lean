import Mathlib
import ScoreSequencer.Proofs.Sequence.Compilation
/-!
# Notes that do not overlap do not cut each other

If the notes on a key take some time and no two of them sound at one instant,
the events on that key are whole notes one after another, each trigger followed
at once by its own release. Notes may touch: a release goes before the trigger
at the same instant, whatever the order in which the walk came to the two notes.
-/

namespace ScoreSequencer

/-- A note sounds from when it begins until just before it ends. -/
def TimedNote.SoundsAt (n : TimedNote) (t : Instant) : Prop := ¬t.Before n.on ∧ t.Before n.off

/-- Two notes never sound at the same time. -/
def TimedNote.Apart (p q : TimedNote) : Prop := ∀ t, ¬(p.SoundsAt t ∧ q.SoundsAt t)

namespace TimedNote

variable {p q : TimedNote} {notes : List TimedNote} {voice : Voice}

theorem Apart.symm (h : p.Apart q) : q.Apart p := fun t ht => h t ⟨ht.2, ht.1⟩

/-- A note that ends before another begins, or just then, is apart from it. -/
theorem apart_of_not_before (h : ¬q.on.Before p.off) : p.Apart q := by
  rintro t ⟨⟨-, hoff⟩, hon, -⟩
  rw [Instant.not_before_iff] at h hon
  rw [Instant.before_iff] at hoff
  omega

/-- Of two notes apart, the one that begins no later ends before the other begins. -/
theorem Apart.not_on_before_off (h : p.Apart q) (hq : q.on.Before q.off) (hpq : ¬q.on.Before p.on) :
    ¬q.on.Before p.off := by
  intro hon
  refine h q.on ⟨⟨hpq, hon⟩, ?_, hq⟩
  rw [Instant.not_before_iff]

/-! ## The events on a key -/

/-- The events on a key are those of its notes. -/
theorem filter_flatMap_events (voice : Voice) (notes : List TimedNote) (k : Key) :
    (notes.flatMap (·.events voice)).filter (·.key = k) = (notes.filter (·.key = k)).flatMap (·.events voice) := by
  induction notes with
  | nil => rfl
  | cons n notes ih =>
    rw [List.flatMap_cons, List.filter_append, ih]
    by_cases hkey : n.key = k
    · simp [events, hkey]
    · simp [events, hkey]

/-- On a key, events that may go in either order are equal. -/
theorem eq_of_order {k : Key} {a b : Event} (ha : a ∈ notes.flatMap (·.events voice)) (hak : a.key = k)
    (hb : b ∈ notes.flatMap (·.events voice)) (hbk : b.key = k) (h : a.order b = .eq) : a = b := by
  obtain ⟨m, -, hm⟩ := List.mem_flatMap.1 ha
  obtain ⟨n, -, hn⟩ := List.mem_flatMap.1 hb
  obtain ⟨htime, htrigger⟩ := Event.order_eq.1 h
  simp only [events, List.mem_cons, List.not_mem_nil, or_false] at hm hn
  rcases hm with rfl | rfl <;> rcases hn with rfl | rfl <;> simp_all

/-! ## One note after another -/

/-- Notes in the order in which they begin. -/
def byOnset (notes : List TimedNote) : List TimedNote := notes.mergeSort fun p q => !decide (q.on.Before p.on)

theorem byOnset_perm (notes : List TimedNote) : (byOnset notes).Perm notes := List.mergeSort_perm _ _

theorem byOnset_pairwise (notes : List TimedNote) : (byOnset notes).Pairwise fun p q => ¬q.on.Before p.on := by
  refine (List.pairwise_mergeSort ?_ ?_ notes).imp fun h => by simpa using h
  · intro a b c
    simp only [Bool.not_eq_true', decide_eq_false_iff_not, Instant.not_before_iff]
    exact le_trans
  · intro a b
    simp only [Bool.or_eq_true, Bool.not_eq_true', decide_eq_false_iff_not, Instant.not_before_iff]
    exact le_total _ _

/-- Notes that are apart, in the order in which they begin: each ends before the next begins. -/
theorem byOnset_apart (hvisible : ∀ n ∈ notes, n.on.Before n.off) (hapart : notes.Pairwise Apart) :
    (byOnset notes).Pairwise fun p q => ¬q.on.Before p.off := by
  have hsorted : (byOnset notes).Pairwise Apart := ((byOnset_perm notes).pairwise_iff Apart.symm).2 hapart
  refine (hsorted.and (byOnset_pairwise notes)).imp_of_mem fun _ hq h => ?_
  exact h.1.not_on_before_off (hvisible _ ((byOnset_perm notes).subset hq)) h.2

/-- The events of notes one after another are in the order of dispatch. -/
theorem flatMap_events_ordered (voice : Voice) (hvisible : ∀ n ∈ notes, n.on.Before n.off)
    (hturn : notes.Pairwise fun p q => ¬q.on.Before p.off) :
    (notes.flatMap (·.events voice)).Pairwise fun a b => a.order b ≠ .gt := by
  refine List.pairwise_flatMap.2 ⟨fun n hn => ?_, hturn.imp_of_mem fun hp hq h a ha b hb => ?_⟩
  · have hlt := Instant.before_iff.1 (hvisible n hn)
    simp only [events, List.pairwise_cons, List.mem_singleton, Event.order_ne_gt]
    simp [hlt]
  · have hplt := Instant.before_iff.1 (hvisible _ hp)
    have hqlt := Instant.before_iff.1 (hvisible _ hq)
    rw [Instant.not_before_iff] at h
    simp only [events, List.mem_cons, List.not_mem_nil, or_false] at ha hb
    rw [Event.order_ne_gt]
    rcases ha with rfl | rfl <;> rcases hb with rfl | rfl <;> simp only [Trigger.rank] <;> omega

/-- Sorted events on a key whose notes take some time and are apart: the notes one after another. -/
theorem filter_eq_flatMap_byOnset {events : List Event} {k : Key}
    (hsort : Event.StableSort (notes.flatMap (·.events voice)) events)
    (hvisible : ∀ n ∈ notes.filter (·.key = k), n.on.Before n.off)
    (hapart : (notes.filter (·.key = k)).Pairwise Apart) :
    events.filter (·.key = k) = (byOnset (notes.filter (·.key = k))).flatMap (·.events voice) := by
  have hperm := byOnset_perm (notes.filter (·.key = k))
  have hsame : (events.filter (·.key = k)).Perm
      ((byOnset (notes.filter (·.key = k))).flatMap (·.events voice)) := by
    refine (hsort.perm.filter _).trans ?_
    rw [filter_flatMap_events]
    exact (hperm.flatMap_right _).symm
  have hordered := flatMap_events_ordered voice (fun n hn => hvisible n (hperm.subset hn))
    (byOnset_apart hvisible hapart)
  refine List.Perm.eq_of_pairwise (fun a b ha hb hab hba => ?_) (hsort.ordered.filter _) hordered hsame
  -- On one key the order leaves no two different events tied.
  obtain ⟨ha, hak⟩ := List.mem_filter.1 ha
  obtain ⟨hb, hbk⟩ := List.mem_filter.1 (hsame.symm.subset hb)
  exact eq_of_order (hsort.perm.subset ha) (of_decide_eq_true hak) (hsort.perm.subset hb) (of_decide_eq_true hbk)
    (Event.order_antisymm hab hba)

end TimedNote

/-! ## Main theorem -/

/-- The notes on a key that take some time and are apart are dispatched one after
another, each as its trigger and its own release. -/
theorem Sequence.compile_alternates {root : Arrangement} {start : Instant} {timing : Timing} {voice : Voice}
    {s : Sequence} (built : root.Built) (h : compile root start timing voice = .ok s) (k : Key)
    (hvisible : ∀ n ∈ (root.timedNotes timing start).filter (·.key = k), n.on.Before n.off)
    (hapart : ((root.timedNotes timing start).filter (·.key = k)).Pairwise TimedNote.Apart) :
    ∃ notes : List TimedNote, notes.Perm ((root.timedNotes timing start).filter (·.key = k)) ∧
      notes.Pairwise (fun p q => ¬q.on.Before p.off) ∧
      s.events.filter (·.key = k) = notes.flatMap (·.events voice) := by
  have hevents := TimedNote.filter_eq_flatMap_byOnset (compiled built h).sorted hvisible hapart
  exact ⟨_, TimedNote.byOnset_perm _, TimedNote.byOnset_apart hvisible hapart, hevents⟩

theorem compile_alternates_touching :
    touching.Built ∧ Sequence.compile touching ⟨.zero⟩ crotchets default = .ok touchingSequence ∧
      ∃ notes : List TimedNote, notes.Perm ((touching.timedNotes crotchets ⟨.zero⟩).filter (·.key = default)) ∧
        notes.Pairwise (fun p q => ¬q.on.Before p.off) ∧
        touchingSequence.events.filter (·.key = default) = notes.flatMap (·.events default) := by
  refine ⟨touching_built, touching_compiles, Sequence.compile_alternates touching_built touching_compiles _ ?_ ?_⟩
  · rw [touching_timedNotes]
    decide +kernel
  · rw [touching_timedNotes]
    refine List.pairwise_pair.2 (TimedNote.apart_of_not_before ?_).symm
    decide +kernel

end ScoreSequencer
