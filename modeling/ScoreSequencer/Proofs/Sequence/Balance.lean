import Mathlib
import ScoreSequencer.Proofs.Sequence.Instants
/-!
# When every note is released

`Released` says that dispatching events in order ends every note after it began.
Since releases go before triggers at the same instant, a note that begins and
ends at one instant is released too early, and then it sounds on unless another
note on its key spans that instant and lends it a release. `released_iff` makes
this exact: the events of some notes are `Released` if and only if the notes are
`Covered`.
-/

namespace ScoreSequencer

/-! ## Released events -/

/-- The number of events with a trigger on a key. -/
def Event.count (trigger : Trigger) (k : Key) (events : List Event) : Nat :=
  events.countP fun e => e.trigger = trigger ∧ e.key = k

/-- Every note is released after it was triggered. -/
structure Released (events : List Event) : Prop where
  /-- At no point were there more releases on a key than triggers. -/
  never_ahead : ∀ k initial, initial <+: events → Event.count .off k initial ≤ Event.count .on k initial
  settled : ∀ k, Event.count .off k events = Event.count .on k events
  /-- An event with none on its key to follow is a release. -/
  ends_off : ∀ initial e rest, events = initial ++ e :: rest → (∀ r ∈ rest, r.key ≠ e.key) → e.trigger = .off

/-- On no key and at no instant do more notes begin and end than there are notes
that sound through the instant. -/
def Covered (notes : List TimedNote) : Prop :=
  ∀ (k : Key) (t : Instant), notes.countP (fun n => n.key = k ∧ n.on = t ∧ n.off = t) ≤
    notes.countP (fun n => n.key = k ∧ n.on.Before t ∧ t.Before n.off)

/-- Notes that take some time are covered. -/
theorem covered_of_visible {notes : List TimedNote} (h : ∀ n ∈ notes, n.on ≠ n.off) : Covered notes := by
  intro k t
  have hnone : notes.countP (fun n => n.key = k ∧ n.on = t ∧ n.off = t) = 0 := by
    rw [List.countP_eq_zero]
    intro n hn hempty
    obtain ⟨-, hon, hoff⟩ := of_decide_eq_true hempty
    exact h n hn (hon.trans hoff.symm)
  rw [hnone]
  exact Nat.zero_le _

namespace Event

/-! ## Counting -/

theorem count_append (trigger : Trigger) (k : Key) (l l' : List Event) :
    count trigger k (l ++ l') = count trigger k l + count trigger k l' :=
  List.countP_append

theorem count_eq_zero {trigger : Trigger} {k : Key} {l : List Event} (h : ∀ e ∈ l, e.key ≠ k) :
    count trigger k l = 0 := by
  refine List.countP_eq_zero.2 fun e he hcount => ?_
  exact h e he (of_decide_eq_true hcount).2

/-- If the counts are never ahead and settled, no key ends with a trigger. -/
theorem ends_off_of_settled {events : List Event}
    (hahead : ∀ k initial, initial <+: events → count .off k initial ≤ count .on k initial)
    (hsettled : ∀ k, count .off k events = count .on k events) (initial : List Event) (e : Event)
    (rest : List Event) (hsplit : events = initial ++ e :: rest) (hrest : ∀ r ∈ rest, r.key ≠ e.key) : e.trigger = .off := by
  have hinitial := hahead e.key initial ⟨e :: rest, hsplit.symm⟩
  have hall := hsettled e.key
  rw [hsplit, ← List.singleton_append, count_append, count_append, count_append, count_append,
    count_eq_zero hrest, count_eq_zero hrest] at hall
  cases htrigger : e.trigger with
  | off => rfl
  | on =>
    have hon : count .on e.key [e] = 1 := by simp [count, htrigger]
    have hoff : count .off e.key [e] = 0 := by simp [count, htrigger]
    omega

/-- The events of some notes are counted by the notes. -/
theorem countP_flatMap_events (voice : Voice) (notes : List TimedNote) (p : Event → Bool) :
    (notes.flatMap (·.events voice)).countP p =
      notes.countP (fun n => p ⟨.on, voice.channel, n.key, voice.velocity, n.on⟩) +
      notes.countP (fun n => p ⟨.off, voice.channel, n.key, voice.velocity, n.off⟩) := by
  induction notes with
  | nil => rfl
  | cons n notes ih =>
    rw [List.flatMap_cons, List.countP_append, ih]
    simp only [TimedNote.events, List.countP_cons, List.countP_nil]
    omega

/-! ## Segments of a sorted list -/

theorem not_before_of_order {a b : Event} (h : a.order b ≠ .gt) : ¬b.time.Before a.time := by
  rw [Instant.not_before_iff]
  rw [order_ne_gt] at h
  omega

/-- What may go before an event is an initial segment. -/
theorem filter_notAfter_initial {events : List Event} (h : events.Pairwise fun a b => a.order b ≠ .gt)
    (p : Event) :
    events.filter (·.notAfter p) <+: events := by
  induction events with
  | nil => exact List.prefix_rfl
  | cons a events ih =>
    obtain ⟨ha, htail⟩ := List.pairwise_cons.1 h
    by_cases hap : a.notAfter p
    · rw [List.filter_cons_of_pos (by exact hap)]
      exact (List.prefix_cons_inj a).2 (ih htail)
    · have hnone : (a :: events).filter (·.notAfter p) = [] := by
        refine List.filter_eq_nil_iff.2 (List.forall_mem_cons.2 ⟨hap, fun b hb hbp => hap ?_⟩)
        exact notAfter_trans a b p (notAfter_iff.2 (ha b hb)) hbp
      rw [hnone]
      exact List.nil_prefix

/-- A segment with no event after `t` has at most the releases up to `t`. -/
theorem count_off_le {segment rest : List Event} {t : Instant} (h : ∀ e ∈ segment, ¬t.Before e.time) (k : Key) :
    count .off k segment ≤ (segment ++ rest).countP fun e => e.trigger = .off ∧ e.key = k ∧ ¬t.Before e.time := by
  rw [List.countP_append]
  refine le_trans (List.countP_mono_left fun e he hcount => ?_) (Nat.le_add_right _ _)
  obtain ⟨htrigger, hkey⟩ := of_decide_eq_true hcount
  exact decide_eq_true ⟨htrigger, hkey, h e he⟩

/-- A segment that leaves no event before `t` has at least the triggers before `t`. -/
theorem le_count_on {segment rest : List Event} {t : Instant} (h : ∀ e ∈ rest, ¬e.time.Before t) (k : Key) :
    (segment ++ rest).countP (fun e => e.trigger = .on ∧ e.key = k ∧ e.time.Before t) ≤ count .on k segment := by
  have hnone : rest.countP (fun e => e.trigger = .on ∧ e.key = k ∧ e.time.Before t) = 0 :=
    List.countP_eq_zero.2 fun e he hcount => h e he (of_decide_eq_true hcount).2.2
  rw [List.countP_append, hnone, Nat.add_zero]
  refine List.countP_mono_left fun e _ hcount => ?_
  obtain ⟨htrigger, hkey, -⟩ := of_decide_eq_true hcount
  exact decide_eq_true ⟨htrigger, hkey⟩

/-- What may go before a release at `t`: the releases up to `t` and the triggers before it. -/
theorem notAfter_release {e p : Event} (hp : p.trigger = .off) :
    e.notAfter p ↔ e.trigger = .off ∧ ¬p.time.Before e.time ∨ e.trigger = .on ∧ e.time.Before p.time := by
  rw [notAfter_iff, order_ne_gt, hp, Instant.not_before_iff, Instant.before_iff]
  cases e.trigger <;> simp [Trigger.rank, le_iff_lt_or_eq]

theorem count_filter_notAfter {p : Event} (hp : p.trigger = .off) (events : List Event) (k : Key) :
    count .off k (events.filter (·.notAfter p)) =
      events.countP (fun e => e.trigger = .off ∧ e.key = k ∧ ¬p.time.Before e.time) ∧
    count .on k (events.filter (·.notAfter p)) =
      events.countP (fun e => e.trigger = .on ∧ e.key = k ∧ e.time.Before p.time) := by
  unfold count
  rw [List.countP_filter, List.countP_filter]
  constructor
  · refine List.countP_congr fun e _ => ?_
    rw [Bool.and_eq_true, decide_eq_true_eq, decide_eq_true_eq, notAfter_release hp]
    cases e.trigger <;> simp
  · refine List.countP_congr fun e _ => ?_
    rw [Bool.and_eq_true, decide_eq_true_eq, decide_eq_true_eq, notAfter_release hp]
    cases e.trigger <;> simp

/-- No event up to the last one of a sorted segment comes after it, and none
that follows the segment comes before it. -/
theorem around_last {before rest : List Event} {e : Event}
    (h : (before ++ [e] ++ rest).Pairwise fun a b => a.order b ≠ .gt) :
    (∀ a ∈ before ++ [e], ¬e.time.Before a.time) ∧ ∀ r ∈ rest, ¬r.time.Before e.time := by
  obtain ⟨hsegment, -, hcross⟩ := List.pairwise_append.1 h
  obtain ⟨-, -, hbefore⟩ := List.pairwise_append.1 hsegment
  constructor
  · intro a ha
    rcases List.mem_append.1 ha with ha | ha
    · exact not_before_of_order (hbefore a ha e List.mem_cons_self)
    · rw [List.mem_singleton.1 ha]
      exact not_before_of_order (by simp [order_self])
  · intro r hr
    exact not_before_of_order (hcross e (List.mem_append_right _ List.mem_cons_self) r hr)

end Event

/-! ## Sorted events of notes -/

section StableSort

variable {notes : List TimedNote} {voice : Voice} {events : List Event}

/-- What begins before `t` either sounds through `t` or has ended by then, and
what is ended by then began before `t` or is no more than that instant. -/
theorem balance_at (hord : ∀ n ∈ notes, ¬n.off.Before n.on) (k : Key) (t : Instant) :
    notes.countP (fun n => n.key = k ∧ n.on.Before t) + notes.countP (fun n => n.key = k ∧ n.on = t ∧ n.off = t) =
      notes.countP (fun n => n.key = k ∧ n.on.Before t ∧ t.Before n.off) +
        notes.countP (fun n => n.key = k ∧ ¬t.Before n.off) := by
  induction notes with
  | nil => rfl
  | cons n notes ih =>
    obtain ⟨hn, hrest⟩ := List.forall_mem_cons.1 hord
    have hih := ih hrest
    rw [Instant.not_before_iff] at hn
    simp only [List.countP_cons, decide_eq_true_eq, Instant.before_iff, Instant.eq_iff_rank] at hih ⊢
    -- Where `n` adds to one side it adds as much to the other, as its instants are in order.
    by_cases hkey : n.key = k
    · simp only [hkey, true_and] at hih ⊢
      split_ifs <;> omega
    · simp only [hkey, false_and, if_false] at hih ⊢
      omega

theorem counts_at (h : Event.StableSort (notes.flatMap (·.events voice)) events) (k : Key) (t : Instant) :
    events.countP (fun e => e.trigger = .off ∧ e.key = k ∧ ¬t.Before e.time) =
      notes.countP (fun n => n.key = k ∧ ¬t.Before n.off) ∧
    events.countP (fun e => e.trigger = .on ∧ e.key = k ∧ e.time.Before t) =
      notes.countP (fun n => n.key = k ∧ n.on.Before t) := by
  rw [h.perm.countP_eq, h.perm.countP_eq, Event.countP_flatMap_events, Event.countP_flatMap_events]
  simp

theorem count_settled (h : Event.StableSort (notes.flatMap (·.events voice)) events) (k : Key) :
    Event.count .off k events = Event.count .on k events := by
  unfold Event.count
  rw [h.perm.countP_eq, h.perm.countP_eq, Event.countP_flatMap_events, Event.countP_flatMap_events]
  simp

/-- The events of some notes, none of which ends before it begins, release every
note if and only if the notes are covered. -/
theorem released_iff (h : Event.StableSort (notes.flatMap (·.events voice)) events)
    (hord : ∀ n ∈ notes, ¬n.off.Before n.on) : Released events ↔ Covered notes := by
  constructor
  · -- What may go before a release at `t` is an initial segment.
    intro hreleased k t
    let p : Event := ⟨.off, voice.channel, k, voice.velocity, t⟩
    have hahead := hreleased.never_ahead k _ (Event.filter_notAfter_initial h.ordered p)
    obtain ⟨hoff, hon⟩ := Event.count_filter_notAfter (p := p) rfl events k
    obtain ⟨hoffs, hons⟩ := counts_at h k t
    have hbalance := balance_at hord k t
    rw [hoff, hon, hoffs, hons] at hahead
    omega
  · intro hcovered
    have hahead : ∀ k initial, initial <+: events → Event.count .off k initial ≤ Event.count .on k initial := by
      rintro k initial ⟨rest, rfl⟩
      rcases List.eq_nil_or_concat initial with rfl | ⟨before, e, rfl⟩
      · exact le_rfl
      · -- The count is lowest after the releases at the instant of the last event.
        rw [List.concat_eq_append] at h ⊢
        obtain ⟨hupto, hfrom⟩ := Event.around_last h.ordered
        obtain ⟨hoffs, hons⟩ := counts_at h k e.time
        calc Event.count .off k (before ++ [e])
            ≤ notes.countP (fun n => n.key = k ∧ ¬e.time.Before n.off) := hoffs ▸ Event.count_off_le hupto k
          _ ≤ notes.countP (fun n => n.key = k ∧ n.on.Before e.time) := by
              have hbalance := balance_at hord k e.time
              have hcov := hcovered k e.time
              omega
          _ ≤ Event.count .on k (before ++ [e]) := hons ▸ Event.le_count_on hfrom k
    exact ⟨hahead, count_settled h, Event.ends_off_of_settled hahead (count_settled h)⟩

end StableSort

/-! ## Main theorem -/

/-- From a finite start and with an accepted timing, dispatching a compiled
sequence releases every note after it was triggered if and only if its notes are
covered. -/
theorem Sequence.compile_released_iff {root : Arrangement} {start : Instant} {timing : Timing} {voice : Voice}
    {s : Sequence} {beatsPerMeasure beatsPerNote : Nat} {beatsPerMinute : Binary64} (built : root.Built)
    (hstart : start.seconds.isFinite)
    (htiming : Timing.ofBeats beatsPerMeasure beatsPerNote beatsPerMinute = .ok timing)
    (h : compile root start timing voice = .ok s) :
    Released s.events ↔ Covered (root.timedNotes timing start) := by
  have hc := compiled built h
  exact released_iff hc.sorted (hc.not_off_before_on (Timing.ofBeats_isPositive htiming) hstart)

theorem compile_released_touching :
    touching.Built ∧ Timing.ofBeats 4 4 (.ofNat 60) = .ok crotchets ∧
      Sequence.compile touching ⟨.zero⟩ crotchets default = .ok touchingSequence ∧
      Released touchingSequence.events := by
  have hcovered : Covered (touching.timedNotes crotchets ⟨.zero⟩) := by
    rw [touching_timedNotes]
    exact covered_of_visible (by decide +kernel)
  refine ⟨touching_built, crotchets_eq, touching_compiles, ?_⟩
  exact (Sequence.compile_released_iff touching_built (by decide) crotchets_eq touching_compiles).2 hcovered

/-- A note of length zero is released before it is triggered. -/
theorem empty_note_not_released :
    (c4 .zero).Built ∧ Timing.ofBeats 4 4 (.ofNat 60) = .ok crotchets ∧
      ∃ s, Sequence.compile (c4 .zero) ⟨.zero⟩ crotchets default = .ok s ∧ ¬Released s.events := by
  have hbuilt : (c4 .zero).Built := .note _ NoteLength.zero_valid
  have hplace : (c4 .zero).place .zero = .ok (.zero, [⟨default, .zero, .zero⟩]) := by decide +kernel
  obtain ⟨s, h⟩ : ∃ s, Sequence.compile (c4 .zero) ⟨.zero⟩ crotchets default = .ok s :=
    ⟨_, Sequence.compile_eq_ok.2 ⟨_, _, hplace, rfl⟩⟩
  refine ⟨hbuilt, crotchets_eq, s, h, fun hreleased => ?_⟩
  -- At the start one note begins and ends on middle C, and none sounds through.
  have hsorted := (Sequence.compiled hbuilt h).sorted
  have hcovered := (released_iff hsorted (by decide +kernel)).1 hreleased default ⟨.zero⟩
  revert hcovered
  decide +kernel

end ScoreSequencer
