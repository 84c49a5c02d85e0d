import Mathlib
import ScoreSequencer.Proofs.Playback.Silence
import ScoreSequencer.Proofs.Playback.Timeline
/-!
# Traces

A recorder takes and refuses attempts by their numbers. Together with the time that they
take, this pattern gives every rehearsal: what is attempted, what is answered, and where
the clock stands in the end (`play_trace`).
-/

namespace ScoreSequencer

/-- Events that are taken are attempted one after another, whatever follows them. -/
theorem Played.of_taken {instrument : Instrument} {p : Progress} {taken rest : List Event}
    {outcome : Except Fault Playback} {turns : List (Turn VirtualClock)} {last : VirtualClock}
    (h : Played instrument p (taken ++ rest) outcome turns last)
    (htaken : ∀ i < taken.length, instrument.answer (p.attempts + i) = .ok ()) : ∃ others,
    turns.map Turn.attempt = (taken.map fun e => .taken e.message) ++ others.map Turn.attempt ∧
    Played instrument (p.turns instrument.cost taken) rest outcome others last := by
  induction taken generalizing p turns with
  | nil => exact ⟨turns, rfl, h⟩
  | cons e taken ih =>
    have hfirst := htaken 0 (Nat.zero_lt_succ _)
    cases h with
    | next hanswer hrest =>
      have hnext : ∀ i < taken.length, instrument.answer ((p.turn instrument.cost e).attempts + i) = .ok () := by
        intro i hi
        have hsucc := htaken (i + 1) (Nat.succ_lt_succ hi)
        rwa [Nat.add_comm i, ← Nat.add_assoc] at hsucc
      obtain ⟨others, hattempts, hplayed⟩ := ih hrest hnext
      refine ⟨others, ?_, hplayed⟩
      rw [List.map_cons, hattempts, Turn.attempt, Progress.attempt, hanswer]
      rfl
    | stop hanswer =>
      rw [Nat.add_zero, hanswer] at hfirst
      cases hfirst

namespace Rehearsal

variable {cost : Nat → Option Span} {failure : Nat → Option Fault} {s : Sequence} {r : Rehearsal}

/-- How far a rehearsal has come after events that are taken. -/
def after (cost : Nat → Option Span) (r : Rehearsal) (figures : Playback) (events : List Event) : Progress :=
  Progress.turns cost ⟨r.clock, r.attempts, figures⟩ events

/-- A playback whose events are all taken holds until the end of the piece. -/
theorem play_of_taken (htaken : ∀ i < s.events.length, failure (r.attempts + i) = none) :
    (r.play (.recorder cost failure) s).1 = .ok (r.after cost {} s.events).figures ∧
    (stage (.recorder cost failure)).attempts s r = (s.events.map fun e => .taken e.message) ∧
    (r.play (.recorder cost failure) s).2.clock = (r.after cost {} s.events).clock.reach s.endTime := by
  obtain ⟨last, hplayed, hclock⟩ := play_played (.recorder cost failure) s r
  rw [← List.append_nil s.events] at hplayed
  obtain ⟨others, hattempts, hrest⟩ := hplayed.of_taken fun i hi => answer_of_none (htaken i hi)
  rw [attempts_eq_turns, hattempts, hclock]
  generalize (r.play (.recorder cost failure) s).1 = outcome at hrest ⊢
  cases hrest
  exact ⟨rfl, List.append_nil _, rfl⟩

/-- A playback in which one event is refused after others were taken ends with that event. -/
theorem play_of_refused (cost : Nat → Option Span) {taken rest : List Event} {e : Event} {fault : Fault}
    (hevents : s.events = taken ++ e :: rest)
    (htaken : ∀ i < taken.length, failure (r.attempts + i) = none)
    (hrefused : failure (r.attempts + taken.length) = some fault) :
    (r.play (.recorder cost failure) s).1 = .error fault ∧
    (stage (.recorder cost failure)).attempts s r = (taken.map fun e => .taken e.message) ++
      [.refused e.message fault, ⟨.allNotesOff e.channel, answer failure (r.attempts + taken.length + 1)⟩] ∧
    (r.play (.recorder cost failure) s).2.clock.sleeps = ((r.after cost {} taken).clock.reach e.time).sleeps := by
  obtain ⟨last, hplayed, hclock⟩ := play_played (.recorder cost failure) s r
  rw [hevents] at hplayed
  obtain ⟨others, hattempts, hrest⟩ := hplayed.of_taken fun i hi => answer_of_none (htaken i hi)
  have hcount := Progress.attempts_turns cost ⟨r.clock, r.attempts, {}⟩ taken
  have hanswer : (Instrument.recorder cost failure).answer (r.after cost {} taken).attempts = .error fault := by
    rw [after, hcount]
    exact answer_of_some hrefused
  rw [attempts_eq_turns, hattempts, hclock]
  generalize (r.play (.recorder cost failure) s).1 = outcome at hrest ⊢
  cases hrest with
  | next htaken => nomatch hanswer.symm.trans htaken
  | stop hfault =>
    cases hanswer.symm.trans hfault
    refine ⟨rfl, ?_, ?_⟩
    · rw [List.map_cons, List.map_singleton, Turn.attempt, Turn.attempt, Progress.attempt, Progress.release, hfault]
      rw [← hcount]
      rfl
    · exact (VirtualClock.sleeps_spend _ _).trans (VirtualClock.sleeps_spend _ _)

/-! ## Main theorem -/

/-- A rehearsal follows its pattern of failures. If no event is refused, the
messages of all events are attempted in order and nothing else is, and the clock
waits for the end. If event `i` is the first one refused, the attempts end with it
and one release of its channel, the outcome is its fault whatever becomes of the
release, and every sleep was requested before the attempt: by the turns of the
events before it or by the wait for its own instant. -/
theorem play_trace (cost : Nat → Option Span) (failure : Nat → Option Fault) (s : Sequence) (r : Rehearsal) :
    ((∀ i < s.events.length, failure (r.attempts + i) = none) →
      ∃ figures, (r.play (.recorder cost failure) s).1 = .ok figures ∧ figures.dispatched = s.events.length ∧
        (stage (.recorder cost failure)).attempts s r = (s.events.map fun e => .taken e.message) ∧
        (∀ e ∈ s.events, ∀ c, e.message ≠ .allNotesOff c) ∧
        (r.play (.recorder cost failure) s).2.clock = (r.after cost {} s.events).clock.reach s.endTime) ∧
    ∀ i e fault, s.events[i]? = some e → (∀ j < i, failure (r.attempts + j) = none) →
      failure (r.attempts + i) = some fault →
        (r.play (.recorder cost failure) s).1 = .error fault ∧
        (stage (.recorder cost failure)).attempts s r = ((s.events.take i).map fun e => .taken e.message) ++
          [.refused e.message fault, ⟨.allNotesOff e.channel, answer failure (r.attempts + i + 1)⟩] ∧
        (r.play (.recorder cost failure) s).2.clock.sleeps =
          ((r.after cost {} (s.events.take i)).clock.reach e.time).sleeps := by
  constructor
  · intro htaken
    obtain ⟨houtcome, hattempts, hclock⟩ := play_of_taken htaken
    refine ⟨_, houtcome, ?_, hattempts, fun e _ c => ?_, hclock⟩
    · rw [after, Progress.dispatched_turns]
      exact Nat.zero_add _
    · unfold Event.message
      cases e.trigger <;> nofun
  · intro i e fault he htaken hrefused
    obtain ⟨hi, rfl⟩ := List.getElem?_eq_some_iff.1 he
    have hlength : (s.events.take i).length = i := List.length_take_of_le hi.le
    have hevents : s.events = s.events.take i ++ s.events[i] :: s.events.drop (i + 1) := by
      rw [← List.drop_eq_getElem_cons hi, List.take_append_drop]
    rw [← hlength] at htaken hrefused
    have hplay := play_of_refused cost hevents htaken hrefused
    rwa [hlength] at hplay

/-- Failures from some attempt on. -/
def unpluggedFrom (first : Nat) (attempt : Nat) : Option Fault :=
  if attempt < first then none else some (.transmission "unplugged")

/-- A quarter that is played, and one whose release is refused, as is the release of its channel. -/
theorem play_trace_crotchet :
    ((∀ i < crotchetSequence.events.length, unpluggedFrom 2 (atZero.attempts + i) = none) ∧
      ∃ figures, (atZero.play (.recorder (fun _ => none) (unpluggedFrom 2)) crotchetSequence).1 = .ok figures ∧
        figures.dispatched = 2) ∧
    ((∀ j < 1, unpluggedFrom 1 (atZero.attempts + j) = none) ∧
      unpluggedFrom 1 (atZero.attempts + 1) = some (.transmission "unplugged") ∧
      (atZero.play (.recorder (fun _ => none) (unpluggedFrom 1)) crotchetSequence).1 =
        .error (.transmission "unplugged") ∧
      (stage (.recorder (fun _ => none) (unpluggedFrom 1))).attempts crotchetSequence atZero =
        [.taken (.noteOn default default default),
          .refused (.noteOff default default default) (.transmission "unplugged"),
          .refused (.allNotesOff default) (.transmission "unplugged")] ∧
      (atZero.play (.recorder (fun _ => none) (unpluggedFrom 1)) crotchetSequence).2.clock.sleeps =
        (atZero.clock.reach ⟨.ofNat 1⟩).sleeps) := by
  have htaken : ∀ i < crotchetSequence.events.length, unpluggedFrom 2 (atZero.attempts + i) = none := by decide
  have hfirst : ∀ j < 1, unpluggedFrom 1 (atZero.attempts + j) = none := by decide
  obtain ⟨figures, houtcome, hdispatched, -⟩ :=
    (play_trace (fun _ => none) (unpluggedFrom 2) crotchetSequence atZero).1 htaken
  obtain ⟨-, hfailed⟩ := play_trace (fun _ => none) (unpluggedFrom 1) crotchetSequence atZero
  obtain ⟨hrefused, hattempts, hsleeps⟩ := hfailed 1 _ (.transmission "unplugged") rfl hfirst rfl
  -- The trigger is due at once, so the clock still stands at zero when it waits for the release.
  exact ⟨⟨htaken, figures, houtcome, hdispatched⟩, hfirst, rfl, hrefused, hattempts, hsleeps⟩

end Rehearsal

end ScoreSequencer
