import Mathlib
import ScoreSequencer.Proofs.Playback.Lateness
import ScoreSequencer.Proofs.Sequence.Bounds
/-!
# Playing a sequence again

No event of a compiled sequence comes after its end, and a playback that succeeds ends
there or later. From then on everything in the sequence is due, and stays so since time
does not go back. So whenever the sequence is played again nothing is waited for: all
messages are sent at once, and late are the events whose instants are past by then.
-/

namespace ScoreSequencer

/-! ## When everything is due -/

namespace VirtualClock

variable {c : VirtualClock} {target : Instant}

/-- A clock that has come to a finite instant does not fall behind it by spending time. -/
theorem le_spend {cost : Option Span} (hcost : ∀ x, cost = some x → Binary64.zero.le x.seconds)
    (ht : target.seconds.isFinite) (h : target ≤ c.now) : target ≤ (c.spend cost).now := by
  cases cost with
  | none => exact h
  | some x => exact Binary64.le_add_of_le ht h (hcost x rfl)

end VirtualClock

section Due

variable {instrument : Instrument} (hcost : ∀ n d, instrument.cost n = some d → Binary64.zero.le d.seconds)
  {target : Instant} (ht : target.seconds.isFinite)

include hcost ht

/-- The turn of an event that is due takes no sleep. -/
theorem Progress.turn_due {p : Progress} {e : Event} (he : e.time.seconds.isFinite) (hdue : e.time ≤ target)
    (hpast : target ≤ p.clock.now) : (p.turn instrument.cost e).clock.sleeps = p.clock.sleeps ∧
      target ≤ (p.turn instrument.cost e).clock.now := by
  have hreach : p.clock.reach e.time = p.clock := VirtualClock.reach_of_due he (Instant.le_trans hdue hpast)
  rw [turn, hreach]
  exact ⟨VirtualClock.sleeps_spend _ _, VirtualClock.le_spend (hcost p.attempts) ht hpast⟩

/-- Nor do the turns of many of them, however they end. -/
theorem Played.due {p : Progress} {events : List Event} {outcome : Except Fault Playback}
    {turns : List (Turn VirtualClock)} {last : VirtualClock} (h : Played instrument p events outcome turns last)
    (hfinite : ∀ e ∈ events, e.time.seconds.isFinite) (hdue : ∀ e ∈ events, e.time ≤ target)
    (hpast : target ≤ p.clock.now) :
    last.sleeps = p.clock.sleeps ∧ target ≤ last.now ∧ ∀ turn ∈ turns, target ≤ turn.came.now := by
  induction h with
  | done p => exact ⟨rfl, hpast, by simp⟩
  | @next p e events outcome turns last hanswer hrest ih =>
    obtain ⟨he, hfinite⟩ := List.forall_mem_cons.1 hfinite
    obtain ⟨hfirst, hdue⟩ := List.forall_mem_cons.1 hdue
    obtain ⟨hsleeps, hnext⟩ := Progress.turn_due hcost ht he hfirst hpast
    obtain ⟨hrest, hlast, hcame⟩ := ih hfinite hdue hnext
    exact ⟨hrest.trans hsleeps, hlast, List.forall_mem_cons.2 ⟨hpast, hcame⟩⟩
  | @stop p e events fault hanswer =>
    obtain ⟨he, -⟩ := List.forall_mem_cons.1 hfinite
    obtain ⟨hfirst, -⟩ := List.forall_mem_cons.1 hdue
    obtain ⟨hsleeps, hnext⟩ := Progress.turn_due hcost ht he hfirst hpast
    refine ⟨(VirtualClock.sleeps_spend _ _).trans hsleeps, ?_, ?_⟩
    · exact VirtualClock.le_spend (hcost (p.turn instrument.cost e).attempts) ht hnext
    · exact List.forall_mem_cons.2 ⟨hpast, List.forall_mem_singleton.2 hnext⟩

end Due

/-! ## Sequences in finite time -/

/-- The events of a sequence are at finite instants, none of them after the end, which is finite too. -/
structure Sequence.Bounded (s : Sequence) : Prop where
  finite : ∀ e ∈ s.events, e.time.seconds.isFinite
  endTime_finite : s.endTime.seconds.isFinite
  le_endTime : ∀ e ∈ s.events, e.time ≤ s.endTime

/-- If what is compiled is all in finite time, then its start is, and the walk keeps to its slot. -/
theorem Sequence.Compiled.bounded {root : Arrangement} {start : Instant} {timing : Timing} {voice : Voice} {s : Sequence}
    (hc : Compiled root start timing voice s) (built : root.Built) (hpos : timing.secondsPerNote.isPositive)
    (hfinite : ∀ e ∈ s.events, e.time.seconds.isFinite) (hend : s.endTime.seconds.isFinite) : s.Bounded := by
  have hstart : start.seconds.isFinite := by
    rw [endTime, hc.start_eq] at hend
    exact Binary64.finite_of_add hend
  exact ⟨hfinite, hend, hc.le_endTime built hpos hstart⟩

namespace Rehearsal

/-- A sequence is played without any sleep. All its messages are taken in order, the events whose
instants are past when their turns come are reported as late, and no others, and they are counted. -/
structure PlaysAtOnce (instrument : Instrument) (s : Sequence) (r : Rehearsal) : Prop where
  sleeps : (r.play instrument s).2.clock.sleeps = r.clock.sleeps
  turns : (r.turns instrument s).map (fun turn => (turn.message, turn.answer)) =
    s.events.map fun e => (e.message, .ok ())
  reports : (r.play instrument s).2.reports = r.reports ++
    (s.events.zip (r.turns instrument s)).filterMap fun p => (p.2.delay? p.1).map p.1.lateLine
  figures : ∃ figures, (r.play instrument s).1 = .ok figures ∧ figures.dispatched = s.events.length ∧
    figures.late = (s.events.zip (r.turns instrument s)).countP fun p => p.1.time < p.2.came.now

/-- The rehearsal after a sequence has been played so many times. -/
def replayed (instrument : Instrument) (s : Sequence) (r : Rehearsal) : Nat → Rehearsal
  | 0 => r
  | n + 1 => ((replayed instrument s r n).play instrument s).2

variable {instrument : Instrument} {s : Sequence} {r : Rehearsal}

section Again

variable (hcost : ∀ n d, instrument.cost n = some d → Binary64.zero.le d.seconds)

include hcost

/-- After the end a sequence is played without any sleep, and the end stays past. -/
theorem play_due (hs : s.Bounded) (hpast : s.endTime ≤ r.clock.now) :
    (r.play instrument s).2.clock.sleeps = r.clock.sleeps ∧ s.endTime ≤ (r.play instrument s).2.clock.now ∧
      ∀ turn ∈ r.turns instrument s, s.endTime ≤ turn.came.now := by
  obtain ⟨last, hplayed, hclock⟩ := play_played instrument s r
  obtain ⟨hsleeps, hlast, hturns⟩ := hplayed.due hcost hs.endTime_finite hs.finite hs.le_endTime hpast
  have hheld : (r.play instrument s).2.clock = last := by
    rw [hclock]
    cases (r.play instrument s).1 with
    | ok figures => exact VirtualClock.reach_of_due hs.endTime_finite hlast
    | error fault => rfl
  rw [hheld]
  exact ⟨hsleeps, hlast, hturns⟩

theorem playsAtOnce (htaken : ∀ n, instrument.answer n = .ok ()) (hs : s.Bounded) (hpast : s.endTime ≤ r.clock.now) :
    PlaysAtOnce instrument s r := by
  obtain ⟨hsleeps, -, hcame⟩ := play_due hcost hs hpast
  have hnum : ∀ turn ∈ r.turns instrument s, turn.came.now.seconds.isNaN = false := fun turn hturn =>
    (Instant.number_of_le (hcame turn hturn)).2
  obtain ⟨hturns, figures, hok, hdispatched, hlate, -⟩ := play_figures htaken hs.finite hnum
  exact ⟨hsleeps, hturns, play_reports htaken hs.finite hnum, figures, hok, hdispatched, hlate⟩

/-- Once the end of a sequence is past, it stays so however often the sequence is played. -/
theorem replayed_due (hs : s.Bounded) (hpast : s.endTime ≤ r.clock.now) (n : Nat) :
    s.endTime ≤ (r.replayed instrument s n).clock.now := by
  induction n with
  | zero => exact hpast
  | succ n ih => exact (play_due hcost hs ih).2.1

end Again

/-! ## Main theorem -/

/-- Playing a compiled sequence again never sleeps. Once a playback of it has succeeded, on a
clock that does not oversleep by a negative span and with an instrument that takes every message
and no negative time, every further one sends all messages again without any sleep, and reports
and counts as late just the events whose instants are before the clock when their turns come. -/
theorem replayed_plays_at_once {root : Arrangement} {start : Instant} {timing : Timing} {voice : Voice}
    {beatsPerMeasure beatsPerNote : Nat} {beatsPerMinute : Binary64} (built : root.Built)
    (htiming : Timing.ofBeats beatsPerMeasure beatsPerNote beatsPerMinute = .ok timing)
    (hcompile : Sequence.compile root start timing voice = .ok s)
    (hfinite : ∀ e ∈ s.events, e.time.seconds.isFinite) (hend : s.endTime.seconds.isFinite)
    (htaken : ∀ n, instrument.answer n = .ok ())
    (hcost : ∀ n d, instrument.cost n = some d → Binary64.zero.le d.seconds)
    (ho : r.clock.oversleep.isNegative = false) {figures : Playback} (hok : (r.play instrument s).1 = .ok figures)
    (hlast : (r.play instrument s).2.clock.now.seconds.isNaN = false) :
    ∀ n, PlaysAtOnce instrument s ((r.play instrument s).2.replayed instrument s n) := by
  intro n
  have hpos := Timing.ofBeats_isPositive htiming
  have hs := (Sequence.compiled built hcompile).bounded built hpos hfinite hend
  have hforward : ∀ n d, instrument.cost n = some d → d.isNegative = false := fun n d h =>
    (Span.isNegative_eq_false (Binary64.le_iff.1 (hcost n d h)).2.1).2 (hcost n d h)
  have hpast := endTime_le_of_ok hforward ho hend hlast hok
  exact playsAtOnce hcost htaken hs (replayed_due hcost hs hpast n)

/-- The restless clock sleeps twice for the release of the note, and not any more when the note
is played again: both events are late then, and they are sent at the same instant. -/
theorem replayed_plays_at_once_restless :
    (restless.play sluggish crotchetSequence).2.clock.sleeps.size = 2 ∧
    (∀ n, PlaysAtOnce sluggish crotchetSequence
      ((restless.play sluggish crotchetSequence).2.replayed sluggish crotchetSequence n)) ∧
    ((restless.play sluggish crotchetSequence).2.play sluggish crotchetSequence).1 =
      .ok ⟨2, 2, ⟨.ofNat 5 / .ofNat 4⟩⟩ := by
  have hbuilt : (c4 .quarter).Built := .note _ quarter_valid
  have hfinite : ∀ e ∈ crotchetSequence.events, e.time.seconds.isFinite := by decide +kernel
  have hcost : ∀ n d, sluggish.cost n = some d → Binary64.zero.le d.seconds := by
    intro n d h
    simp only [sluggish, Instrument.cost] at h
    split_ifs at h
    obtain rfl := Option.some.inj h
    decide +kernel
  have hok : (restless.play sluggish crotchetSequence).1 = .ok ⟨2, 0, .zero⟩ := by decide +kernel
  refine ⟨by decide +kernel, ?_, by decide +kernel⟩
  exact replayed_plays_at_once hbuilt crotchets_eq crotchet_compiles hfinite (by decide +kernel) (fun _ => rfl) hcost
    (by decide +kernel) hok (by decide +kernel)

end Rehearsal

end ScoreSequencer
