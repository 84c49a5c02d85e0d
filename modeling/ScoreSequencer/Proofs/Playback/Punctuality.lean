import Mathlib
import ScoreSequencer.Proofs.Playback.Silence
import ScoreSequencer.Proofs.Playback.Waiting
/-!
# Punctuality

Along the turns of a rehearsal its clock never goes back, and every wait ends at or
after its instant, so no event is sent early, whatever the clock does and however the
playback ends. Where the instrument takes no time and refuses nothing, being late by
at most one oversleep is kept from event to event: jitter does not accumulate.
-/

namespace ScoreSequencer

open VirtualClock (Later)

/-- The clocks of a turn, in the order in which they are read. -/
def Turn.clocks (t : Turn VirtualClock) : List VirtualClock := [t.came, t.asked, t.answered]

namespace Progress

variable {instrument : Instrument} {p : Progress} {last : VirtualClock}
  (hcost : ∀ n d, instrument.cost n = some d → d.isNegative = false)

include hcost

/-- The wait and the attempt of an event lead the clock forward. -/
theorem later_turn (ho : p.clock.oversleep.isNegative = false) (e : Event) :
    Later p.clock (p.clock.reach e.time) ∧ Later (p.clock.reach e.time) (p.turn instrument.cost e).clock :=
  ⟨VirtualClock.later_reach ho e.time, VirtualClock.later_spend (hcost p.attempts)⟩

theorem oversleep_turn (ho : p.clock.oversleep.isNegative = false) (e : Event) :
    (p.turn instrument.cost e).clock.oversleep.isNegative = false := by
  obtain ⟨hreach, hspend⟩ := later_turn hcost ho e
  rw [(hreach.trans hspend).oversleep]
  exact ho

/-- An attempt that time goes on from is not early, and it is made at once if its event is due. -/
theorem attempt_due (ho : p.clock.oversleep.isNegative = false) {e : Event}
    (he : e.time.seconds.isFinite) (hlater : Later (p.turn instrument.cost e).clock last)
    (hlast : last.now.seconds.isNaN = false) :
    e.time ≤ (p.attempt instrument e).asked.now ∧
      (e.time ≤ (p.attempt instrument e).came.now → (p.attempt instrument e).asked = (p.attempt instrument e).came) := by
  have hasked := ((later_turn hcost ho e).2.trans hlater).le hlast
  exact ⟨VirtualClock.reach_due he ho (Instant.number_of_le hasked).1, VirtualClock.reach_of_due he⟩

end Progress

/-- The events of a compiled sequence follow one another in time. -/
theorem Sequence.events_in_time {s : Sequence} {root : Arrangement} {start : Instant} {timing : Timing} {voice : Voice}
    (h : compile root start timing voice = .ok s) (hfinite : ∀ e ∈ s.events, e.time.seconds.isFinite) :
    s.events.Pairwise fun e f => e.time ≤ f.time := by
  obtain ⟨length, notes, -, rfl⟩ := compile_eq_ok.1 h
  refine (Event.mergeSort_ordered _).imp_of_mem fun {e f} he hf horder => ?_
  refine Binary64.le_of_rank (Binary64.isNaN_of_isFinite (hfinite e he)) (Binary64.isNaN_of_isFinite (hfinite f hf)) ?_
  rcases Event.order_ne_gt.1 horder with hlt | ⟨heq, -⟩
  · exact hlt.le
  · exact heq.le

namespace Played

variable {instrument : Instrument} {p : Progress} {events : List Event} {outcome : Except Fault Playback}
  {turns : List (Turn VirtualClock)} {last : VirtualClock}

/-! ## No event is sent early -/

section Costs

variable (hcost : ∀ n d, instrument.cost n = some d → d.isNegative = false)

include hcost

/-- From one clock to the next time does not go back. -/
theorem chain (h : Played instrument p events outcome turns last) (ho : p.clock.oversleep.isNegative = false) :
    (p.clock :: turns.flatMap Turn.clocks ++ [last]).IsChain Later := by
  induction h with
  | done p => exact .cons_cons (Later.refl _) (.singleton _)
  | @next p e events outcome turns last hanswer hrest ih =>
    obtain ⟨hreach, hspend⟩ := Progress.later_turn hcost ho e
    exact .cons_cons (Later.refl _) (.cons_cons hreach (.cons_cons hspend (ih (Progress.oversleep_turn hcost ho e))))
  | @stop p e events fault hanswer =>
    obtain ⟨hreach, hspend⟩ := Progress.later_turn hcost ho e
    have hrelease := VirtualClock.later_spend (c := (p.turn instrument.cost e).clock)
      (hcost (p.turn instrument.cost e).attempts)
    exact .cons_cons (Later.refl _) (.cons_cons hreach (.cons_cons hspend (.cons_cons (Later.refl _)
      (.cons_cons (Later.refl _) (.cons_cons hrelease (.cons_cons (Later.refl _) (.singleton _)))))))

theorem pairwise (h : Played instrument p events outcome turns last) (ho : p.clock.oversleep.isNegative = false) :
    (p.clock :: turns.flatMap Turn.clocks ++ [last]).Pairwise Later :=
  List.isChain_iff_pairwise.1 (h.chain hcost ho)

theorem later (h : Played instrument p events outcome turns last) (ho : p.clock.oversleep.isNegative = false) :
    Later p.clock last :=
  List.rel_of_pairwise_cons (h.pairwise hcost ho) (by simp)

/-- The turns are attempts to send the first events, none of them early, and releases of channels. -/
theorem attempts (h : Played instrument p events outcome turns last) (ho : p.clock.oversleep.isNegative = false)
    (hfinite : ∀ e ∈ events, e.time.seconds.isFinite) (hlast : last.now.seconds.isNaN = false) :
    ∃ sent released, turns = sent ++ released ∧
      List.Forall₂ (fun e turn => turn.message = e.message ∧ e.time ≤ turn.asked.now ∧
        (e.time ≤ turn.came.now → turn.asked = turn.came)) (events.take sent.length) sent ∧
      ∀ turn ∈ released, ∃ c, turn.message = .allNotesOff c := by
  induction h with
  | done p => exact ⟨[], [], rfl, .nil, by simp⟩
  | @next p e events outcome turns last hanswer hrest ih =>
    obtain ⟨he, hevents⟩ := List.forall_mem_cons.1 hfinite
    have hover := Progress.oversleep_turn hcost ho e
    obtain ⟨sent, released, rfl, hsent, hreleased⟩ := ih hover hevents hlast
    have hdue := Progress.attempt_due hcost ho he (hrest.later hcost hover) hlast
    exact ⟨p.attempt instrument e :: sent, released, rfl, .cons ⟨rfl, hdue⟩ hsent, hreleased⟩
  | @stop p e events fault hanswer =>
    obtain ⟨he, -⟩ := List.forall_mem_cons.1 hfinite
    have hrelease := VirtualClock.later_spend (c := (p.turn instrument.cost e).clock)
      (hcost (p.turn instrument.cost e).attempts)
    refine ⟨[p.attempt instrument e], [(p.turn instrument.cost e).release instrument e.channel], rfl, ?_, ?_⟩
    · exact .cons ⟨rfl, Progress.attempt_due hcost ho he hrelease hlast⟩ .nil
    · simp [Progress.release]

end Costs

/-! ## Jitter does not accumulate -/

/-- The events to come are in order, and none of them has been due for longer than one oversleep. -/
structure OnSchedule (p : Progress) (events : List Event) : Prop where
  oversleep : Binary64.zero.le p.clock.oversleep.seconds
  finite : ∀ e ∈ events, e.time.seconds.isFinite
  ordered : events.Pairwise fun e f => e.time ≤ f.time
  soon : ∀ e ∈ events, p.clock.now ≤ e.time + p.clock.oversleep

/-- A clock that has not passed the first event is on schedule. -/
theorem OnSchedule.of_head (ho : Binary64.zero.le p.clock.oversleep.seconds)
    (hfinite : ∀ e ∈ events, e.time.seconds.isFinite) (hordered : events.Pairwise fun e f => e.time ≤ f.time)
    (hstart : ∀ e ∈ events.head?, p.clock.now ≤ e.time) : OnSchedule p events := by
  refine ⟨ho, hfinite, hordered, fun e he => ?_⟩
  have hover := Binary64.le_add_of_nonneg ho (Binary64.add_isNaN (hfinite e he) (Binary64.le_iff.1 ho).2.1)
  refine Instant.le_trans ?_ hover
  cases events with
  | nil => nomatch he
  | cons first rest =>
    have hfirst := hstart first rfl
    rcases List.mem_cons.1 he with rfl | he
    · exact hfirst
    · exact Instant.le_trans hfirst (List.rel_of_pairwise_cons hordered he)

/-- On a clock that does not oversleep, an event on schedule is not late. -/
theorem OnSchedule.figures_turn {e : Event} (h : OnSchedule p (e :: events))
    (hexactly : p.clock.oversleep.seconds.eqv .zero) (cost : Nat → Option Span) :
    (p.turn cost e).figures = p.figures.sent := by
  have he := h.finite e List.mem_cons_self
  have hlate := VirtualClock.lateness_of_le he (Instant.le_of_le_add_zero he hexactly (h.soon e List.mem_cons_self))
  rw [Progress.turn, Playback.turn, hlate]
  rfl

section Free

variable (hfree : ∀ n d, instrument.cost n = some d → d.seconds.eqv .zero)

include hfree

theorem cost_of_free (n : Nat) (d : Span) (h : instrument.cost n = some d) : d.isNegative = false := by
  have hzero := Binary64.eqv_symm (hfree n d h)
  exact (Span.isNegative_eq_false (Binary64.eqv_iff.1 hzero).2.1).2 (Binary64.le_of_eqv hzero)

/-- An event on schedule is sent within one oversleep, and the events after it stay on schedule. -/
theorem OnSchedule.turn {e : Event} (h : OnSchedule p (e :: events)) (hexact : p.clock.Exact e.time) :
    e.time ≤ (p.attempt instrument e).asked.now ∧
      (p.attempt instrument e).asked.now ≤ e.time + p.clock.oversleep ∧
      (p.turn instrument.cost e).clock.oversleep = p.clock.oversleep ∧
      OnSchedule (p.turn instrument.cost e) events := by
  obtain ⟨hzero, hfinite, hordered, hsoon⟩ := h
  obtain ⟨he, hfinite⟩ := List.forall_mem_cons.1 hfinite
  obtain ⟨hfirst, hordered⟩ := List.pairwise_cons.1 hordered
  obtain ⟨hesoon, -⟩ := List.forall_mem_cons.1 hsoon
  have hover := (Span.isNegative_eq_false (Binary64.le_iff.1 hzero).2.1).2 hzero
  have hbound : (p.attempt instrument e).asked.now ≤ e.time + p.clock.oversleep :=
    VirtualClock.reach_le he hzero hexact hesoon
  obtain ⟨hreach, hspend⟩ := Progress.later_turn (cost_of_free hfree) hover e
  have hsame : (p.turn instrument.cost e).clock.oversleep = p.clock.oversleep := (hreach.trans hspend).oversleep
  refine ⟨VirtualClock.reach_due he hover (Instant.number_of_le hbound).1, hbound, hsame, ?_⟩
  refine ⟨by rwa [hsame], hfinite, hordered, fun f hf => ?_⟩
  rw [hsame]
  calc (p.turn instrument.cost e).clock.now
      ≤ e.time + p.clock.oversleep := VirtualClock.spend_le (hfree p.attempts) hbound
    _ ≤ f.time + p.clock.oversleep :=
      Binary64.add_le_add_right he (hfinite f hf) (hfirst f hf) (Binary64.le_iff.1 hzero).2.1

/-- Events on schedule are all sent, each within one oversleep of its instant. -/
theorem punctual (h : Played instrument p events outcome turns last) (htaken : ∀ n, instrument.answer n = .ok ())
    (hschedule : OnSchedule p events)
    (hexact : ∀ e turn, (e, turn) ∈ events.zip turns → turn.came.Exact e.time) :
    List.Forall₂ (fun (e : Event) (turn : Turn VirtualClock) => turn.message = e.message ∧ e.time ≤ turn.asked.now ∧
      turn.asked.now ≤ e.time + p.clock.oversleep) events turns ∧
    ∃ figures, outcome = .ok figures ∧ figures.dispatched = p.figures.dispatched + events.length ∧
      (p.clock.oversleep.seconds.eqv .zero → figures.late = p.figures.late ∧ figures.maxLateness = p.figures.maxLateness) := by
  induction h with
  | done p => exact ⟨.nil, p.figures, rfl, rfl, fun _ => ⟨rfl, rfl⟩⟩
  | @next p e events outcome turns last hanswer hrest ih =>
    obtain ⟨hdue, hbound, hsame, hnext⟩ := hschedule.turn hfree (hexact e _ List.mem_cons_self)
    obtain ⟨hturns, figures, hok, hdispatched, hlate⟩ := ih hnext fun f turn hf =>
      hexact f turn (List.mem_cons_of_mem _ hf)
    rw [hsame] at hturns hlate
    refine ⟨.cons ⟨rfl, hdue, hbound⟩ hturns, figures, hok, ?_, fun hexactly => ?_⟩
    · have hsent : (p.turn instrument.cost e).figures.dispatched = p.figures.dispatched + 1 :=
        p.dispatched_turns instrument.cost [e]
      rw [hdispatched, hsent, List.length_cons]
      omega
    · obtain ⟨hlate, hmost⟩ := hlate hexactly
      rw [hlate, hmost, hschedule.figures_turn hexactly]
      exact ⟨rfl, rfl⟩
  | @stop p e events fault hanswer =>
    rw [htaken] at hanswer
    nomatch hanswer

end Free

end Played

namespace Rehearsal

variable {instrument : Instrument} {s : Sequence} {r : Rehearsal}

section Held

variable (hcost : ∀ n d, instrument.cost n = some d → d.isNegative = false)
  (ho : r.clock.oversleep.isNegative = false)

include hcost ho

/-- A playback that succeeds ends at or after the end of the piece. -/
theorem endTime_le_of_ok (hend : s.endTime.seconds.isFinite)
    (hlast : (r.play instrument s).2.clock.now.seconds.isNaN = false) {figures : Playback}
    (hok : (r.play instrument s).1 = .ok figures) : s.endTime ≤ (r.play instrument s).2.clock.now := by
  obtain ⟨last, hplayed, hclock⟩ := play_played instrument s r
  have hover : last.oversleep.isNegative = false := by
    rw [(hplayed.later hcost ho).oversleep]
    exact ho
  rw [hok] at hclock
  rw [hclock] at hlast ⊢
  exact VirtualClock.reach_due hend hover hlast

end Held

/-- Jitter does not accumulate. A compiled sequence is rehearsed from no later than
its first event, on a clock that oversleeps by a fixed span and wakes up early any
number of times, with an instrument that refuses nothing and takes no time. If no wait
meets a remainder that rounding keeps from being exact, then every event is sent
between its instant and one oversleep after it. Without an oversleep every event is
sent at its instant, and none is late. -/
theorem play_punctual {root : Arrangement} {start : Instant} {timing : Timing} {voice : Voice}
    (h : Sequence.compile root start timing voice = .ok s) (hfinite : ∀ e ∈ s.events, e.time.seconds.isFinite)
    (htaken : ∀ n, instrument.answer n = .ok ()) (hfree : ∀ n d, instrument.cost n = some d → d.seconds.eqv .zero)
    (ho : Binary64.zero.le r.clock.oversleep.seconds) (hstart : ∀ e ∈ s.events.head?, r.clock.now ≤ e.time)
    (hexact : ∀ e turn, (e, turn) ∈ s.events.zip (r.turns instrument s) → turn.came.Exact e.time) :
    ∃ figures, (r.play instrument s).1 = .ok figures ∧ figures.dispatched = s.events.length ∧
      List.Forall₂ (fun (e : Event) (turn : Turn VirtualClock) => turn.message = e.message ∧ e.time ≤ turn.asked.now ∧
        turn.asked.now ≤ e.time + r.clock.oversleep) s.events (r.turns instrument s) ∧
      (r.clock.oversleep.seconds.eqv .zero →
        List.Forall₂ (fun (e : Event) (turn : Turn VirtualClock) => turn.asked.now.seconds.eqv e.time.seconds) s.events
          (r.turns instrument s) ∧
        figures.late = 0 ∧ figures.maxLateness = .zero) := by
  obtain ⟨last, hplayed, -⟩ := play_played instrument s r
  have hschedule := Played.OnSchedule.of_head (p := ⟨r.clock, r.attempts, {}⟩) ho hfinite
    (Sequence.events_in_time h hfinite) hstart
  obtain ⟨hturns, figures, hok, hdispatched, hlate⟩ := hplayed.punctual hfree htaken hschedule hexact
  refine ⟨figures, hok, hdispatched.trans (Nat.zero_add _), hturns, fun hexactly => ⟨?_, hlate hexactly⟩⟩
  refine List.forall₂_iff_zip.2 ⟨hturns.length_eq, fun {e turn} hmem => ?_⟩
  obtain ⟨-, hdue, hbound⟩ := (List.forall₂_iff_zip.1 hturns).2 hmem
  have he := hfinite e (List.of_mem_zip hmem).1
  exact Binary64.eqv_of_le_of_le (Instant.le_of_le_add_zero he hexactly hbound) hdue

/-! ## On a restless clock -/

/-- At the instant zero, with a clock that oversleeps by a quarter of a second but first wakes up early. -/
def restless : Rehearsal where
  clock := (VirtualClock.withOversleep { now := ⟨.zero⟩ } ⟨.ofNat 1 / .ofNat 4⟩).withEarlyWakeups 1

/-- Its wait for the first second meets no sum that is rounded. -/
theorem restless_exact : restless.clock.Exact ⟨.ofNat 1⟩ := by
  refine VirtualClock.exact_of_sleep fun _ => ⟨by decide +kernel, ?_⟩
  refine VirtualClock.exact_of_sleep fun _ => ⟨by decide +kernel, ?_⟩
  exact VirtualClock.exact_of_due (by decide +kernel) (by decide +kernel)

/-- A recorder that takes half a second to get going. -/
def sluggish : Instrument :=
  .recorder (fun n => if n = 0 then some ⟨.ofNat 1 / .ofNat 2⟩ else none) fun _ => none

/-- Played into the journal, the quarter meets no sums but those of the wait for its release. -/
theorem crotchet_exact {p : Progress} {outcome : Except Fault Playback} {turns : List (Turn VirtualClock)}
    {last : VirtualClock} (h : Played .journal p crotchetSequence.events outcome turns last) (hdue : (⟨.zero⟩ : Instant) ≤ p.clock.now)
    (hexact : p.clock.Exact ⟨.ofNat 1⟩) :
    ∀ e turn, (e, turn) ∈ crotchetSequence.events.zip turns → turn.came.Exact e.time := by
  have hfirst : p.clock.reach ⟨.zero⟩ = p.clock := VirtualClock.reach_of_due rfl hdue
  unfold crotchetSequence at h ⊢
  -- Both turns come at the clock of the beginning, since the first one takes no time.
  cases h with
  | stop hanswer => nomatch hanswer
  | next hanswer hrest =>
    cases hrest with
    | stop hanswer => nomatch hanswer
    | next hanswer hrest =>
      intro e turn hmem
      simp only [List.zip_cons_cons, List.zip_nil_left, List.mem_cons, List.not_mem_nil, or_false, Prod.mk.injEq] at hmem
      rcases hmem with ⟨rfl, rfl⟩ | ⟨rfl, rfl⟩
      · exact VirtualClock.exact_of_due rfl hdue
      · show (p.clock.reach ⟨.zero⟩).Exact ⟨.ofNat 1⟩
        rwa [hfirst]

/-- The release is sent a quarter of a second late on the restless clock, and in time on one that keeps to its spans. -/
theorem play_punctual_crotchet :
    List.Forall₂ (fun (e : Event) (turn : Turn VirtualClock) => turn.message = e.message ∧ e.time ≤ turn.asked.now ∧
      turn.asked.now ≤ e.time + restless.clock.oversleep) crotchetSequence.events
      (restless.turns .journal crotchetSequence) ∧
    (restless.turns .journal crotchetSequence).map (·.asked.now) = [⟨.zero⟩, ⟨.ofNat 5 / .ofNat 4⟩] ∧
    List.Forall₂ (fun (e : Event) (turn : Turn VirtualClock) => turn.asked.now.seconds.eqv e.time.seconds)
      crotchetSequence.events (atZero.turns .journal crotchetSequence) := by
  have hfinite : ∀ e ∈ crotchetSequence.events, e.time.seconds.isFinite := by decide +kernel
  have htaken : ∀ n, Instrument.journal.answer n = .ok () := fun _ => rfl
  have hfree : ∀ n d, Instrument.journal.cost n = some d → d.seconds.eqv .zero := fun _ _ h => nomatch h
  have hatZero : atZero.clock.Exact ⟨.ofNat 1⟩ := by
    refine VirtualClock.exact_of_sleep fun _ => ⟨by decide +kernel, ?_⟩
    exact VirtualClock.exact_of_due (by decide +kernel) (by decide +kernel)
  obtain ⟨_, hjittered, -⟩ := play_played .journal crotchetSequence restless
  obtain ⟨_, hsteady, -⟩ := play_played .journal crotchetSequence atZero
  obtain ⟨_, -, -, hsent, -⟩ := play_punctual crotchet_compiles hfinite htaken hfree (by decide +kernel)
    (by decide +kernel) (crotchet_exact hjittered (by decide +kernel) restless_exact)
  obtain ⟨_, -, -, -, hexactly⟩ := play_punctual crotchet_compiles hfinite htaken hfree (by decide +kernel)
    (by decide +kernel) (crotchet_exact hsteady (by decide +kernel) hatZero)
  exact ⟨hsent, by decide +kernel, (hexactly (by decide +kernel)).1⟩

end Rehearsal

end ScoreSequencer
