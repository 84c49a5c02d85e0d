import Mathlib
import ScoreSequencer.Rehearsal
import ScoreSequencer.Proofs.Playback.Turns
/-!
# The timeline of a rehearsal

In a rehearsal an event's turn is a wait for its instant and an attempt to send its message,
which may take time. `Progress` follows the clock, the attempts and the figures through the
turns of events that are taken. `Played` are the turns of a rehearsal seen by their clocks:
what `Takes` is on its stage (`Takes.played`), with nothing left of the stage but the answers
of the instrument and the time that they take.
-/

namespace ScoreSequencer

/-! ## The clock -/

namespace VirtualClock

/-- The clock after waiting for an instant. -/
def reach (c : VirtualClock) (target : Instant) : VirtualClock := (c.waitUntil target).2

/-- The clock after an attempt that takes some time, if any. -/
def spend (c : VirtualClock) : Option Span → VirtualClock
  | some d => c.advance d
  | none => c

theorem sleeps_spend (c : VirtualClock) (d : Option Span) : (c.spend d).sleeps = c.sleeps := by
  cases d <;> rfl

end VirtualClock

namespace Rehearsal

/-- What a recorder answers to the attempt of a number. -/
def answer (failure : Nat → Option Fault) (attempt : Nat) : Except Fault Unit :=
  match failure attempt with
  | some fault => .error fault
  | none => .ok ()

variable {failure : Nat → Option Fault} {n : Nat}

theorem answer_of_none (h : failure n = none) : answer failure n = .ok () := by
  rw [answer, h]

theorem answer_of_some {fault : Fault} (h : failure n = some fault) : answer failure n = .error fault := by
  rw [answer, h]

end Rehearsal

namespace Instrument

/-- The time that an attempt takes, if any. -/
def cost : Instrument → Nat → Option Span
  | recorder cost _ => cost
  | journal => fun _ => none

/-- What is answered to an attempt. -/
def answer : Instrument → Nat → Except Fault Unit
  | recorder _ failure => Rehearsal.answer failure
  | journal => fun _ => .ok ()

end Instrument

/-! ## Progress -/

/-- How far a playback has come, in which every message was taken so far. -/
structure Progress where
  clock : VirtualClock
  attempts : Nat
  figures : Playback

namespace Progress

section Cost

variable (cost : Nat → Option Span)

/-- An event is waited for, and its message is taken. -/
def turn (p : Progress) (e : Event) : Progress where
  clock := (p.clock.reach e.time).spend (cost p.attempts)
  attempts := p.attempts + 1
  figures := (p.figures.turn (p.clock.waitUntil e.time).1).sent

def turns (p : Progress) (events : List Event) : Progress := events.foldl (turn cost) p

theorem attempts_turns (p : Progress) (events : List Event) :
    (p.turns cost events).attempts = p.attempts + events.length := by
  induction events generalizing p with
  | nil => rfl
  | cons e events ih =>
    refine (ih (p.turn cost e)).trans ?_
    rw [List.length_cons, Nat.add_comm events.length, ← Nat.add_assoc]
    rfl

theorem dispatched_turn (p : Progress) (e : Event) :
    (p.turn cost e).figures.dispatched = p.figures.dispatched + 1 := by
  unfold turn Playback.sent Playback.turn
  split_ifs <;> rfl

theorem dispatched_turns (p : Progress) (events : List Event) :
    (p.turns cost events).figures.dispatched = p.figures.dispatched + events.length := by
  induction events generalizing p with
  | nil => rfl
  | cons e events ih =>
    refine (ih (p.turn cost e)).trans ?_
    rw [dispatched_turn, List.length_cons, Nat.add_comm events.length, ← Nat.add_assoc]

end Cost

/-- The turn of an event that is next. -/
def attempt (instrument : Instrument) (p : Progress) (e : Event) : Turn VirtualClock where
  message := e.message
  answer := instrument.answer p.attempts
  came := p.clock
  asked := p.clock.reach e.time
  answered := (p.clock.reach e.time).spend (instrument.cost p.attempts)

/-- The release of a channel, at once. -/
def release (instrument : Instrument) (p : Progress) (c : Channel) : Turn VirtualClock where
  message := .allNotesOff c
  answer := instrument.answer p.attempts
  came := p.clock
  asked := p.clock
  answered := p.clock.spend (instrument.cost p.attempts)

end Progress

/-- The turns that are taken for some events, with the outcome and the clock after the last turn. -/
inductive Played (instrument : Instrument) :
    Progress → List Event → Except Fault Playback → List (Turn VirtualClock) → VirtualClock → Prop
  | done (p : Progress) : Played instrument p [] (.ok p.figures) [] p.clock
  | next {p : Progress} {e : Event} {events : List Event} {outcome : Except Fault Playback}
      {turns : List (Turn VirtualClock)} {last : VirtualClock} :
      instrument.answer p.attempts = .ok () → Played instrument (p.turn instrument.cost e) events outcome turns last →
      Played instrument p (e :: events) outcome (p.attempt instrument e :: turns) last
  | stop {p : Progress} {e : Event} {events : List Event} {fault : Fault} :
      instrument.answer p.attempts = .error fault →
      Played instrument p (e :: events) (.error fault)
        [p.attempt instrument e, (p.turn instrument.cost e).release instrument e.channel]
        ((p.turn instrument.cost e).release instrument e.channel).answered

/-! ## The stage of a rehearsal -/

namespace Rehearsal

/-- Before anything has happened, at the instant zero. -/
def atZero : Rehearsal := { clock := { now := ⟨.zero⟩ } }

/-- How far a rehearsal has come, with the figures of its playback. -/
def progress (r : Rehearsal) (figures : Playback) : Progress := ⟨r.clock, r.attempts, figures⟩

/-- The turns that are taken when a sequence is played, with their clocks. -/
def turns (instrument : Instrument) (s : Sequence) (r : Rehearsal) : List (Turn VirtualClock) :=
  ((stage instrument).turns s r).map (Turn.map clock)

theorem attempts_eq_turns (instrument : Instrument) (s : Sequence) (r : Rehearsal) :
    (stage instrument).attempts s r = (r.turns instrument s).map Turn.attempt := by
  rw [turns, List.map_map]
  rfl

section Turns

variable (instrument : Instrument) (r : Rehearsal)

/-- An instrument answers by the number of the attempt, which may take time. -/
theorem send_run (message : Message) : (r.send instrument message).1 = instrument.answer r.attempts ∧
    (r.send instrument message).2.clock = r.clock.spend (instrument.cost r.attempts) ∧
    (r.send instrument message).2.attempts = r.attempts + 1 := by
  unfold send
  cases instrument with
  | journal => exact ⟨rfl, rfl, rfl⟩
  | recorder cost failure =>
    dsimp only [Instrument.answer, Instrument.cost]
    unfold answer
    cases cost r.attempts <;> cases failure r.attempts <;> exact ⟨rfl, rfl, rfl⟩

/-- The rehearsal after the wait for an event: the clock has come to its instant, and the event is
reported if it was late. -/
def due (e : Event) : Rehearsal :=
  let due : Rehearsal := { r with clock := r.clock.reach e.time }
  let lateness := (r.clock.waitUntil e.time).1
  (if lateness.isPositive then due.write (e.lateLine lateness) else due).write ⟨.trace, "Dispatching " ++ e.text⟩

theorem await_run (e : Event) :
    ((stage instrument).await e).run r = ((r.clock.waitUntil e.time).1, r.due e) := by
  have hwait : ((stage instrument).waitUntil e.time).run r =
      ((r.clock.waitUntil e.time).1, { r with clock := r.clock.reach e.time }) := rfl
  unfold Stage.await due
  rw [run_bind_of_run hwait]
  dsimp only
  split_ifs <;> rfl

theorem due_clock (e : Event) : (r.due e).clock = r.clock.reach e.time ∧ (r.due e).attempts = r.attempts := by
  unfold due
  dsimp only
  split_ifs <;> exact ⟨rfl, rfl⟩

/-- The turn of an event by its clocks, and the progress that it makes if it is taken. -/
theorem turn_progress (e : Event) (figures : Playback) :
    ((stage instrument).turn e r).map clock = (r.progress figures).attempt instrument e ∧
    ((stage instrument).turn e r).answered.progress (figures.turn ((stage instrument).lateness e r)).sent =
      (r.progress figures).turn instrument.cost e := by
  obtain ⟨hclock, hattempts⟩ := r.due_clock e
  obtain ⟨hanswer, hspent, hnext⟩ := send_run instrument (r.due e) e.message
  rw [hclock, hattempts] at hspent
  rw [hattempts] at hanswer hnext
  rw [Stage.turn, Stage.lateness, await_run]
  constructor
  · show Turn.mk _ (send ..).1 r.clock (r.due e).clock (send ..).2.clock = _
    rw [hanswer, hspent, hclock]
    rfl
  · show Progress.mk (send ..).2.clock (send ..).2.attempts _ = _
    rw [hspent, hnext]
    rfl

/-- The release of a channel by its clocks, after which nothing takes time. -/
theorem release_progress (c : Channel) (figures : Playback) :
    ((stage instrument).release c r).map clock = (r.progress figures).release instrument c ∧
    (((stage instrument).silence c).run r).2.clock = ((r.progress figures).release instrument c).answered := by
  let aborted := r.write c.abortLine
  obtain ⟨hanswer, hspent, -⟩ := send_run instrument aborted (.allNotesOff c)
  have hwrite : ((stage instrument).write c.abortLine).run r = ((), aborted) := rfl
  have hsend : ((stage instrument).send (.allNotesOff c)).run aborted =
      ((aborted.send instrument (.allNotesOff c)).1, (aborted.send instrument (.allNotesOff c)).2) := rfl
  constructor
  · rw [Stage.release, hwrite]
    show Turn.mk _ (aborted.send instrument (.allNotesOff c)).1 r.clock aborted.clock
      (aborted.send instrument (.allNotesOff c)).2.clock = _
    rw [hanswer, hspent]
    rfl
  · rw [Stage.silence, run_bind_of_run hwrite, run_bind_of_run hsend]
    -- A release that fails too is only reported.
    cases (aborted.send instrument (.allNotesOff c)).1 with
    | ok => exact hspent
    | error fault => exact hspent

end Turns

end Rehearsal

/-! ## Playbacks -/

/-- The turns of a rehearsal by their clocks. -/
theorem Takes.played {instrument : Instrument} {figures : Playback} {r last : Rehearsal} {events : List Event}
    {outcome : Except Fault Playback} {turns : List (Turn Rehearsal)}
    (h : Takes (Rehearsal.stage instrument) figures r events outcome turns last) :
    Played instrument (r.progress figures) events outcome (turns.map (Turn.map Rehearsal.clock)) last.clock := by
  induction h with
  | done figures r => exact .done _
  | @next figures r last e events outcome turns htaken hrest ih =>
    obtain ⟨hturn, hprogress⟩ := Rehearsal.turn_progress instrument r e figures
    rw [hprogress] at ih
    rw [List.map_cons, hturn]
    exact .next ((congrArg Turn.answer hturn).symm.trans htaken) ih
  | @stop figures r e events fault hrefused =>
    obtain ⟨hturn, hprogress⟩ := Rehearsal.turn_progress instrument r e figures
    let stage := Rehearsal.stage instrument
    obtain ⟨hrelease, hsilence⟩ := Rehearsal.release_progress instrument (stage.turn e r).answered e.channel
      (figures.turn (stage.lateness e r)).sent
    rw [hprogress] at hrelease hsilence
    rw [List.map_cons, List.map_singleton, hturn, hrelease, hsilence]
    exact .stop ((congrArg Turn.answer hturn).symm.trans hrefused)

namespace Rehearsal

/-- A rehearsal takes turns for its events, and then it holds until the end of the piece unless it failed. -/
theorem play_played (instrument : Instrument) (s : Sequence) (r : Rehearsal) : ∃ last,
    Played instrument ⟨r.clock, r.attempts, {}⟩ s.events (r.play instrument s).1 (r.turns instrument s) last ∧
    (r.play instrument s).2.clock =
      match (r.play instrument s).1 with
      | .ok _ => last.reach s.endTime
      | .error _ => last := by
  obtain ⟨last, htakes, hheld⟩ := (stage instrument).play_takes s r
  refine ⟨last.clock, htakes.played, ?_⟩
  unfold play
  rw [hheld]
  cases (((stage instrument).play s).run r).1 <;> rfl

end Rehearsal

end ScoreSequencer
