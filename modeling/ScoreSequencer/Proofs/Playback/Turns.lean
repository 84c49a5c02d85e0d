import Mathlib
import ScoreSequencer.Player
/-!
# The turns of a playback

A stage can be watched: `Stage.watched` acts as the stage does and keeps a list of `Turn`s,
each an attempt to send with the surroundings before it and after it. `Takes` are the turns
that some events can take, one constructor for each way that a turn goes. `play_takes` says
that every playback, on every stage, takes just such turns.
-/

namespace ScoreSequencer

/-- A chain of two actions, where the first one is known. -/
theorem run_bind_of_run {σ α β : Type} {first : StateM σ α} {next : α → StateM σ β} {r s : σ} {a : α}
    (h : first.run r = (a, s)) : (first >>= next).run r = (next a).run s := by
  rw [StateT.run_bind, h]
  rfl

/-! ## Attempts -/

/-- An attempt to send and what came of it. -/
structure Attempt where
  message : Message
  answer : Except Fault Unit

namespace Attempt

/-- The instrument took the message. -/
def taken (message : Message) : Attempt := ⟨message, .ok ()⟩

/-- The instrument refused the message. -/
def refused (message : Message) (fault : Fault) : Attempt := ⟨message, .error fault⟩

/-- The message, if the instrument took it. -/
def accepted? (a : Attempt) : Option Message :=
  match a.answer with
  | .ok _ => some a.message
  | .error _ => none

end Attempt

/-- The messages that the instrument took. -/
def accepted (attempts : List Attempt) : List Message := attempts.filterMap Attempt.accepted?

theorem accepted_append (first rest : List Attempt) : accepted (first ++ rest) = accepted first ++ accepted rest :=
  List.filterMap_append

theorem accepted_taken (messages : List Message) : accepted (messages.map .taken) = messages := by
  induction messages with
  | nil => rfl
  | cons m messages ih => exact congrArg (m :: ·) ih

/-! ## Watching a stage -/

/-- An attempt to send, with the surroundings before it and after it. -/
structure Turn (σ : Type) where
  message : Message
  answer : Except Fault Unit
  /-- When the turn came, before any wait. -/
  came : σ
  /-- When the instrument was asked to send. -/
  asked : σ
  /-- When the instrument had answered. -/
  answered : σ

namespace Turn

variable {σ τ : Type}

def attempt (t : Turn σ) : Attempt := ⟨t.message, t.answer⟩

/-- The turn with the surroundings seen as others. -/
def map (view : σ → τ) (t : Turn σ) : Turn τ where
  message := t.message
  answer := t.answer
  came := view t.came
  asked := view t.asked
  answered := view t.answered

end Turn

/-- A state of the surroundings, with the turns so far. -/
structure Watch (σ : Type) where
  now : σ
  /-- When the turn came that is not over yet. -/
  came : σ
  turns : List (Turn σ) := []

namespace Stage

variable {σ : Type} (stage : Stage (StateM σ))

/-- The stage with a record of the turns. A turn comes with a wait, or when the one before is over. -/
def watched : Stage (StateM (Watch σ)) where
  waitUntil target := fun w =>
    let (lateness, now) := stage.waitUntil target w.now
    (lateness, { w with now, came := w.now })
  send message := fun w =>
    let (answer, now) := stage.send message w.now
    (answer, ⟨now, now, w.turns ++ [⟨message, answer, w.came, w.now, now⟩]⟩)
  write line := fun w =>
    let (_, now) := stage.write line w.now
    ((), { w with now })

/-- The turns that are taken when a sequence is played from some state of the stage. -/
def turns (s : Sequence) (r : σ) : List (Turn σ) :=
  ((stage.watched.play s).run { now := r, came := r }).2.turns

/-- The attempts that are made then. -/
def attempts (s : Sequence) (r : σ) : List Attempt := (stage.turns s r).map Turn.attempt

/-! ## What turns there can be -/

/-- An attempt to send in a turn that came at some time. -/
def attempt (message : Message) (came asked : σ) : Turn σ where
  message
  answer := ((stage.send message).run asked).1
  came
  asked
  answered := ((stage.send message).run asked).2

/-- The turn of an event that is next. -/
def turn (e : Event) (r : σ) : Turn σ := stage.attempt e.message r ((stage.await e).run r).2

/-- How late the event is. -/
def lateness (e : Event) (r : σ) : Span := ((stage.await e).run r).1

/-- The release of a channel, at once. -/
def release (c : Channel) (r : σ) : Turn σ :=
  stage.attempt (.allNotesOff c) r ((stage.write c.abortLine).run r).2

end Stage

/-- The turns that a player with some figures takes for some events, from one state of the stage
to another, with its outcome. -/
inductive Takes {σ : Type} (stage : Stage (StateM σ)) :
    Playback → σ → List Event → Except Fault Playback → List (Turn σ) → σ → Prop
  | done (figures : Playback) (r : σ) : Takes stage figures r [] (.ok figures) [] r
  | next {figures : Playback} {r last : σ} {e : Event} {events : List Event} {outcome : Except Fault Playback}
      {turns : List (Turn σ)} : (stage.turn e r).answer = .ok () →
      Takes stage (figures.turn (stage.lateness e r)).sent (stage.turn e r).answered events outcome turns last →
      Takes stage figures r (e :: events) outcome (stage.turn e r :: turns) last
  | stop {figures : Playback} {r : σ} {e : Event} {events : List Event} {fault : Fault} :
      (stage.turn e r).answer = .error fault →
      Takes stage figures r (e :: events) (.error fault)
        [stage.turn e r, stage.release e.channel (stage.turn e r).answered]
        ((stage.silence e.channel).run (stage.turn e r).answered).2

namespace Stage

variable {σ : Type} (stage : Stage (StateM σ))

/-! ## One turn -/

/-- Whatever the stage, an event's turn is over when the instrument has answered. -/
theorem dispatch_cons (figures : Playback) (e : Event) (events : List Event) (r : σ) :
    (stage.dispatch figures (e :: events)).run r =
      match (stage.turn e r).answer with
      | .ok _ => (stage.dispatch (figures.turn (stage.lateness e r)).sent events).run (stage.turn e r).answered
      | .error fault => (.error fault, ((stage.silence e.channel).run (stage.turn e r).answered).2) := by
  have hawait : (stage.await e).run r = (stage.lateness e r, (stage.turn e r).asked) := rfl
  have hsend : (stage.send e.message).run (stage.turn e r).asked =
      ((stage.turn e r).answer, (stage.turn e r).answered) := rfl
  rw [dispatch, run_bind_of_run hawait, run_bind_of_run hsend]
  cases (stage.turn e r).answer <;> rfl

/-- To be watched changes nothing about a wait, which is when a turn comes. -/
theorem watched_await (e : Event) (w : Watch σ) : (stage.watched.await e).run w =
    (stage.lateness e w.now, { w with now := (stage.turn e w.now).asked, came := w.now }) := by
  obtain ⟨lateness, due, hwait⟩ : ∃ lateness due, (stage.waitUntil e.time).run w.now = (lateness, due) := ⟨_, _, rfl⟩
  have hwatched : (stage.watched.waitUntil e.time).run w = (lateness, { w with now := due, came := w.now }) := by
    show (((stage.waitUntil e.time).run w.now).1,
      { w with now := ((stage.waitUntil e.time).run w.now).2, came := w.now }) = _
    rw [hwait]
  unfold turn Stage.lateness await
  rw [run_bind_of_run hwait, run_bind_of_run hwatched]
  -- A late event is reported in one more line.
  split_ifs <;> rfl

theorem watched_turn (e : Event) (w : Watch σ) :
    (stage.watched.turn e w).answer = (stage.turn e w.now).answer ∧
    (stage.watched.turn e w).answered =
      ⟨(stage.turn e w.now).answered, (stage.turn e w.now).answered, w.turns ++ [stage.turn e w.now]⟩ := by
  rw [turn, watched_await]
  exact ⟨rfl, rfl⟩

theorem watched_silence (c : Channel) (r : σ) (turns : List (Turn σ)) :
    (stage.watched.silence c).run ⟨r, r, turns⟩ =
      ((), ⟨((stage.silence c).run r).2, (stage.release c r).answered, turns ++ [stage.release c r]⟩) := by
  have hsend : (stage.send (.allNotesOff c)).run (stage.release c r).asked =
      ((stage.release c r).answer, (stage.release c r).answered) := rfl
  have hwrite : (stage.write c.abortLine).run r = ((), (stage.release c r).asked) := rfl
  have hwatched : (stage.watched.write c.abortLine).run ⟨r, r, turns⟩ =
      ((), ⟨(stage.release c r).asked, r, turns⟩) := rfl
  have hrelease : (stage.watched.send (.allNotesOff c)).run ⟨(stage.release c r).asked, r, turns⟩ =
      ((stage.release c r).answer, ⟨(stage.release c r).answered, (stage.release c r).answered,
        turns ++ [stage.release c r]⟩) := rfl
  unfold silence
  rw [run_bind_of_run hwrite, run_bind_of_run hsend, run_bind_of_run hwatched, run_bind_of_run hrelease]
  -- A release that fails too is only reported.
  cases (stage.release c r).answer <;> rfl

/-! ## Playbacks -/

/-- Dispatching events takes turns for them, watched or not. -/
theorem dispatch_takes (figures : Playback) (events : List Event) (w : Watch σ) : ∃ outcome turns done,
    (stage.watched.dispatch figures events).run w = (outcome, done) ∧
    (stage.dispatch figures events).run w.now = (outcome, done.now) ∧ done.turns = w.turns ++ turns ∧
    Takes stage figures w.now events outcome turns done.now := by
  induction events generalizing figures w with
  | nil => exact ⟨_, [], w, rfl, rfl, (List.append_nil _).symm, .done _ _⟩
  | cons e events ih =>
    obtain ⟨hanswer, hanswered⟩ := stage.watched_turn e w
    have hlateness : stage.watched.lateness e w = stage.lateness e w.now := by
      rw [lateness, watched_await]
    rw [dispatch_cons, dispatch_cons, hanswer, hanswered, hlateness]
    cases htaken : (stage.turn e w.now).answer with
    | ok =>
      obtain ⟨outcome, turns, done, hwatched, hplain, hturns, htakes⟩ :=
        ih (figures.turn (stage.lateness e w.now)).sent ⟨_, _, w.turns ++ [stage.turn e w.now]⟩
      refine ⟨outcome, stage.turn e w.now :: turns, done, hwatched, hplain, ?_, .next htaken htakes⟩
      rw [hturns, List.append_assoc]
      rfl
    | error fault =>
      let released := stage.release e.channel (stage.turn e w.now).answered
      refine ⟨.error fault, [stage.turn e w.now, released], ⟨_, released.answered, w.turns ++ _⟩, ?_, rfl, rfl,
        .stop htaken⟩
      rw [watched_silence, List.append_assoc]
      rfl

/-- Whatever the stage does, a playback takes turns for its events after one line of the journal,
and then it holds until the end of the piece unless it failed. -/
theorem play_takes (s : Sequence) (r : σ) : ∃ last,
    Takes stage {} ((stage.write s.openingLine).run r).2 s.events ((stage.play s).run r).1 (stage.turns s r) last ∧
    ((stage.play s).run r).2 =
      match ((stage.play s).run r).1 with
      | .ok figures => ((stage.write figures.closingLine).run ((stage.waitUntil s.endTime).run last).2).2
      | .error _ => last := by
  let start : Watch σ := { now := ((stage.write s.openingLine).run r).2, came := r }
  have hwrite : (stage.write s.openingLine).run r = ((), start.now) := rfl
  have hwatched : (stage.watched.write s.openingLine).run { now := r, came := r } = ((), start) := rfl
  obtain ⟨outcome, turns, done, hdispatch, hplain, hturns, htakes⟩ := stage.dispatch_takes {} s.events start
  have hall : stage.turns s r = turns := by
    rw [Stage.turns, play, run_bind_of_run hwatched, run_bind_of_run hdispatch]
    cases outcome with
    | ok figures => exact hturns
    | error fault => exact hturns
  refine ⟨done.now, ?_⟩
  rw [hall, play, run_bind_of_run hwrite, run_bind_of_run hplain]
  cases outcome with
  | ok figures => exact ⟨htakes, rfl⟩
  | error fault => exact ⟨htakes, rfl⟩

end Stage

end ScoreSequencer
