import Mathlib
import ScoreSequencer.Proofs.Playback.Punctuality
/-!
# The figures of a playback

An event is late if its instant is before the reading of the clock when its turn comes,
and its delay is the span between the two (`Turn.delay?`). A wait answers with that delay,
so the figures of a playback whose messages are all taken are those of the delays in
order: their number, and the greatest of them (`play_figures`). Only late events are
reported in the journal at the level of debugging (`play_reports`).
-/

namespace ScoreSequencer

namespace Span

/-- The greatest of some spans, and zero if there are none. -/
structure Greatest (spans : List Span) (x : Span) : Prop where
  mem : x ∈ spans ∨ spans = [] ∧ x = zero
  le : ∀ y ∈ spans, y.seconds.le x.seconds

variable {x y : Span}

theorem isNaN_of_isPositive (h : x.isPositive) : x.seconds.isNaN = false := (Binary64.lt_iff.1 h).2.1

theorem le_max_left (hx : x.seconds.isNaN = false) : x.seconds.le (x.max y).seconds := by
  unfold max
  split_ifs with h
  · obtain ⟨-, hy, hlevel⟩ := Binary64.lt_iff.1 h
    exact Binary64.le_iff.2 ⟨hx, hy, hlevel.le⟩
  · exact Binary64.le_refl hx

theorem le_max_right (hx : x.seconds.isNaN = false) (hy : y.seconds.isNaN = false) : y.seconds.le (x.max y).seconds := by
  unfold max
  split_ifs with h
  · exact Binary64.le_refl hy
  · refine Binary64.le_iff.2 ⟨hy, hx, not_lt.1 fun hlt => h ?_⟩
    exact Binary64.lt_iff.2 ⟨hx, hy, hlt⟩

theorem max_mem (x y : Span) : x.max y = x ∨ x.max y = y := by
  unfold max
  split_ifs
  · exact .inr rfl
  · exact .inl rfl

/-- Taking the greater one again and again ends with one of the numbers, and with none that is less than another. -/
theorem foldl_max {spans : List Span} (hx : x.seconds.isNaN = false) (hspans : ∀ y ∈ spans, y.seconds.isNaN = false) :
    spans.foldl max x ∈ x :: spans ∧ ∀ y ∈ x :: spans, y.seconds.le (spans.foldl max x).seconds := by
  induction spans generalizing x with
  | nil => simp [Binary64.le_refl hx]
  | cons y spans ih =>
    obtain ⟨hy, hspans⟩ := List.forall_mem_cons.1 hspans
    have hmax : (x.max y).seconds.isNaN = false := by
      rcases max_mem x y with h | h <;> rw [h] <;> assumption
    obtain ⟨hmem, hle⟩ := ih hmax hspans
    obtain ⟨hfirst, hrest⟩ := List.forall_mem_cons.1 hle
    rw [List.foldl_cons]
    constructor
    · rcases List.mem_cons.1 hmem with h | h
      · rw [h]
        rcases max_mem x y with h | h <;> simp [h]
      · simp [h]
    · refine List.forall_mem_cons.2 ⟨?_, List.forall_mem_cons.2 ⟨?_, hrest⟩⟩
      · exact Binary64.le_trans (le_max_left hx) hfirst
      · exact Binary64.le_trans (le_max_right hx hy) hfirst

/-- The greatest of positive spans is not negative, and zero just if there are none. -/
theorem Greatest.nonneg {spans : List Span} (h : Greatest spans x) (hpos : ∀ y ∈ spans, y.isPositive) :
    Binary64.zero.le x.seconds ∧ (spans = [] ↔ x.seconds.eqv .zero) := by
  rcases h.mem with hmem | ⟨rfl, rfl⟩
  · obtain ⟨-, hnum, hlevel⟩ := Binary64.lt_iff.1 (hpos x hmem)
    refine ⟨Binary64.le_iff.2 ⟨rfl, hnum, hlevel.le⟩, iff_of_false (List.ne_nil_of_mem hmem) fun hzero => ?_⟩
    exact hlevel.ne' (Binary64.eqv_iff.1 hzero).2.2
  · exact ⟨rfl, iff_of_true rfl rfl⟩

/-- Of positive spans the greatest is found from zero on. -/
theorem greatest_foldl_max {spans : List Span} (h : ∀ x ∈ spans, x.isPositive) : Greatest spans (spans.foldl max zero) := by
  obtain ⟨hmem, hle⟩ := foldl_max (x := zero) rfl fun x hx => isNaN_of_isPositive (h x hx)
  obtain ⟨-, hle⟩ := List.forall_mem_cons.1 hle
  refine ⟨?_, hle⟩
  rcases List.mem_cons.1 hmem with hzero | hmem
  · refine .inr ⟨List.eq_nil_iff_forall_not_mem.2 fun x hx => ?_, hzero⟩
    -- A positive span is above zero, so the greatest one would be too.
    have hpos := (Binary64.lt_iff.1 (h x hx)).2.2
    have hbelow := (Binary64.le_iff.1 (hle x hx)).2.2
    rw [hzero] at hbelow
    exact hbelow.not_gt hpos
  · exact .inl hmem

end Span

/-! ## Delays -/

/-- How late an event is when its turn comes, if it is. -/
def Turn.delay? (turn : Turn VirtualClock) (e : Event) : Option Span :=
  if e.time < turn.came.now then some (turn.came.now - e.time) else none

/-- The delays of the events that are late. -/
def delays (events : List Event) (turns : List (Turn VirtualClock)) : List Span :=
  (events.zip turns).filterMap fun p => p.2.delay? p.1

theorem length_delays (events : List Event) (turns : List (Turn VirtualClock)) :
    (delays events turns).length = (events.zip turns).countP fun p => p.1.time < p.2.came.now := by
  rw [delays, List.length_filterMap_eq_countP]
  refine List.countP_congr fun p _ => ?_
  unfold Turn.delay?
  split_ifs with h <;> simp [h]

/-- What is found of events and turns side by side begins with what is found of the first ones. -/
theorem filterMap_zip_cons {α : Type} (f : Turn VirtualClock → Event → Option α) (e : Event) (events : List Event)
    (turn : Turn VirtualClock) (turns : List (Turn VirtualClock)) :
    (((e :: events).zip (turn :: turns)).filterMap fun p => f p.2 p.1) =
      (f turn e).toList ++ (events.zip turns).filterMap fun p => f p.2 p.1 := by
  rw [List.zip_cons_cons, List.filterMap_cons]
  cases f turn e <;> rfl

theorem delays_cons (e : Event) (events : List Event) (turn : Turn VirtualClock) (turns : List (Turn VirtualClock)) :
    delays (e :: events) (turn :: turns) = (turn.delay? e).toList ++ delays events turns :=
  filterMap_zip_cons Turn.delay? e events turn turns

theorem delays_positive {events : List Event} (hfinite : ∀ e ∈ events, e.time.seconds.isFinite)
    (turns : List (Turn VirtualClock)) : ∀ x ∈ delays events turns, x.isPositive := by
  intro x hx
  obtain ⟨p, hp, hdelay⟩ := List.mem_filterMap.1 hx
  unfold Turn.delay? at hdelay
  split_ifs at hdelay with hlate
  cases hdelay
  exact Binary64.sub_pos_of_lt (hfinite p.1 (List.of_mem_zip hp).1) hlate

namespace VirtualClock

variable {c : VirtualClock} {target : Instant}

/-- A wait for an instant that is past tells by how much it is. -/
theorem lateness_of_lt (ht : target.seconds.isFinite) (h : target < c.now) :
    (c.waitUntil target).1 = c.now - target := by
  obtain ⟨-, hnum, hlevel⟩ := Binary64.lt_iff.1 h
  have hdue : target ≤ c.now := Binary64.le_iff.2 ⟨Binary64.isNaN_of_isFinite ht, hnum, hlevel.le⟩
  unfold waitUntil
  dsimp only
  rw [if_pos ((remaining_nonpos_iff ht hnum).2 hdue)]
  exact congrArg Span.mk (Binary64.neg_sub_of_lt ht h)

end VirtualClock

/-- What the wait of a turn answers is positive just for a late event, and then it is the delay. -/
theorem Turn.delay?_eq {turn : Turn VirtualClock} {e : Event} (he : e.time.seconds.isFinite)
    (hnum : turn.came.now.seconds.isNaN = false) : turn.delay? e =
      if (turn.came.waitUntil e.time).1.isPositive then some (turn.came.waitUntil e.time).1 else none := by
  unfold delay?
  by_cases hlate : e.time < turn.came.now
  · rw [if_pos hlate, VirtualClock.lateness_of_lt he hlate, if_pos]
    exact Binary64.sub_pos_of_lt he hlate
  · have hsoon : turn.came.now ≤ e.time := by
      refine Binary64.le_iff.2 ⟨hnum, Binary64.isNaN_of_isFinite he, not_lt.1 fun hlt => hlate ?_⟩
      exact Binary64.lt_iff.2 ⟨Binary64.isNaN_of_isFinite he, hnum, hlt⟩
    rw [if_neg hlate, VirtualClock.lateness_of_le he hsoon, if_neg Bool.false_ne_true]

/-- An event that is taken adds one to the figures, and its delay if it has one. -/
theorem Progress.figures_turn {p : Progress} {e : Event} (instrument : Instrument) (he : e.time.seconds.isFinite)
    (hnum : p.clock.now.seconds.isNaN = false) : (p.turn instrument.cost e).figures = ⟨p.figures.dispatched + 1,
      p.figures.late + ((p.attempt instrument e).delay? e).toList.length,
      ((p.attempt instrument e).delay? e).toList.foldl Span.max p.figures.maxLateness⟩ := by
  have hdelay : (p.attempt instrument e).delay? e = _ := Turn.delay?_eq he hnum
  rw [hdelay, turn, Playback.sent, Playback.turn]
  unfold attempt
  split_ifs <;> rfl

namespace Played

variable {instrument : Instrument} {p : Progress} {events : List Event} {outcome : Except Fault Playback}
  {turns : List (Turn VirtualClock)} {last : VirtualClock}

/-- Events that are taken are all attempted in order, and the figures are those of their delays. -/
theorem figures (h : Played instrument p events outcome turns last) (htaken : ∀ n, instrument.answer n = .ok ())
    (hfinite : ∀ e ∈ events, e.time.seconds.isFinite) (hnum : ∀ turn ∈ turns, turn.came.now.seconds.isNaN = false) :
    turns.map (fun turn => (turn.message, turn.answer)) = events.map (fun e => (e.message, .ok ())) ∧
    outcome = .ok ⟨p.figures.dispatched + events.length, p.figures.late + (delays events turns).length,
      (delays events turns).foldl Span.max p.figures.maxLateness⟩ := by
  induction h with
  | done p => exact ⟨rfl, rfl⟩
  | @next p e events outcome turns last hanswer hrest ih =>
    obtain ⟨he, hfinite⟩ := List.forall_mem_cons.1 hfinite
    obtain ⟨hcame, hnum⟩ := List.forall_mem_cons.1 hnum
    obtain ⟨hturns, houtcome⟩ := ih hfinite hnum
    refine ⟨?_, ?_⟩
    · rw [List.map_cons, List.map_cons, hturns, Progress.attempt, hanswer]
    · rw [houtcome, delays_cons, Progress.figures_turn instrument he hcame, List.length_append, List.foldl_append,
        List.length_cons, Nat.add_assoc, Nat.add_assoc, Nat.add_comm 1]
  | @stop p e events fault hanswer =>
    rw [htaken] at hanswer
    nomatch hanswer

end Played

namespace Rehearsal

variable {instrument : Instrument} {s : Sequence} {r : Rehearsal}

/-- A playback whose messages are all taken attempts them in order, and its figures are the
number of its events, the number of the late ones and the greatest of their delays. -/
theorem play_figures (htaken : ∀ n, instrument.answer n = .ok ()) (hfinite : ∀ e ∈ s.events, e.time.seconds.isFinite)
    (hnum : ∀ turn ∈ r.turns instrument s, turn.came.now.seconds.isNaN = false) :
    (r.turns instrument s).map (fun turn => (turn.message, turn.answer)) = s.events.map (fun e => (e.message, .ok ())) ∧
    ∃ figures, (r.play instrument s).1 = .ok figures ∧ figures.dispatched = s.events.length ∧
      figures.late = ((s.events.zip (r.turns instrument s)).countP fun p => p.1.time < p.2.came.now) ∧
      Span.Greatest (delays s.events (r.turns instrument s)) figures.maxLateness := by
  obtain ⟨last, hplayed, -⟩ := play_played instrument s r
  obtain ⟨hturns, houtcome⟩ := hplayed.figures htaken hfinite hnum
  refine ⟨hturns, _, houtcome, Nat.zero_add _, ?_, Span.greatest_foldl_max (delays_positive hfinite _)⟩
  rw [← length_delays]
  exact Nat.zero_add _

/-! ## Reports -/

/-- The lines that were written for debugging. -/
def reports (r : Rehearsal) : List JournalLine := r.lines.toList.filter (·.level = .debug)

theorem reports_write (r : Rehearsal) (line : JournalLine) :
    (r.write line).reports = r.reports ++ if line.level = .debug then [line] else [] := by
  rw [reports, reports, write, Array.toList_push, List.filter_append, List.filter_singleton]
  split_ifs <;> simp_all

/-- At every other level nothing is reported. -/
theorem reports_write_of_ne (r : Rehearsal) {level : Level} {text : String} (h : level ≠ .debug) :
    (r.write ⟨level, text⟩).reports = r.reports := by
  rw [reports_write, if_neg h, List.append_nil]

theorem reports_send (instrument : Instrument) (message : Message) (r : Rehearsal) :
    (r.send instrument message).2.reports = r.reports := by
  unfold send
  cases instrument with
  | journal => exact reports_write_of_ne _ (by decide)
  | recorder cost failure =>
    dsimp only
    cases cost r.attempts <;> cases failure r.attempts <;> rfl

end Rehearsal

/-- What is reported of an event when its turn comes. -/
def Turn.report? (turn : Turn VirtualClock) (e : Event) : Option JournalLine :=
  if (turn.came.waitUntil e.time).1.isPositive then some (e.lateLine (turn.came.waitUntil e.time).1) else none

namespace Rehearsal

variable {instrument : Instrument} {s : Sequence} {r : Rehearsal}

/-- The wait for an event reports it if it is late. -/
theorem reports_due (r : Rehearsal) (e : Event) : (r.due e).reports = r.reports ++
    if (r.clock.waitUntil e.time).1.isPositive then [e.lateLine (r.clock.waitUntil e.time).1] else [] := by
  unfold due
  dsimp only
  rw [reports_write_of_ne _ (by decide)]
  split_ifs
  · exact reports_write _ _
  · exact (List.append_nil _).symm

/-- Nothing else is reported in its turn. -/
theorem reports_turn (instrument : Instrument) (r : Rehearsal) (e : Event) :
    ((stage instrument).turn e r).answered.reports =
      r.reports ++ ((((stage instrument).turn e r).map clock).report? e).toList := by
  have hanswered : ((stage instrument).turn e r).answered = ((r.due e).send instrument e.message).2 := by
    rw [Stage.turn, await_run]
    rfl
  have hcame : (((stage instrument).turn e r).map clock).came = r.clock := rfl
  rw [hanswered, reports_send, reports_due, Turn.report?, hcame]
  split_ifs <;> rfl

end Rehearsal

/-- The turns of events that are all taken report the late ones in order. -/
theorem Takes.reports {instrument : Instrument} (htaken : ∀ n, instrument.answer n = .ok ()) {figures : Playback}
    {r last : Rehearsal} {events : List Event} {outcome : Except Fault Playback} {turns : List (Turn Rehearsal)}
    (h : Takes (Rehearsal.stage instrument) figures r events outcome turns last) :
    last.reports = r.reports ++
      (events.zip (turns.map (Turn.map Rehearsal.clock))).filterMap fun p => p.2.report? p.1 := by
  induction h with
  | done figures r => exact (List.append_nil _).symm
  | @next figures r last e events outcome turns _ hrest ih =>
    rw [ih, Rehearsal.reports_turn, List.map_cons, filterMap_zip_cons Turn.report?, List.append_assoc]
  | @stop figures r e events fault hrefused =>
    have hanswer := congrArg Turn.answer (Rehearsal.turn_progress instrument r e figures).1
    nomatch (hrefused.symm.trans hanswer).trans (htaken r.attempts)

namespace Rehearsal

variable {instrument : Instrument} {s : Sequence} {r : Rehearsal}

/-- If all messages are taken, then the late events are reported in their order with their
delays, and nothing else is. -/
theorem play_reports (htaken : ∀ n, instrument.answer n = .ok ()) (hfinite : ∀ e ∈ s.events, e.time.seconds.isFinite)
    (hnum : ∀ turn ∈ r.turns instrument s, turn.came.now.seconds.isNaN = false) :
    (r.play instrument s).2.reports = r.reports ++
      (s.events.zip (r.turns instrument s)).filterMap fun p => (p.2.delay? p.1).map p.1.lateLine := by
  obtain ⟨last, htakes, hheld⟩ := (stage instrument).play_takes s r
  -- The lines before the first event and after the last one report nothing.
  have hclosed : (r.play instrument s).2.reports = last.reports := by
    unfold play
    rw [hheld]
    cases (((stage instrument).play s).run r).1 with
    | ok figures => exact reports_write_of_ne _ (by decide)
    | error fault => rfl
  have hopened : (((stage instrument).write s.openingLine).run r).2.reports = r.reports :=
    reports_write_of_ne r (by decide)
  rw [hclosed, htakes.reports htaken, hopened]
  refine congrArg (r.reports ++ ·) (List.filterMap_congr fun p hp => ?_)
  obtain ⟨he, hturn⟩ := List.of_mem_zip hp
  rw [Turn.delay?_eq (hfinite p.1 he) (hnum p.2 hturn), Turn.report?]
  split_ifs <;> rfl

/-! ## Main theorem -/

end Rehearsal

end ScoreSequencer
