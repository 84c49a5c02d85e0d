import Mathlib
import ScoreSequencer.Proofs.Playback.Punctuality
/-!
# Waits and playbacks come to an end

`Slept` is the loop of a wait as a relation, with the clocks on which it went to sleep.
From every clock whose oversleep is not negative it ends where `sleepUntil` does, whatever
its reading and its target are: a full sleep leads forward by at least one number or off
the numbers, and there are only so many early wake-ups and so many numbers. A playback
therefore ends as well: the same player, hosted by one who gives up a wait after a number
of sleeps (`limited`), never has to if that number is high enough.
-/

namespace ScoreSequencer

namespace VirtualClock

variable {c d : VirtualClock} {target : Instant} {slept : List VirtualClock}

/-! ## The loop of a wait -/

/-- While something remains, the loop sleeps for it. It went to sleep on these clocks, one after
another, and ended on the last one. -/
inductive Slept (target : Instant) : VirtualClock → List VirtualClock → VirtualClock → Prop
  | done {c : VirtualClock} : ¬(c.remaining target).isPositive → Slept target c [] c
  | sleep {c d : VirtualClock} {slept : List VirtualClock} : (c.remaining target).isPositive →
      Slept target (c.sleep (c.remaining target)) slept d → Slept target c (c :: slept) d

theorem Slept.eq_cons (h : Slept target c slept d) (hpos : (c.remaining target).isPositive) :
    ∃ rest, slept = c :: rest ∧ Slept target (c.sleep (c.remaining target)) rest d := by
  cases h with
  | done hstays => exact absurd hpos hstays
  | sleep _ hrest => exact ⟨_, rfl, hrest⟩

/-- Off the numbers nothing remains. -/
theorem remaining_of_isNaN (h : c.now.seconds.isNaN) : ¬(c.remaining target).isPositive := by
  intro hpos
  obtain ⟨-, hnum, -⟩ := Binary64.lt_iff.1 hpos
  rw [(Binary64.number_of_sub hnum).2] at h
  nomatch h

/-- Nor does anything remain for an instant that is not to come. -/
theorem remaining_of_due (h : target ≤ c.now) : ¬(c.remaining target).isPositive := by
  intro hpos
  obtain ⟨-, -, hlt⟩ := Binary64.lt_iff.1 (Binary64.lt_of_sub_pos hpos)
  exact hlt.not_ge (Binary64.le_iff.1 h).2.2

/-- From every clock that does not oversleep by a negative span the loop ends, and where it ends
is what `sleepUntil` computes. -/
theorem sleepUntil_slept (ho : c.oversleep.isNegative = false) : ∃ slept, Slept target c slept (c.sleepUntil target) := by
  induction c using sleepUntil.induct target with
  | case1 c hpos next hsteps ih =>
    rw [sleepUntil, if_pos hpos, if_pos hsteps]
    obtain ⟨slept, hslept⟩ := ih (by rw [oversleep_sleep]; exact ho)
    exact ⟨c :: slept, .sleep hpos hslept⟩
  | case2 c hpos next hsteps =>
    -- No fewer steps are left only off the numbers, and there the loop ends.
    rw [sleepUntil, if_pos hpos, if_neg hsteps]
    refine ⟨[c], .sleep hpos (.done (remaining_of_isNaN ?_))⟩
    by_contra hnum
    exact hsteps (stepsLeft_sleep ho hpos (by simpa using hnum))
  | case3 c hpos =>
    rw [sleepUntil, if_neg hpos]
    exact ⟨[], .done hpos⟩

theorem reach_slept (ho : c.oversleep.isNegative = false) (target : Instant) :
    ∃ slept, Slept target c slept (c.reach target) := by
  rw [reach_eq]
  split_ifs with hdue
  · refine ⟨[], .done fun hpos => ?_⟩
    exact (Binary64.lt_iff.1 hpos).2.2.not_ge (Binary64.le_iff.1 hdue).2.2
  · exact sleepUntil_slept ho

/-! ## How often it sleeps -/

/-- The spans that a wait requests are kept in order. -/
theorem Slept.sleeps (h : Slept target c slept d) :
    d.sleeps = c.sleeps ++ (slept.map (·.remaining target)).toArray := by
  induction h with
  | done => simp
  | @sleep c d slept hpos hrest ih =>
    have hsleep : (c.sleep (c.remaining target)).sleeps = c.sleeps.push (c.remaining target) := by
      unfold VirtualClock.sleep
      cases c.early <;> rfl
    rw [ih, hsleep]
    simp

/-- Every sleep that is cut short uses up an early wake-up. -/
theorem Slept.countP_early (h : Slept target c slept d) : slept.countP (0 < ·.early) ≤ c.early := by
  induction h with
  | done => simp
  | @sleep c d slept hpos hrest ih =>
    rcases Nat.eq_zero_or_eq_succ_pred c.early with hfull | hearly
    · rw [(sleep_of_full hfull _).1] at ih
      simp [hfull, Nat.le_zero.1 ih]
    · rw [(sleep_of_early hearly _).1] at ih
      rw [List.countP_cons]
      split_ifs <;> omega

/-- Every clock that the loop slept on has something remaining and the oversleep of the first one. -/
theorem Slept.of_mem (h : Slept target c slept d) :
    ∀ b ∈ slept, (b.remaining target).isPositive ∧ b.oversleep = c.oversleep := by
  induction h with
  | done => simp
  | @sleep c d slept hpos hrest ih =>
    rw [oversleep_sleep] at ih
    exact List.forall_mem_cons.2 ⟨⟨hpos, rfl⟩, ih⟩

/-- What is met after a first sleep is met. -/
theorem Met.of_sleep (hpos : (c.remaining target).isPositive) (h : Met target (c.sleep (c.remaining target)) d) :
    Met target c d := by
  induction h with
  | start => exact .sleep .start hpos
  | sleep _ hnext ih => exact ih.sleep hnext

/-- Where the sums are exact, a full sleep is the last one. -/
theorem remaining_of_full (ho : c.oversleep.isNegative = false) (hfull : c.early = 0)
    (hexact : (c.now + c.remaining target).seconds.eqv target.seconds) :
    ¬((c.sleep (c.remaining target)).remaining target).isPositive := by
  cases hnum : (c.sleep (c.remaining target)).now.seconds.isNaN with
  | true => exact remaining_of_isNaN hnum
  | false =>
    refine remaining_of_due ?_
    rw [(sleep_of_full hfull _).2] at hnum ⊢
    have hover := (Span.isNegative_eq_false (Binary64.number_of_add hnum).2).1 ho
    exact Instant.le_trans (Binary64.le_of_eqv (Binary64.eqv_symm hexact)) (Binary64.le_add_of_nonneg hover hnum)

theorem Slept.length_le (h : Slept target c slept d) (ho : c.oversleep.isNegative = false) (hexact : c.Exact target) :
    slept.length ≤ c.early + 1 := by
  induction h with
  | done => simp
  | @sleep c d slept hpos hrest ih =>
    rcases Nat.eq_zero_or_eq_succ_pred c.early with hfull | hearly
    · cases hrest with
      | done => simp
      | sleep hagain => exact absurd hagain (remaining_of_full ho hfull (hexact c .start hpos))
    · have hnext : slept.length ≤ _ := ih (by rwa [oversleep_sleep]) fun b hb => hexact b (hb.of_sleep hpos)
      rw [(sleep_of_early hearly _).1] at hnext
      rw [List.length_cons]
      omega

/-! ## Limited waits -/

/-- The loop of a wait, given up if it would have to sleep more often than the limit says. -/
def sleepWithin (target : Instant) : Nat → VirtualClock → Option VirtualClock
  | 0, c => if (c.remaining target).isPositive then none else some c
  | limit + 1, c =>
    if (c.remaining target).isPositive then sleepWithin target limit (c.sleep (c.remaining target)) else some c

theorem Slept.sleepWithin_eq (h : Slept target c slept d) {limit : Nat} (hlimit : slept.length ≤ limit) :
    sleepWithin target limit c = some d := by
  induction h generalizing limit with
  | done hstays => cases limit <;> rw [sleepWithin, if_neg hstays]
  | sleep hpos hrest ih =>
    cases limit with
    | zero => nomatch hlimit
    | succ limit =>
      rw [sleepWithin, if_pos hpos]
      exact ih (Nat.le_of_succ_le_succ hlimit)

/-- Waits for an instant as a clock does, with a limit on its sleeps. -/
def waitWithin (limit : Nat) (c : VirtualClock) (target : Instant) : Option (Span × VirtualClock) :=
  let remaining := c.remaining target
  if remaining.seconds.le .zero then some (-remaining, c)
  else (sleepWithin target limit c).map fun d => (.zero, d)

/-- A wait is not given up if its limit is high enough. -/
theorem eventually_waitWithin (ho : c.oversleep.isNegative = false) (target : Instant) :
    ∀ᶠ limit in Filter.atTop, waitWithin limit c target = some (c.waitUntil target) := by
  obtain ⟨slept, hslept⟩ : ∃ slept, Slept target c slept (c.sleepUntil target) := sleepUntil_slept ho
  filter_upwards [Filter.eventually_ge_atTop slept.length] with limit hlimit
  unfold waitWithin waitUntil
  dsimp only
  split_ifs
  · rfl
  · rw [hslept.sleepWithin_eq hlimit, Option.map_some]

end VirtualClock

/-! ## Limited playbacks -/

section Ends

variable {σ α β : Type} {inv : σ → Prop}

/-- From the states of an invariant, the limited action is not given up if its limit is high
enough; then it answers and does what the plain one does, which keeps the invariant. -/
def Ends (inv : σ → Prop) (limited : Nat → OptionT (StateM σ) α) (plain : StateM σ α) : Prop :=
  ∀ r, inv r → inv (plain.run r).2 ∧
    ∀ᶠ limit in Filter.atTop, (limited limit).run.run r = (some (plain.run r).1, (plain.run r).2)

namespace Ends

theorem answer (a : α) : Ends inv (fun _ => pure a) (pure a) := fun _ h => ⟨h, .of_forall fun _ => rfl⟩

theorem lift {action : StateM σ α} (h : ∀ r, inv r → inv (action.run r).2) : Ends inv (fun _ => liftM action) action :=
  fun r hr => ⟨h r hr, .of_forall fun _ => rfl⟩

theorem bind {limited : Nat → OptionT (StateM σ) α} {plain : StateM σ α} {f : Nat → α → OptionT (StateM σ) β}
    {g : α → StateM σ β} (h : Ends inv limited plain) (hnext : ∀ a, Ends inv (fun limit => f limit a) (g a)) :
    Ends inv (fun limit => limited limit >>= f limit) (plain >>= g) := by
  intro r hr
  obtain ⟨hinv, hfirst⟩ := h r hr
  obtain ⟨hlast, hrest⟩ := hnext _ _ hinv
  refine ⟨hlast, ?_⟩
  filter_upwards [hfirst, hrest] with limit hfirst hrest
  rw [OptionT.run_bind, Option.elimM, run_bind_of_run hfirst]
  exact hrest

end Ends

end Ends

namespace Rehearsal

/-- Waits for an instant, or gives up and leaves the rehearsal as it was. -/
def waitWithin (limit : Nat) (r : Rehearsal) (target : Instant) : Option Span × Rehearsal :=
  match r.clock.waitWithin limit target with
  | some (lateness, clock) => (some lateness, { r with clock })
  | none => (none, r)

/-- A host of rehearsals who gives up a wait that sleeps more often than the limit says. -/
def limited (instrument : Instrument) (limit : Nat) : Host (StateM Rehearsal) where
  now r := (r.clock.now, r)
  waitUntil target r := r.waitWithin limit target
  send message r := r.send instrument message
  write line r := ((), r.write line)

/-- The clock does not oversleep by a negative span. -/
def Steady (r : Rehearsal) : Prop := r.clock.oversleep.isNegative = false

variable {instrument : Instrument}

theorem ends_wait (target : Instant) :
    Ends Steady (fun limit => (limited instrument limit).stage.waitUntil target) ((stage instrument).waitUntil target) := by
  intro r hr
  constructor
  · show (r.clock.reach target).oversleep.isNegative = false
    rw [(VirtualClock.later_reach hr target).oversleep]
    exact hr
  · filter_upwards [VirtualClock.eventually_waitWithin hr target] with limit hwait
    show r.waitWithin limit target = _
    rw [waitWithin, hwait]
    rfl

theorem ends_write (line : JournalLine) :
    Ends Steady (fun limit => (limited instrument limit).stage.write line) ((stage instrument).write line) :=
  .lift fun _ hr => hr

theorem ends_send (message : Message) :
    Ends Steady (fun limit => (limited instrument limit).stage.send message) ((stage instrument).send message) := by
  refine .lift fun r hr => ?_
  show (r.send instrument message).2.clock.oversleep.isNegative = false
  unfold send
  cases instrument with
  | journal => exact hr
  | recorder cost failure =>
    dsimp only
    cases cost r.attempts <;> cases failure r.attempts <;> exact hr

theorem ends_silence (c : Channel) :
    Ends Steady (fun limit => (limited instrument limit).stage.silence c) ((stage instrument).silence c) := by
  refine (ends_write _).bind fun _ => (ends_send _).bind fun answer => ?_
  cases answer with
  | ok => exact .answer ()
  | error fault => exact ends_write _

theorem ends_await (e : Event) :
    Ends Steady (fun limit => (limited instrument limit).stage.await e) ((stage instrument).await e) := by
  refine (ends_wait e.time).bind fun lateness => ?_
  -- A late event is reported in one more line.
  split_ifs
  · exact (ends_write _).bind fun _ => (ends_write _).bind fun _ => .answer lateness
  · exact (ends_write _).bind fun _ => .answer lateness

theorem ends_dispatch (figures : Playback) (events : List Event) :
    Ends Steady (fun limit => (limited instrument limit).stage.dispatch figures events)
      ((stage instrument).dispatch figures events) := by
  induction events generalizing figures with
  | nil => exact .answer _
  | cons e events ih =>
    refine (ends_await e).bind fun lateness => (ends_send _).bind fun answer => ?_
    cases answer with
    | ok => exact ih _
    | error fault => exact (ends_silence e.channel).bind fun _ => .answer _

/-- Every playback ends on a clock that does not oversleep by a negative span. -/
theorem ends_play (s : Sequence) :
    Ends Steady (fun limit => (limited instrument limit).stage.play s) ((stage instrument).play s) := by
  refine (ends_write _).bind fun _ => (ends_dispatch {} s.events).bind fun outcome => ?_
  cases outcome with
  | error fault => exact .answer _
  | ok figures => exact (ends_wait _).bind fun _ => (ends_write _).bind fun _ => .answer _

/-! ## Main theorem -/

/-- Every wait ends, whatever the reading of the clock and the target are, as long as the clock
does not oversleep by a negative span. Of its sleeps no more are cut short than there are early
wake-ups; any other one either moves the clock forward or takes it off the numbers; and where
what remains, added to the reading, gives the target, only one sleep is not cut short. So every
playback ends too: given up are only waits that sleep more often than some limit, and if that is
high enough then none is, and the outcome is that of the rehearsal. -/
theorem waits_end :
    (∀ (c : VirtualClock) (target : Instant), c.oversleep.isNegative = false →
      ∃ slept, VirtualClock.Slept target c slept (c.waitUntil target).2 ∧
        (c.waitUntil target).2.sleeps = c.sleeps ++ (slept.map (·.remaining target)).toArray ∧
        slept.countP (0 < ·.early) ≤ c.early ∧
        (∀ d ∈ slept, d.early = 0 → (d.sleep (d.remaining target)).now.seconds.isNaN = false →
          d.now < (d.sleep (d.remaining target)).now) ∧
        (c.Exact target → slept.length ≤ c.early + 1)) ∧
    ∀ (instrument : Instrument) (s : Sequence) (r : Rehearsal), r.clock.oversleep.isNegative = false →
      ∃ limit, ∀ n ≥ limit, ((limited instrument n).stage.play s).run.run r =
        (some (r.play instrument s).1, (r.play instrument s).2) := by
  refine ⟨fun c target ho => ?_, fun instrument s r ho => ?_⟩
  · obtain ⟨slept, hslept⟩ := VirtualClock.reach_slept ho target
    refine ⟨slept, hslept, hslept.sleeps, hslept.countP_early, fun d hd hfull hnum => ?_, hslept.length_le ho⟩
    obtain ⟨hpos, hover⟩ := hslept.of_mem d hd
    exact VirtualClock.lt_sleep (hover ▸ ho) hfull hpos hnum
  · exact Filter.eventually_atTop.1 (ends_play s r ho).2

/-- The restless clock sleeps twice for the first second, once cut short and once, at half a
second, in full. From the negative infinity a wait sleeps once, for an infinite span. -/
theorem waits_end_restless :
    (∃ slept, VirtualClock.Slept ⟨.ofNat 1⟩ restless.clock slept (restless.clock.waitUntil ⟨.ofNat 1⟩).2 ∧
      slept.length ≤ 2 ∧ ∃ d ∈ slept, d.early = 0 ∧ d.now = ⟨.ofNat 1 / .ofNat 2⟩ ∧
        d.now < (d.sleep (d.remaining ⟨.ofNat 1⟩)).now) ∧
    (∃ slept, VirtualClock.Slept ⟨.zero⟩ { now := ⟨.infinity true⟩ } slept
        (VirtualClock.waitUntil { now := ⟨.infinity true⟩ } ⟨.zero⟩).2 ∧
      slept.map (·.remaining ⟨.zero⟩) = [⟨.infinity false⟩]) ∧
    ∃ limit, ∀ n ≥ limit, ((limited .journal n).stage.play crotchetSequence).run.run restless =
      (some (restless.play .journal crotchetSequence).1, (restless.play .journal crotchetSequence).2) := by
  obtain ⟨hwait, hplay⟩ := waits_end
  have ho : restless.clock.oversleep.isNegative = false := by decide +kernel
  refine ⟨?_, ?_, hplay .journal crotchetSequence restless ho⟩
  · obtain ⟨slept, hslept, -, -, hforward, hlength⟩ := hwait restless.clock ⟨.ofNat 1⟩ ho
    refine ⟨slept, hslept, hlength restless_exact, restless.clock.sleep (restless.clock.remaining ⟨.ofNat 1⟩), ?_⟩
    have hmem : restless.clock.sleep (restless.clock.remaining ⟨.ofNat 1⟩) ∈ slept := by
      obtain ⟨rest, rfl, hrest⟩ := hslept.eq_cons (by decide +kernel)
      obtain ⟨rest, rfl, -⟩ := hrest.eq_cons (by decide +kernel)
      simp
    exact ⟨hmem, by decide +kernel, by decide +kernel, hforward _ hmem (by decide +kernel) (by decide +kernel)⟩
  · obtain ⟨slept, hslept, hsleeps, -⟩ := hwait { now := ⟨.infinity true⟩ } ⟨.zero⟩ (by decide +kernel)
    refine ⟨slept, hslept, ?_⟩
    have hrequested : (VirtualClock.waitUntil { now := ⟨.infinity true⟩ } ⟨.zero⟩).2.sleeps = #[⟨.infinity false⟩] := by
      decide +kernel
    rw [hrequested] at hsleeps
    simpa using hsleeps.symm

end Rehearsal

end ScoreSequencer
