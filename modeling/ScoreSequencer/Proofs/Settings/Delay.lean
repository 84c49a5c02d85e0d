import Mathlib
import ScoreSequencer.Proofs.Binary64.Overflow
import ScoreSequencer.Proofs.Playback.Timeline
/-!
# Delays that can be waited for

A delay is accepted if it is finite and not below zero, but a `Duration` must be shorter
than 2 ^ 64 seconds. Below that every delay becomes the nearest number of nanoseconds,
since the last binary64 number before 2 ^ 64 is too far from it to be rounded there
(`Span.duration?_isSome_iff`). Playing fails where a wait is too long (`playSequence_stopped`);
the main theorem `delay_convertible` says for which delays this cannot happen.
-/

namespace ScoreSequencer

/-! ## Rounding to the nearest -/

section Nearest

variable {num den : Nat}

theorem roundHalfEven_cases (num den : Nat) :
    roundHalfEven num den = num / den ∧ 2 * (num % den) ≤ den ∨
      roundHalfEven num den = num / den + 1 ∧ den ≤ 2 * (num % den) := by
  unfold roundHalfEven
  dsimp only
  split_ifs with hlow hhigh
  · exact .inl ⟨rfl, hlow.le⟩
  · exact .inr ⟨rfl, hhigh.le⟩
  · omega

/-- Rounding moves a fraction by half a step at most. -/
theorem roundHalfEven_error (num : Nat) (hden : 0 < den) : |(roundHalfEven num den : ℚ) - num / den| ≤ 1 / 2 := by
  have hpos : (0 : ℚ) < den := by exact_mod_cast hden
  have hsplit : (num : ℚ) / den = (num / den : Nat) + (num % den : Nat) / den := by
    have hdiv : (den : ℚ) * (num / den : Nat) + (num % den : Nat) = num := by exact_mod_cast Nat.div_add_mod num den
    rw [← hdiv, add_div, mul_div_cancel_left₀ _ hpos.ne']
  rw [hsplit]
  rcases roundHalfEven_cases num den with ⟨hround, hrest⟩ | ⟨hround, hrest⟩
  · have hhalf : ((num % den : Nat) : ℚ) / den ≤ 1 / 2 := by
      rw [div_le_div_iff₀ hpos two_pos]
      exact_mod_cast (by omega : num % den * 2 ≤ 1 * den)
    have hnonneg : 0 ≤ ((num % den : Nat) : ℚ) / den := by positivity
    rw [hround, abs_le]
    constructor <;> linarith
  · have hhalf : 1 / 2 ≤ ((num % den : Nat) : ℚ) / den := by
      rw [div_le_div_iff₀ two_pos hpos]
      exact_mod_cast (by omega : 1 * den ≤ num % den * 2)
    have hle : ((num % den : Nat) : ℚ) / den ≤ 1 := by
      rw [div_le_one hpos]
      exact_mod_cast (Nat.mod_lt num hden).le
    rw [hround, abs_le]
    push_cast
    constructor <;> linarith

theorem roundHalfEven_nearest (hden : 0 < den) (k : Nat) :
    |(roundHalfEven num den : ℚ) - num / den| ≤ |(k : ℚ) - num / den| := by
  have herror := roundHalfEven_error num hden
  by_cases hk : roundHalfEven num den = k
  · rw [hk]
  · have hapart : (1 : ℚ) ≤ |(roundHalfEven num den : ℚ) - k| := by
      have : (1 : Int) ≤ |(roundHalfEven num den : Int) - k| := Int.one_le_abs (by omega)
      exact_mod_cast this
    have hsum := abs_sub_le (roundHalfEven num den : ℚ) (num / den) k
    rw [abs_sub_comm (num / den : ℚ) k] at hsum
    linarith

end Nearest

/-! ## Spans -/

namespace Binary64

variable {x : Binary64}

/-- The first level from 2 ^ 64 on. -/
def tooLong : Nat := 1087 * 2 ^ 52

theorem weight_tooLong : weight tooLong = 2 ^ 64 * unitsInOne := by decide +kernel

/-- The number before 2 ^ 64. -/
theorem weight_before_tooLong : weight (tooLong - 1) = (2 ^ 64 - 2 ^ 11) * unitsInOne := by decide +kernel

theorem value_lt_iff : x.value < 2 ^ 64 ↔ x.level < tooLong := by
  have hat : weightAt tooLong = 2 ^ 64 * unitsInOne := by
    rw [weightAt, if_neg (by omega), Int.natAbs_natCast, weight_tooLong]
    push_cast
    rfl
  rw [← weightAt_strictMono.lt_iff_lt, ← units_eq, hat, value, div_lt_iff₀ unitsInOne_cast_pos]
  exact_mod_cast Iff.rfl

theorem level_nonpos (hfin : x.isFinite) (h : ¬ x.isPositive) : x.level ≤ 0 := by
  by_contra hlevel
  refine h ?_
  rw [isPositive, hfin, Bool.true_and]
  exact lt_iff.2 ⟨rfl, isNaN_of_isFinite hfin, not_le.1 hlevel⟩

theorem value_of_level_zero (h : x.level = 0) : x.value = 0 := by
  rw [value, units_eq, h, show weightAt 0 = 0 by decide, Int.cast_zero, zero_div]

end Binary64

namespace Duration

/-- The duration of a number of nanoseconds that is below the limit. -/
def ofNanoseconds? (n : Nat) : Option Duration := if n < limit then some ⟨n⟩ else none

variable {n : Nat} {w : Duration}

theorem ofNanoseconds?_eq_some : ofNanoseconds? n = some w ↔ n < limit ∧ w.nanoseconds = n := by
  rw [ofNanoseconds?, Option.ite_none_right_eq_some, Option.some.injEq, eq_comm (a := w.nanoseconds)]
  cases w
  rw [mk.injEq]

theorem ofNanoseconds?_isSome : (ofNanoseconds? n).isSome ↔ n < limit := by
  simp [Option.isSome_iff_exists, ofNanoseconds?]

end Duration

namespace Span

variable {x : Span} {w : Duration}

/-- The nanoseconds in a positive span, rounded. -/
def nanoseconds (x : Span) : Nat :=
  roundHalfEven (Binary64.weight x.seconds.magnitude * Duration.nanosecondsInSecond) Binary64.unitsInOne

theorem duration?_of_isPositive (h : x.seconds.isPositive) :
    x.duration? = Duration.ofNanoseconds? x.nanoseconds := by
  rw [duration?, if_pos h, nanoseconds, Duration.ofNanoseconds?]

theorem duration?_of_not_isPositive (h : ¬ x.seconds.isPositive) : x.duration? = some ⟨0⟩ := by
  rw [duration?, if_neg h]

/-- Rounding reaches the limit from 2 ^ 64 seconds on only. -/
theorem nanoseconds_lt_limit_iff : x.nanoseconds < Duration.limit ↔ x.seconds.magnitude < Binary64.tooLong := by
  have hunits := Binary64.unitsInOne_pos
  have hround (k : Nat) :
      roundHalfEven (k * Binary64.unitsInOne * Duration.nanosecondsInSecond) Binary64.unitsInOne =
        k * Duration.nanosecondsInSecond := by
    rw [Nat.mul_right_comm, roundHalfEven_mul _ hunits]
  have hmono {j k : Nat} (h : j ≤ k) :
      roundHalfEven (j * Duration.nanosecondsInSecond) Binary64.unitsInOne ≤
        roundHalfEven (k * Duration.nanosecondsInSecond) Binary64.unitsInOne :=
    roundHalfEven_mono hunits hunits (Nat.mul_le_mul_right _ (Nat.mul_le_mul_right _ h))
  constructor
  · intro h
    by_contra hlong
    have hlimit := hmono (Binary64.weight_mono (not_lt.1 hlong))
    rw [Binary64.weight_tooLong, hround] at hlimit
    exact absurd (hlimit.trans_lt h) (lt_irrefl _)
  · intro h
    -- The number before 2 ^ 64 is 2 ^ 11 seconds away from it.
    have hbefore := hmono (Binary64.weight_mono (Nat.le_sub_one_of_lt h))
    rw [Binary64.weight_before_tooLong, hround] at hbefore
    exact hbefore.trans_lt (by decide)

/-- A span is too long for a duration just when it lasts 2 ^ 64 seconds or more. -/
theorem duration?_isSome_iff : x.duration?.isSome ↔ (x.seconds.isFinite → x.seconds.value < 2 ^ 64) := by
  rw [Binary64.value_lt_iff]
  by_cases hpos : x.seconds.isPositive
  · obtain ⟨hsign, -, hfin⟩ := Binary64.of_isPositive hpos
    have hlevel : x.seconds.level = x.seconds.magnitude := by
      rw [Binary64.level, hsign, if_neg Bool.false_ne_true]
    rw [duration?_of_isPositive hpos, Duration.ofNanoseconds?_isSome, nanoseconds_lt_limit_iff, hlevel, Nat.cast_lt]
    exact ⟨fun h _ => h, fun h => h (Binary64.isFinite_iff.2 hfin)⟩
  · rw [duration?_of_not_isPositive hpos]
    refine iff_of_true rfl fun hfin => (Binary64.level_nonpos hfin hpos).trans_lt ?_
    decide

/-- No whole number of nanoseconds is nearer to the span than that of its duration. -/
theorem duration?_nearest (hx : Binary64.zero.le x.seconds) (hfin : x.seconds.isFinite) (h : x.duration? = some w)
    (n : Nat) : |w.nanoseconds - x.seconds.value * 10 ^ 9| ≤ |n - x.seconds.value * 10 ^ 9| := by
  by_cases hpos : x.seconds.isPositive
  · obtain ⟨hsign, -, hfin⟩ := Binary64.of_isPositive hpos
    have hvalue : x.seconds.value * 10 ^ 9 =
        (Binary64.weight x.seconds.magnitude * Duration.nanosecondsInSecond : Nat) / Binary64.unitsInOne := by
      rw [Binary64.Nonneg.value_eq ⟨hsign, hfin.le⟩, Nat.cast_mul, div_mul_eq_mul_div]
      rfl
    rw [duration?_of_isPositive hpos] at h
    rw [(Duration.ofNanoseconds?_eq_some.1 h).2, hvalue, nanoseconds]
    exact roundHalfEven_nearest Binary64.unitsInOne_pos n
  · rw [duration?_of_not_isPositive hpos] at h
    obtain rfl := Option.some.inj h
    have hlevel := le_antisymm (Binary64.level_nonpos hfin hpos) (Binary64.le_iff.1 hx).2.2
    rw [Binary64.value_of_level_zero hlevel, zero_mul, sub_zero, sub_zero, Nat.cast_zero, abs_zero]
    exact abs_nonneg _

end Span

/-! ## Waiting for the start -/

/-- What remains until an instant before 2 ^ 64 is not too long, from any reading from zero up. -/
theorem VirtualClock.remaining_convertible {c : VirtualClock} {target : Instant} (hc : Binary64.zero.le c.now.seconds)
    (ht : target.seconds.value < 2 ^ 64) : (c.remaining target).duration?.isSome := by
  rw [Span.duration?_isSome_iff]
  intro (hfin : (target.seconds - c.now.seconds).isFinite)
  show (target.seconds - c.now.seconds).value < 2 ^ 64
  obtain ⟨-, hnow, hlevel⟩ := Binary64.le_iff.1 hc
  have hadd : (target.seconds + -c.now.seconds).isFinite := by rwa [← Binary64.sub_eq hnow]
  have htfin := Binary64.finite_of_add hadd
  have hcfin : c.now.seconds.isFinite := Binary64.finite_of_add_right (x := -c.now.seconds) htfin hadd
  rw [Binary64.value_lt_iff] at ht ⊢
  rw [Binary64.level_sub htfin hcfin]
  have hunits : 0 ≤ c.now.seconds.units := by
    rw [Binary64.units_eq]
    exact Binary64.weightAt_strictMono.monotone hlevel
  calc Binary64.rounded (target.seconds.units - c.now.seconds.units)
      ≤ Binary64.rounded target.seconds.units := Binary64.rounded_mono (by omega)
    _ = target.seconds.level := Binary64.rounded_units htfin
    _ < Binary64.tooLong := ht

section Run

variable {σ α β : Type} {first : OptionT (StateM σ) α} {next : α → OptionT (StateM σ) β} {r s : σ} {a : α}

/-- A chain of two actions of which the first gives up. -/
theorem run_bind_of_none (h : first.run.run r = (none, s)) : (first >>= next).run.run r = (none, s) := by
  rw [OptionT.run_bind, Option.elimM, run_bind_of_run h]
  rfl

theorem run_bind_of_some (h : first.run.run r = (some a, s)) : (first >>= next).run.run r = (next a).run.run s := by
  rw [OptionT.run_bind, Option.elimM, run_bind_of_run h]
  rfl

variable {ε : Type} {tried : ExceptT ε (StateM σ) α} {after : α → ExceptT ε (StateM σ) β} {x : StateM σ α}

theorem run_bind_of_ok (h : tried.run.run r = (.ok a, s)) : (tried >>= after).run.run r = (after a).run.run s := by
  rw [ExceptT.run_bind, run_bind_of_run h]

theorem run_liftM (h : x.run r = (a, s)) : (liftM x : ExceptT ε (StateM σ) α).run.run r = (.ok a, s) := by
  show (Except.ok <$> x).run r = _
  rw [StateT.run_map, h]
  rfl

end Run

namespace Rehearsal

variable {r : Rehearsal} {target : Instant}

theorem host_waitUntil_run (target : Instant) (r : Rehearsal) : (host.waitUntil target).run.run r =
    match (r.clock.remaining target).duration? with
    | none => (none, r)
    | some _ => (r.waitUntil target).map some id := rfl

/-- A host carries out a wait just when what remains fits a duration. -/
theorem host_waits_iff :
    ((host.waitUntil target).run.run r).1.isSome ↔ (r.clock.remaining target).duration?.isSome := by
  rw [host_waitUntil_run]
  cases (r.clock.remaining target).duration? <;> simp

/-- A wait that is too long is given up, and nothing has happened. -/
theorem host_gives_up (hlong : (r.clock.remaining target).duration? = none) :
    (host.waitUntil target).run.run r = (none, r) := by
  rw [host_waitUntil_run, hlong]

theorem dispatch_stopped {e : Event} {es : List Event} (hlong : (r.clock.remaining e.time).duration? = none)
    (figures : Playback) : (host.stage.dispatch figures (e :: es)).run.run r = (none, r) := by
  have hawait : (host.stage.await e).run.run r = (none, r) := run_bind_of_none (host_gives_up hlong)
  rw [Stage.dispatch]
  exact run_bind_of_none hawait

theorem host_write_run (line : JournalLine) (r : Rehearsal) :
    (host.stage.write line).run.run r = (some (), r.write line) := rfl

theorem play_stopped {s : Sequence} {e : Event} {es : List Event} (hevents : s.events = e :: es)
    (hlong : (r.clock.remaining e.time).duration? = none) : ∃ r', (host.stage.play s).run.run r = (none, r') := by
  rw [Stage.play, hevents, run_bind_of_some (host_write_run _ r)]
  exact ⟨_, run_bind_of_none (dispatch_stopped (r := r.write _) hlong {})⟩

/-- Where the first wait is too long, the performance fails. -/
theorem playSequence_stopped {s : Sequence} {e : Event} {es : List Event} (hevents : s.events = e :: es)
    (hlong : (r.clock.remaining e.time).duration? = none) :
    ((host.playSequence s).run.run r).1 = .error .stopped := by
  let line : JournalLine := ⟨.info, "Spawning the player thread ..."⟩
  have hwrite : (host.write line).run r = ((), r.write line) := rfl
  obtain ⟨r', hplay⟩ := play_stopped (r := r.write line) hevents hlong
  rw [Host.playSequence, run_bind_of_ok (run_liftM hwrite), run_bind_of_ok (run_liftM hplay)]
  rfl

end Rehearsal

/-! ## Main theorem -/

variable {s : Settings} {d : Span}

theorem Settings.of_delay (h : s.delay = .ok d) : d.seconds.isFinite ∧ Binary64.zero.le d.seconds := by
  unfold Settings.delay at h
  split_ifs at h with hok
  cases h
  simpa using hok

/-- An accepted delay becomes a duration just when it is shorter than 2 ^ 64 seconds, and then the
nearest one. If it also starts the piece before 2 ^ 64 by the clock, the wait for the start is
carried out whenever it begins. -/
theorem Settings.delay_convertible (h : s.delay = .ok d) :
    (d.duration?.isSome ↔ d.seconds.value < 2 ^ 64) ∧
    (∀ w, d.duration? = some w → ∀ n : Nat,
      |w.nanoseconds - d.seconds.value * 10 ^ 9| ≤ |n - d.seconds.value * 10 ^ 9|) ∧
    ∀ (now : Instant) (r : Rehearsal), (now + d).seconds.value < 2 ^ 64 → Binary64.zero.le r.clock.now.seconds →
      ((Rehearsal.host.waitUntil (now + d)).run.run r).1.isSome := by
  obtain ⟨hfin, hnonneg⟩ := Settings.of_delay h
  refine ⟨?_, fun w hw => Span.duration?_nearest hnonneg hfin hw, fun now r hstart hr => ?_⟩
  · rw [Span.duration?_isSome_iff]
    exact ⟨fun hvalue => hvalue hfin, fun hvalue _ => hvalue⟩
  · rw [Rehearsal.host_waits_iff]
    exact VirtualClock.remaining_convertible hr hstart

/-- The longest delay that can be waited for, 2 ^ 64 - 2 ^ 11 seconds. -/
def longestDelay : Span := ⟨.ofBits 0x43efffffffffffff⟩

theorem delay_convertible_longest :
    ({ preDelay := longestDelay.seconds } : Settings).delay = .ok longestDelay ∧
    longestDelay.duration? = some (.ofParts (2 ^ 64 - 2 ^ 11) 0) ∧ longestDelay.seconds.value < 2 ^ 64 ∧
    ((Rehearsal.host.waitUntil (Rehearsal.atZero.clock.now + longestDelay)).run.run .atZero).1.isSome := by
  have haccepted : ({ preDelay := longestDelay.seconds } : Settings).delay = .ok longestDelay := by decide +kernel
  have hduration : longestDelay.duration? = some (.ofParts (2 ^ 64 - 2 ^ 11) 0) := by decide +kernel
  have hstart : Rehearsal.atZero.clock.now + longestDelay = ⟨longestDelay.seconds⟩ := by decide +kernel
  obtain ⟨hiff, -, hwait⟩ := Settings.delay_convertible haccepted
  have hvalue := hiff.1 (by rw [hduration]; rfl)
  have hwaits := hwait Rehearsal.atZero.clock.now .atZero (by rw [hstart]; exact hvalue) (by decide)
  exact ⟨haccepted, hduration, hvalue, hwaits⟩

/-- A delay of 2 ^ 64 seconds. -/
def endlessDelay : Span := ⟨.ofBits 0x43f0000000000000⟩

/-- It is accepted, but playing a piece after it fails. -/
theorem delay_too_long :
    ({ preDelay := endlessDelay.seconds } : Settings).delay = .ok endlessDelay ∧ endlessDelay.duration? = none ∧
    ∀ (q : Sequence) (e : Event) (es : List Event), q.events = e :: es →
      e.time = Rehearsal.atZero.clock.now + endlessDelay →
        ((Rehearsal.host.playSequence q).run.run .atZero).1 = .error .stopped := by
  refine ⟨by decide +kernel, by decide +kernel, fun q e es hevents htime => ?_⟩
  refine Rehearsal.playSequence_stopped hevents ?_
  rw [htime]
  decide +kernel

end ScoreSequencer
