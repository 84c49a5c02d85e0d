import Mathlib
import ScoreSequencer.Proofs.Binary64.Sums
import ScoreSequencer.Proofs.Playback.Timeline
/-!
# Waiting on a virtual clock

A virtual clock that does not oversleep by a negative span never goes back, until its
reading is no number any more, which it then stays (`Later`). `Met` are the clocks
that a wait goes through, one constructor for each further sleep. A wait ends at or
after its instant (`reach_due`), and where the sums it meets are exact, no more than
one oversleep after it (`reach_le`).
-/

namespace ScoreSequencer

/-! ## The order of instants -/

namespace Instant

/-- Instants in numeric order. What is no number is neither before nor after anything. -/
instance : LE Instant := ⟨fun t u => t.seconds.le u.seconds⟩

instance : DecidableLE Instant := fun t u => inferInstanceAs (Decidable (t.seconds.le u.seconds = true))

instance : LT Instant := ⟨fun t u => t.seconds.lt u.seconds⟩

instance : DecidableLT Instant := fun t u => inferInstanceAs (Decidable (t.seconds.lt u.seconds = true))

variable {t u v : Instant}

theorem le_trans (htu : t ≤ u) (huv : u ≤ v) : t ≤ v := Binary64.le_trans htu huv

instance : @Trans Instant Instant Instant LE.le LE.le LE.le := ⟨le_trans⟩

theorem le_refl (h : t.seconds.isNaN = false) : t ≤ t := Binary64.le_refl h

theorem number_of_le (h : t ≤ u) : t.seconds.isNaN = false ∧ u.seconds.isNaN = false := by
  obtain ⟨ht, hu, -⟩ := Binary64.le_iff.1 h
  exact ⟨ht, hu⟩

/-- A zero span, of either sign, puts an instant off by nothing. -/
theorem le_of_le_add_zero {x : Span} (hu : u.seconds.isFinite) (hx : x.seconds.eqv .zero) (h : t ≤ u + x) : t ≤ u :=
  le_trans h (Binary64.le_of_eqv (Binary64.add_zero_eqv (Binary64.isNaN_of_isFinite hu) hx))

end Instant

namespace Span

variable {x : Span}

theorem isNegative_eq_false (h : x.seconds.isNaN = false) : x.isNegative = false ↔ Binary64.zero.le x.seconds := by
  rw [isNegative, ← Bool.not_eq_true, Binary64.lt_iff, Binary64.le_iff, h]
  simp [show Binary64.zero.isNaN = false from rfl]

end Span

namespace VirtualClock

variable {c d : VirtualClock} {target : Instant} {x : Span}

/-! ## Time does not go back -/

/-- The same clock at a later time: it has not gone back, unless it is off the numbers. -/
structure Later (c d : VirtualClock) : Prop where
  oversleep : d.oversleep = c.oversleep
  le : d.now.seconds.isNaN = false → c.now ≤ d.now

theorem Later.refl (c : VirtualClock) : Later c c := ⟨rfl, Instant.le_refl⟩

theorem Later.trans {b : VirtualClock} (hcd : Later c d) (hdb : Later d b) : Later c b where
  oversleep := hdb.oversleep.trans hcd.oversleep
  le hb := Instant.le_trans (hcd.le (Instant.number_of_le (hdb.le hb)).1) (hdb.le hb)

instance : @Trans VirtualClock VirtualClock VirtualClock Later Later Later := ⟨Later.trans⟩

theorem later_advance (hx : x.isNegative = false) : Later c (c.advance x) where
  oversleep := rfl
  le h := by
    have hnum := (Binary64.number_of_add h).2
    exact Binary64.le_add_of_nonneg ((Span.isNegative_eq_false hnum).1 hx) h

theorem isNegative_of_isPositive (h : x.isPositive) : x.isNegative = false := by
  obtain ⟨-, hnum, hpos⟩ := Binary64.lt_iff.1 h
  exact (Span.isNegative_eq_false hnum).2 (Binary64.le_iff.2 ⟨rfl, hnum, hpos.le⟩)

theorem isNegative_half (h : x.isPositive) : x.half.isNegative = false := by
  have hle := Binary64.half_nonneg h
  exact (Span.isNegative_eq_false (Binary64.le_iff.1 hle).2.1).2 hle

@[simp] theorem oversleep_sleep (c : VirtualClock) (x : Span) : (c.sleep x).oversleep = c.oversleep := by
  unfold sleep
  cases c.early <;> rfl

theorem sleep_of_full (h : c.early = 0) (x : Span) :
    (c.sleep x).early = 0 ∧ (c.sleep x).now = c.now + x + c.oversleep := by
  unfold sleep
  dsimp only
  split <;> simp_all [advance]

theorem sleep_of_early {n : Nat} (h : c.early = n + 1) (x : Span) :
    (c.sleep x).early = n ∧ (c.sleep x).now = c.now + x.half := by
  unfold sleep
  rw [h]
  exact ⟨rfl, rfl⟩

theorem later_sleep (ho : c.oversleep.isNegative = false) (hx : x.isPositive) : Later c (c.sleep x) := by
  unfold sleep
  cases c.early with
  | zero =>
    refine Later.trans (d := c.advance x) (later_advance (isNegative_of_isPositive hx)) ?_
    exact ⟨rfl, (later_advance (c := c.advance x) ho).le⟩
  | succ early => exact ⟨rfl, (later_advance (isNegative_half hx)).le⟩

theorem later_spend {cost : Option Span} (hcost : ∀ x, cost = some x → x.isNegative = false) :
    Later c (c.spend cost) := by
  cases cost with
  | none => exact Later.refl c
  | some x => exact later_advance (hcost x rfl)

/-- Time that is spent for nothing does not move the reading. -/
theorem spend_le {cost : Option Span} (hfree : ∀ x, cost = some x → x.seconds.eqv .zero) (h : c.now ≤ target) :
    (c.spend cost).now ≤ target := by
  cases cost with
  | none => exact h
  | some x =>
    have hnum := (Instant.number_of_le h).1
    have hsame : c.now + x ≤ c.now := Binary64.le_of_eqv (Binary64.add_zero_eqv hnum (hfree x rfl))
    exact Instant.le_trans hsame h

/-! ## Waiting -/

/-- A full sleep that leaves the clock on the numbers moves it forward. -/
theorem lt_sleep (ho : c.oversleep.isNegative = false) (hfull : c.early = 0) (hpos : (c.remaining target).isPositive)
    (hnum : (c.sleep (c.remaining target)).now.seconds.isNaN = false) : c.now < (c.sleep (c.remaining target)).now := by
  obtain ⟨-, hnow⟩ := sleep_of_full hfull (c.remaining target)
  rw [hnow] at hnum ⊢
  obtain ⟨hspan, hover⟩ := Binary64.number_of_add hnum
  have hforward := Binary64.lt_iff.1 (Binary64.lt_add_sub hpos hspan)
  have hrest := Binary64.le_add_of_nonneg ((Span.isNegative_eq_false hover).1 ho) hnum
  exact Binary64.lt_iff.2 ⟨hforward.1, hnum, hforward.2.2.trans_le (Binary64.le_iff.1 hrest).2.2⟩

/-- A sleep that leaves the clock on the numbers leaves fewer steps to go. -/
theorem stepsLeft_sleep (ho : c.oversleep.isNegative = false) (hpos : (c.remaining target).isPositive)
    (hnum : (c.sleep (c.remaining target)).now.seconds.isNaN = false) :
    (c.sleep (c.remaining target)).stepsLeft target < c.stepsLeft target := by
  have hdue := Binary64.rank_lt_of_level (Binary64.lt_iff.1 (Binary64.lt_of_sub_pos hpos)).2.2
  unfold stepsLeft
  rcases Nat.eq_zero_or_eq_succ_pred c.early with hfull | hearly
  · have hrank := Binary64.rank_lt_of_level (Binary64.lt_iff.1 (lt_sleep ho hfull hpos hnum)).2.2
    rw [(sleep_of_full hfull _).1, hfull]
    omega
  · -- An early wake-up uses up one of them.
    obtain ⟨hrest, hnow⟩ := sleep_of_early hearly (c.remaining target)
    rw [hnow] at hnum
    have hrank : c.now.seconds.rank ≤ (c.now + (c.remaining target).half).seconds.rank :=
      Binary64.rank_le_add_of_number (Binary64.half_of_pos hpos).1 hnum
    rw [hrest, hnow]
    omega

/-- The clocks that are met in waiting for an instant. -/
inductive Met (target : Instant) (c : VirtualClock) : VirtualClock → Prop
  | start : Met target c c
  | sleep {d : VirtualClock} : Met target c d → (d.remaining target).isPositive →
      Met target c (d.sleep (d.remaining target))

theorem Met.later (ho : c.oversleep.isNegative = false) (h : Met target c d) : Later c d := by
  induction h with
  | start => exact Later.refl c
  | sleep _ hpos ih => exact ih.trans (later_sleep (by rw [ih.oversleep]; exact ho) hpos)

theorem sleepUntil_met (h : Met target c d) : Met target c (d.sleepUntil target) := by
  induction d using sleepUntil.induct target with
  | case1 d hpos next hsteps ih =>
    rw [sleepUntil, if_pos hpos, if_pos hsteps]
    exact ih (h.sleep hpos)
  | case2 d hpos next hsteps =>
    rw [sleepUntil, if_pos hpos, if_neg hsteps]
    exact h.sleep hpos
  | case3 d hpos =>
    rw [sleepUntil, if_neg hpos]
    exact h

/-- The sleeps end when nothing remains, or off the numbers. -/
theorem sleepUntil_due (ht : target.seconds.isFinite) (ho : c.oversleep.isNegative = false)
    (hnum : (c.sleepUntil target).now.seconds.isNaN = false) : target ≤ (c.sleepUntil target).now := by
  induction c using sleepUntil.induct target with
  | case1 c hpos next hsteps ih =>
    rw [sleepUntil, if_pos hpos, if_pos hsteps] at hnum ⊢
    exact ih (by rw [oversleep_sleep]; exact ho) hnum
  | case2 c hpos next hsteps =>
    rw [sleepUntil, if_pos hpos, if_neg hsteps] at hnum
    exact absurd (stepsLeft_sleep ho hpos hnum) hsteps
  | case3 c hpos =>
    rw [sleepUntil, if_neg hpos] at hnum ⊢
    have hsub := Binary64.level_sub_pos_iff ht hnum
    have hstays : ¬0 < (c.remaining target).seconds.level := fun h =>
      hpos (Binary64.lt_iff.2 ⟨rfl, Binary64.sub_isNaN ht hnum, h⟩)
    refine Binary64.le_iff.2 ⟨Binary64.isNaN_of_isFinite ht, hnum, ?_⟩
    exact not_lt.1 fun h => hstays (hsub.2 h)

/-- A wait sleeps unless nothing remains to begin with. -/
theorem reach_eq (c : VirtualClock) (target : Instant) :
    c.reach target = if (c.remaining target).seconds.le .zero then c else c.sleepUntil target := by
  unfold reach waitUntil
  dsimp only
  split_ifs <;> rfl

theorem reach_met (c : VirtualClock) (target : Instant) : Met target c (c.reach target) := by
  rw [reach_eq]
  split_ifs
  · exact .start
  · exact sleepUntil_met .start

theorem later_reach (ho : c.oversleep.isNegative = false) (target : Instant) : Later c (c.reach target) :=
  (reach_met c target).later ho

/-- Nothing remains when the instant is not to come. -/
theorem remaining_nonpos_iff (ht : target.seconds.isFinite) (hc : c.now.seconds.isNaN = false) :
    (c.remaining target).seconds.le .zero ↔ target ≤ c.now :=
  Binary64.sub_nonpos_iff ht hc

/-- For an instant that is not to come there is no sleep. -/
theorem reach_of_due (ht : target.seconds.isFinite) (h : target ≤ c.now) : c.reach target = c := by
  rw [reach_eq, if_pos ((remaining_nonpos_iff ht (Instant.number_of_le h).2).2 h)]

/-- A wait does not end before its instant. -/
theorem reach_due (ht : target.seconds.isFinite) (ho : c.oversleep.isNegative = false)
    (hnum : (c.reach target).now.seconds.isNaN = false) : target ≤ (c.reach target).now := by
  rw [reach_eq] at hnum ⊢
  split_ifs at hnum ⊢ with hdue
  · exact (remaining_nonpos_iff ht hnum).1 hdue
  · exact sleepUntil_due ht ho hnum

/-! ## Jitter -/

/-- Wherever the wait still has to sleep, adding what remains to the reading gives the instant. -/
def Exact (c : VirtualClock) (target : Instant) : Prop :=
  ∀ d, Met target c d → (d.remaining target).isPositive →
    (d.now + d.remaining target).seconds.eqv target.seconds

/-- A clock that is met in a wait is where the wait begins, or it is met after the first sleep. -/
theorem Met.eq_or_next (h : Met target c d) :
    d = c ∨ (c.remaining target).isPositive ∧ Met target (c.sleep (c.remaining target)) d := by
  induction h with
  | start => exact .inl rfl
  | sleep hd hpos ih =>
    rcases ih with rfl | ⟨hfirst, hrest⟩
    · exact .inr ⟨hpos, .start⟩
    · exact .inr ⟨hfirst, hrest.sleep hpos⟩

/-- Exactness can be checked sleep by sleep. -/
theorem exact_of_sleep (h : (c.remaining target).isPositive → (c.now + c.remaining target).seconds.eqv target.seconds ∧
    (c.sleep (c.remaining target)).Exact target) : c.Exact target := by
  intro d hmet hpos
  rcases hmet.eq_or_next with rfl | ⟨hfirst, hrest⟩
  · exact (h hpos).1
  · exact (h hfirst).2 d hrest hpos

theorem exact_of_due (ht : target.seconds.isFinite) (h : target ≤ c.now) : c.Exact target := by
  refine exact_of_sleep fun hpos => ?_
  have hnonpos := (remaining_nonpos_iff ht (Instant.number_of_le h).2).2 h
  exact absurd (Binary64.le_iff.1 hnonpos).2.2 (Binary64.lt_iff.1 hpos).2.2.not_ge

/-- An exact sleep leads at most one oversleep past the instant. -/
theorem sleep_le (ht : target.seconds.isFinite) (ho : Binary64.zero.le c.oversleep.seconds)
    (hpos : (c.remaining target).isPositive) (hexact : (c.now + c.remaining target).seconds.eqv target.seconds) :
    (c.sleep (c.remaining target)).now ≤ target + c.oversleep := by
  obtain ⟨hsum, -, hlevel⟩ := Binary64.eqv_iff.1 hexact
  have hover := (Binary64.le_iff.1 ho).2.1
  have hsumfin : (c.now + c.remaining target).seconds.isFinite := by
    rw [Binary64.finite_iff, hlevel]
    exact Binary64.finite_iff.1 ht
  have hreached : c.now + c.remaining target ≤ target := Binary64.le_iff.2 ⟨hsum, Binary64.isNaN_of_isFinite ht, hlevel.le⟩
  rcases Nat.eq_zero_or_eq_succ_pred c.early with hfull | hearly
  · rw [(sleep_of_full hfull _).2]
    exact Binary64.add_le_add_right hsumfin ht hreached hover
  · rw [(sleep_of_early hearly _).2]
    have hfin : c.now.seconds.isFinite := Binary64.finite_of_add hsumfin
    calc c.now + (c.remaining target).half
        ≤ c.now + c.remaining target := Binary64.add_le_add_left hfin (Binary64.half_le hpos)
      _ ≤ target := hreached
      _ ≤ target + c.oversleep := Binary64.le_add_of_nonneg ho (Binary64.add_isNaN ht hover)

/-- If a wait begins no later than one oversleep after its instant, then it ends no later than that. -/
theorem reach_le (ht : target.seconds.isFinite) (ho : Binary64.zero.le c.oversleep.seconds) (hexact : c.Exact target)
    (h : c.now ≤ target + c.oversleep) : (c.reach target).now ≤ target + c.oversleep := by
  have hnonneg := (Span.isNegative_eq_false (Binary64.le_iff.1 ho).2.1).2 ho
  -- Only the last sleep counts, since each of them ends within the bound wherever it began.
  have hmet := reach_met c target
  generalize c.reach target = d at hmet ⊢
  cases hmet with
  | start => exact h
  | sleep hd hpos =>
    have hover := (hd.later hnonneg).oversleep
    rw [← hover] at ho ⊢
    exact sleep_le ht ho hpos (hexact _ hd hpos)

/-- A wait that begins no later than its instant is not late. -/
theorem lateness_of_le (ht : target.seconds.isFinite) (h : c.now ≤ target) :
    (c.waitUntil target).1.isPositive = false := by
  unfold waitUntil
  dsimp only
  split_ifs with hdue
  · have hsame := Binary64.eqv_of_le_of_le h ((remaining_nonpos_iff ht (Instant.number_of_le h).1).1 hdue)
    obtain ⟨-, -, hlevel⟩ := Binary64.eqv_iff.1 hsame
    have hfin : c.now.seconds.isFinite := by
      rw [Binary64.finite_iff, hlevel]
      exact Binary64.finite_iff.1 ht
    have hzero : (c.remaining target).seconds.level = 0 := by
      refine (Binary64.level_sub ht hfin).trans ?_
      rw [Binary64.units_eq, Binary64.units_eq, hlevel, Int.sub_self, Binary64.rounded_zero]
    have hneg : (-(c.remaining target)).seconds.level = 0 := by
      refine (Binary64.level_neg _).trans ?_
      rw [hzero, Int.neg_zero]
    rw [Span.isPositive, ← Bool.not_eq_true, Binary64.lt_iff, hneg]
    simp
  · rfl

end VirtualClock

end ScoreSequencer
