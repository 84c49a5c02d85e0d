import Mathlib
import ScoreSequencer.Event
import ScoreSequencer.Proofs.Binary64.Order
/-!
# The order of dispatch and its stable sort

Events are compared by the rank of their instant in the total order of all bit
patterns, then by their trigger, so the order is a total preorder whatever the
instants are. `StableSort` says what sorting by it means; a list has exactly one
such sort, and it is the one `mergeSort` computes (`stableSort_iff`). A stable sort
treats any of its elements as if they were sorted alone (`filter_mergeSort`).
-/

namespace ScoreSequencer

/-! ## Stable sorts -/

section StableSorts

variable {α : Type} {le : α → α → Bool} (htrans : ∀ a b c, le a b → le b c → le a c)
  (htotal : ∀ a b, le a b || le b a)

include htrans htotal

/-- The first element goes before all that may come after it. -/
theorem mergeSort_cons_eq (a : α) (l : List α) : (a :: l).mergeSort le =
    (l.mergeSort le).filter (fun b => !le a b) ++ a :: (l.mergeSort le).filter (fun b => le a b) := by
  obtain ⟨before, after, hsort, hrest, hbefore⟩ := List.mergeSort_cons htrans htotal a l
  have hsorted := List.pairwise_mergeSort htrans htotal (a :: l)
  rw [hsort] at hsorted
  have hafter : ∀ b ∈ after, le a b := (List.pairwise_cons.1 (List.pairwise_append.1 hsorted).2.1).1
  have hno : before.filter (fun b => le a b) = [] :=
    List.filter_eq_nil_iff.2 fun b hb hle => by simpa [hle] using hbefore b hb
  have hno' : after.filter (fun b => !le a b) = [] :=
    List.filter_eq_nil_iff.2 fun b hb => by simp [hafter b hb]
  rw [hsort, hrest, List.filter_append, List.filter_append, List.filter_eq_self.2 hbefore,
    List.filter_eq_self.2 hafter, hno, hno', List.append_nil, List.nil_append]

/-- Sorting, then keeping some elements is keeping them, then sorting. -/
theorem filter_mergeSort (p : α → Bool) (l : List α) : (l.mergeSort le).filter p = (l.filter p).mergeSort le := by
  induction l with
  | nil => simp
  | cons a l ih =>
    by_cases ha : p a
    · rw [List.filter_cons_of_pos ha, mergeSort_cons_eq htrans htotal, mergeSort_cons_eq htrans htotal, ← ih,
        List.filter_append, List.filter_cons_of_pos ha, List.filter_comm, List.filter_comm p]
    · obtain ⟨before, after, hsort, hrest, -⟩ := List.mergeSort_cons htrans htotal a l
      rw [List.filter_cons_of_neg ha, ← ih, hsort, hrest, List.filter_append, List.filter_append,
        List.filter_cons_of_neg ha]

end StableSorts

/-! ## Instants -/

namespace Instant

/-- `t` comes strictly before `u` in the total order of instants. -/
def Before (t u : Instant) : Prop := t.totalOrder u = .lt

instance (t u : Instant) : Decidable (t.Before u) := inferInstanceAs (Decidable (_ = _))

theorem before_iff {t u : Instant} : t.Before u ↔ t.seconds.rank < u.seconds.rank :=
  compare_lt_iff_lt

theorem not_before_iff {t u : Instant} : ¬t.Before u ↔ u.seconds.rank ≤ t.seconds.rank := by
  rw [before_iff, not_lt]

end Instant

theorem Instant.eq_iff_rank {t u : Instant} : t = u ↔ t.seconds.rank = u.seconds.rank :=
  ⟨fun h => h ▸ rfl, fun h => congrArg Instant.mk (Binary64.rank_injective h)⟩

/-! ## Events -/

theorem Trigger.rank_injective {a b : Trigger} (h : a.rank = b.rank) : a = b := by
  cases a <;> cases b <;> simp_all [rank]

namespace Event

variable {a b c : Event}

theorem order_ne_gt : a.order b ≠ .gt ↔ a.time.seconds.rank < b.time.seconds.rank ∨
    a.time.seconds.rank = b.time.seconds.rank ∧ a.trigger.rank ≤ b.trigger.rank := by
  unfold order Instant.totalOrder Binary64.totalOrder
  rcases lt_trichotomy a.time.seconds.rank b.time.seconds.rank with h | h | h
  · simp [compare_lt_iff_lt.2 h, h]
  · simp [h, compare_gt_iff_gt]
  · simp [compare_gt_iff_gt.2 h, h.not_gt, h.ne']

theorem order_eq : a.order b = .eq ↔ a.time = b.time ∧ a.trigger = b.trigger := by
  unfold order Instant.totalOrder Binary64.totalOrder
  rw [Ordering.then_eq_eq, compare_eq_iff_eq, compare_eq_iff_eq]
  exact and_congr Instant.eq_iff_rank.symm ⟨Trigger.rank_injective, fun h => h ▸ rfl⟩

theorem notAfter_iff : a.notAfter b = true ↔ a.order b ≠ .gt := by
  simp [notAfter]

theorem order_self : a.order a = .eq := order_eq.2 ⟨rfl, rfl⟩

theorem order_trans (hab : a.order b ≠ .gt) (hbc : b.order c ≠ .gt) : a.order c ≠ .gt := by
  rw [order_ne_gt] at *
  omega

theorem order_total (a b : Event) : a.order b ≠ .gt ∨ b.order a ≠ .gt := by
  rw [order_ne_gt, order_ne_gt]
  omega

theorem order_antisymm (hab : a.order b ≠ .gt) (hba : b.order a ≠ .gt) : a.order b = .eq := by
  rw [order_ne_gt] at hab hba
  exact order_eq.2 ⟨Instant.eq_iff_rank.2 (by omega), Trigger.rank_injective (by omega)⟩

theorem notAfter_trans (a b c : Event) (hab : a.notAfter b) (hbc : b.notAfter c) : a.notAfter c :=
  notAfter_iff.2 (order_trans (notAfter_iff.1 hab) (notAfter_iff.1 hbc))

theorem notAfter_total (a b : Event) : a.notAfter b || b.notAfter a := by
  rw [Bool.or_eq_true, notAfter_iff, notAfter_iff]
  exact order_total a b

/-! ## The stable sort -/

/-- The events put in the order of dispatch, those that may go in either order
left as they were. -/
structure StableSort (events sorted : List Event) : Prop where
  perm : sorted.Perm events
  ordered : sorted.Pairwise fun a b => a.order b ≠ .gt
  stable : ∀ a : Event, sorted.filter (a.order · = .eq) = events.filter (a.order · = .eq)

theorem mergeSort_ordered (events : List Event) :
    (events.mergeSort notAfter).Pairwise fun a b => a.order b ≠ .gt :=
  (List.pairwise_mergeSort notAfter_trans notAfter_total events).imp notAfter_iff.1

/-- Events that tie with `a` tie with one another. -/
theorem ties_pairwise (events : List Event) (a : Event) :
    (events.filter (a.order · = .eq)).Pairwise fun b c => b.notAfter c = true := by
  refine List.pairwise_filter.2 (List.pairwise_of_forall fun b c hb hc => ?_)
  rw [decide_eq_true_eq, order_eq] at hb hc
  rw [notAfter_iff, order_eq.2 ⟨hb.1.symm.trans hc.1, hb.2.symm.trans hc.2⟩]
  decide

/-- Ties are in order already, so sorting keeps them as they are. -/
theorem mergeSort_stable (events : List Event) (a : Event) :
    (events.mergeSort notAfter).filter (a.order · = .eq) = events.filter (a.order · = .eq) := by
  rw [filter_mergeSort notAfter_trans notAfter_total]
  exact List.mergeSort_of_pairwise (ties_pairwise events a)

theorem mergeSort_stableSort (events : List Event) : StableSort events (events.mergeSort notAfter) :=
  ⟨List.mergeSort_perm events notAfter, mergeSort_ordered events, mergeSort_stable events⟩

/-- Two ordered lists of the same events are equal if they agree on all ties. -/
theorem eq_of_ordered {l l' : List Event} (hp : l.Perm l') (hl : l.Pairwise fun a b => a.order b ≠ .gt)
    (hl' : l'.Pairwise fun a b => a.order b ≠ .gt)
    (h : ∀ a : Event, l.filter (a.order · = .eq) = l'.filter (a.order · = .eq)) : l = l' := by
  induction l generalizing l' with
  | nil => exact hp.nil_eq
  | cons a l ih =>
    cases l' with
    | nil => exact hp.eq_nil
    | cons b l' =>
      obtain ⟨hla, htail⟩ := List.pairwise_cons.1 hl
      obtain ⟨hlb, htail'⟩ := List.pairwise_cons.1 hl'
      -- Each head is in the other list, so neither may go before the other: they tie.
      have hab : a.order b ≠ .gt := by
        rcases List.mem_cons.1 (hp.symm.subset List.mem_cons_self) with rfl | hb
        · simp [order_self]
        · exact hla b hb
      have hba : b.order a ≠ .gt := by
        rcases List.mem_cons.1 (hp.subset List.mem_cons_self) with rfl | ha
        · simp [order_self]
        · exact hlb a ha
      have heq := h a
      simp only [List.filter_cons, order_self, order_antisymm hab hba, decide_true, if_true] at heq
      obtain ⟨rfl, -⟩ := List.cons.inj heq
      refine congrArg (a :: ·) (ih hp.cons_inv htail htail' fun c => ?_)
      have hc := h c
      simp only [List.filter_cons] at hc
      split at hc
      · exact (List.cons.inj hc).2
      · exact hc

/-- A list of events has exactly one stable sort. -/
theorem stableSort_iff {events sorted : List Event} :
    StableSort events sorted ↔ sorted = events.mergeSort notAfter := by
  constructor
  · intro h
    refine eq_of_ordered (h.perm.trans (List.mergeSort_perm events notAfter).symm) h.ordered
      (mergeSort_ordered events) fun a => ?_
    rw [h.stable a, mergeSort_stable]
  · rintro rfl
    exact mergeSort_stableSort events

/-- Only ties with the events themselves matter, so whether a list is a stable sort can be decided. -/
theorem stableSort_iff_mem {events sorted : List Event} : StableSort events sorted ↔
    sorted.Perm events ∧ (sorted.Pairwise fun a b => a.order b ≠ .gt) ∧
      ∀ a ∈ events, sorted.filter (a.order · = .eq) = events.filter (a.order · = .eq) := by
  constructor
  · exact fun h => ⟨h.perm, h.ordered, fun a _ => h.stable a⟩
  · rintro ⟨hperm, hordered, hstable⟩
    refine ⟨hperm, hordered, fun a => ?_⟩
    by_cases htie : ∃ b ∈ events, a.order b = .eq
    · obtain ⟨b, hb, hab⟩ := htie
      obtain ⟨htime, htrigger⟩ := order_eq.1 hab
      simpa only [order_eq, htime, htrigger] using hstable b hb
    · have hnone : ∀ c ∈ events, ¬decide (a.order c = .eq) := by simpa using htie
      rw [List.filter_eq_nil_iff.2 hnone, List.filter_eq_nil_iff.2 fun c hc => hnone c (hperm.subset hc)]

instance (events sorted : List Event) : Decidable (StableSort events sorted) :=
  decidable_of_iff _ stableSort_iff_mem.symm

end Event

end ScoreSequencer
