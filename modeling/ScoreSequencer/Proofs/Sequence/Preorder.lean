import Mathlib
import ScoreSequencer.Proofs.Binary64.Pattern
import ScoreSequencer.Proofs.Sequence.Compilation
/-!
# The order of dispatch on all instants

An instant may be any pattern of 64 bits, a NaN or an infinity too. `order_preorder` says that
the order of dispatch is a total preorder on all of them, that only events of one trigger at the
very same pattern tie, and that it follows the numbers wherever instants are numbers. So the
events of a compiled sequence are the only stable sort of those that the walk gives.
-/

namespace ScoreSequencer

namespace Event

variable {a b : Event}

/-- Events are compared by the signed numbers that their instants' patterns are ordered by,
then by the rank of their triggers. -/
theorem order_eq_key (a b : Event) : a.order b =
    (compare (Binary64.key a.time.seconds.pattern) (Binary64.key b.time.seconds.pattern)).then
      (compare a.trigger.rank b.trigger.rank) := by
  rw [order, Instant.totalOrder, Binary64.totalOrder, Binary64.rank_eq_key, Binary64.rank_eq_key]

theorem order_swap (a b : Event) : b.order a = (a.order b).swap := by
  rw [order_eq_key, order_eq_key, Ordering.swap_then, ← Std.OrientedOrd.eq_swap, ← Std.OrientedOrd.eq_swap]

/-- Events tie just when their instants have the same bits and their triggers are the same. -/
theorem order_eq_pattern :
    a.order b = .eq ↔ a.time.seconds.pattern = b.time.seconds.pattern ∧ a.trigger = b.trigger := by
  rw [order_eq, Binary64.pattern_injective.eq_iff, Instant.mk.injEq]

/-- At instants that are numbers, zeros of different signs apart, the numeric order decides,
and the triggers where it ties. -/
theorem order_of_numbers (ha : a.time.seconds.isNaN = false) (hb : b.time.seconds.isNaN = false)
    (h : ¬a.time.seconds.OppositeZeros b.time.seconds) : ∃ numeric,
      a.time.seconds.order b.time.seconds = some numeric ∧
      a.order b = numeric.then (compare a.trigger.rank b.trigger.rank) :=
  ⟨_, Binary64.order_eq_totalOrder ha hb h, rfl⟩

end Event

/-- The events that the walk gives have one stable sort, and compiling finds it. -/
theorem Sequence.stableSort_of_compile {root : Arrangement} {start : Instant} {timing : Timing} {voice : Voice}
    {s : Sequence} (h : compile root start timing voice = .ok s) : ∃ length notes,
      root.place .zero = .ok (length, notes) ∧
      ∀ sorted, Event.StableSort (notes.flatMap (·.events timing start voice)) sorted ↔ sorted = s.events := by
  obtain ⟨length, notes, hplace, rfl⟩ := compile_eq_ok.1 h
  exact ⟨length, notes, hplace, fun _ => Event.stableSort_iff⟩

/-! ## Main theorem -/

/-- The order of dispatch is a total preorder on events at any patterns of 64 bits. -/
theorem Event.order_preorder (a b c : Event) :
    Function.Bijective Binary64.pattern ∧
    a.order b = (compare (Binary64.key a.time.seconds.pattern) (Binary64.key b.time.seconds.pattern)).then
      (compare a.trigger.rank b.trigger.rank) ∧
    a.order a = .eq ∧
    b.order a = (a.order b).swap ∧
    (a.order b ≠ .gt → b.order c ≠ .gt → a.order c ≠ .gt) ∧
    (a.order b = .eq ↔ a.time.seconds.pattern = b.time.seconds.pattern ∧ a.trigger = b.trigger) ∧
    (a.time.seconds.isNaN = false → b.time.seconds.isNaN = false →
      ¬a.time.seconds.OppositeZeros b.time.seconds → ∃ numeric,
        a.time.seconds.order b.time.seconds = some numeric ∧
        a.order b = numeric.then (compare a.trigger.rank b.trigger.rank)) ∧
    ∀ root start timing voice s, Sequence.compile root start timing voice = .ok s → ∃ length notes,
      root.place .zero = .ok (length, notes) ∧
      ∀ sorted, StableSort (notes.flatMap (·.events timing start voice)) sorted ↔ sorted = s.events :=
  ⟨Binary64.pattern_bijective, order_eq_key a b, order_self, order_swap a b, order_trans, order_eq_pattern,
    order_of_numbers, fun _ _ _ _ _ => Sequence.stableSort_of_compile⟩

/-! ## Uncommon instants -/

/-- An event at an instant that is given by its bits. -/
def Event.atBits (trigger : Trigger) (bits : Nat) : Event := ⟨trigger, default, default, default, ⟨.ofBits bits⟩⟩

/-- A trigger at a negative NaN with a payload goes before a trigger at minus zero, and that one before a
release at zero. At the instant one a release goes before a trigger. -/
theorem Event.order_preorder_uncommon :
    (atBits .on 0xfff8000000000001).order (atBits .on 0x8000000000000000) ≠ .gt ∧
    (atBits .on 0x8000000000000000).order (atBits .off 0) ≠ .gt ∧
    (atBits .on 0xfff8000000000001).order (atBits .off 0) ≠ .gt ∧
    (atBits .off 0x3ff0000000000000).time.seconds.isNaN = false ∧
    (atBits .on 0x3ff0000000000000).time.seconds.isNaN = false ∧
    (atBits .off 0x3ff0000000000000).order (atBits .on 0x3ff0000000000000) = .lt ∧
    Sequence.compile touching ⟨.zero⟩ crotchets default = .ok touchingSequence ∧ ∃ length notes,
      touching.place .zero = .ok (length, notes) ∧
      ∀ sorted, StableSort (notes.flatMap (·.events crotchets ⟨.zero⟩ default)) sorted ↔
        sorted = touchingSequence.events := by
  have hnan : (atBits .on 0xfff8000000000001).order (atBits .on 0x8000000000000000) ≠ .gt := by decide
  have hzero : (atBits .on 0x8000000000000000).order (atBits .off 0) ≠ .gt := by decide
  have hrelease : (atBits .off 0x3ff0000000000000).time.seconds.isNaN = false := by decide
  have htrigger : (atBits .on 0x3ff0000000000000).time.seconds.isNaN = false := by decide
  obtain ⟨-, -, -, -, htrans, -⟩ := order_preorder (atBits .on 0xfff8000000000001) (atBits .on 0x8000000000000000)
    (atBits .off 0)
  obtain ⟨-, -, -, -, -, -, hnumbers, hsort⟩ := order_preorder (atBits .off 0x3ff0000000000000)
    (atBits .on 0x3ff0000000000000) (atBits .on 0x3ff0000000000000)
  obtain ⟨numeric, hnumeric, horder⟩ := hnumbers hrelease htrigger (by decide)
  obtain rfl : numeric = .eq := Option.some.inj (hnumeric.symm.trans (by decide))
  exact ⟨hnan, hzero, htrans hnan hzero, hrelease, htrigger, horder, touching_compiles,
    hsort _ _ _ _ _ touching_compiles⟩

end ScoreSequencer
