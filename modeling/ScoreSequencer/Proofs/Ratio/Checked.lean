import Mathlib
import ScoreSequencer.Ratio
/-!
# Checked steps

Every operation on ratios is a chain of steps that may be refused. `step_ok` and
`step_error` take such a chain apart, `narrow_eq_ok` and `narrow_bind` read one
step. The rest says which numbers a width holds.
-/

namespace ScoreSequencer

/-- A chain of two steps answers exactly when both do. -/
theorem step_ok {α β : Type} {first : Except Fault α} {next : α → Except Fault β} {b : β} :
    first >>= next = .ok b ↔ ∃ a, first = .ok a ∧ next a = .ok b := by
  cases first <;> simp [bind, Except.bind]

theorem step_of_ok {α β : Type} {a : α} {next : α → Except Fault β} : (Except.ok a >>= next) = next a := rfl

theorem step_error {α β : Type} {first : Except Fault α} {next : α → Except Fault β} {fault : Fault} :
    first >>= next = .error fault ↔ first = .error fault ∨ ∃ a, first = .ok a ∧ next a = .error fault := by
  cases first <;> simp [bind, Except.bind]

theorem return_ok {α : Type} {a b : α} : (return a : Except Fault α) = .ok b ↔ a = b := by
  simp [pure, Except.pure]

theorem return_ne_error {α : Type} {a : α} {fault : Fault} : (return a : Except Fault α) ≠ .error fault := by
  simp [pure, Except.pure]

namespace Width

variable {w : Width}

/-! ## What a width holds -/

theorem narrow_eq_ok {operation : Operation} {n m : Int} :
    w.narrow operation n = .ok m ↔ w.Holds n ∧ m = n := by
  unfold narrow
  split <;> simp_all [eq_comm]

theorem narrow_bind {α : Type} {operation : Operation} {n : Int} {next : Int → Except Fault α} :
    w.narrow operation n >>= next = if w.Holds n then next n else .error (.overflow operation) := by
  unfold narrow
  split <;> rfl

theorem least_eq : w.least = -w.greatest - 1 := by
  simp only [least, greatest]
  omega

theorem greatest_w32 : w32.greatest = 2 ^ 31 - 1 := rfl

theorem greatest_pos : 0 < w.greatest := by
  cases w <;> decide

theorem least_lt : w.least < -1 := by
  cases w <;> decide

theorem holds_zero : w.Holds 0 := by
  cases w <;> decide

theorem holds_one : w.Holds 1 := by
  cases w <;> decide

theorem holds_neg_one : w.Holds (-1) := by
  cases w <;> decide

theorem holds_least : w.Holds w.least := by
  cases w <;> decide

theorem holds_of_nonneg {n : Int} (hn : 0 ≤ n) (h : n ≤ w.greatest) : w.Holds n := by
  have hleast := least_eq (w := w)
  exact ⟨by omega, h⟩

/-- The least number is the only one that cannot be turned. -/
theorem holds_neg_iff {n : Int} (hn : w.Holds n) : w.Holds (-n) ↔ n ≠ w.least := by
  have hleast := least_eq (w := w)
  simp only [Holds] at hn ⊢
  omega

/-- Dividing by a positive number stays within the width. -/
theorem holds_ediv {n g : Int} (hn : w.Holds n) (hg : 0 < g) (hdvd : g ∣ n) : w.Holds (n / g) := by
  obtain ⟨k, rfl⟩ := hdvd
  rw [Int.mul_ediv_cancel_left k hg.ne']
  obtain ⟨hl, hu⟩ := hn
  have hpos : 0 < w.greatest := greatest_pos
  refine ⟨?_, ?_⟩
  · rcases le_total 0 k with hk | hk
    · have := least_eq (w := w); omega
    · nlinarith
  · rcases le_total 0 k with hk | hk
    · nlinarith
    · omega

theorem holds_of_mul {n k : Int} (hk : 0 < k) (h : w.Holds (n * k)) : w.Holds n := by
  rw [← Int.mul_ediv_cancel n hk.ne']
  exact holds_ediv h hk (dvd_mul_left k n)

end Width

end ScoreSequencer
