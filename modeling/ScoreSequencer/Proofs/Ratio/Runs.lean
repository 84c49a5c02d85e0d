import Mathlib
import ScoreSequencer.Proofs.Ratio.Exact
import ScoreSequencer.Proofs.Ratio.Products
/-!
# Runs of operations

A run starts from a ratio made from numbers of the width and applies operations to
it one after the other, with operands made in the same way. An operation that is
refused leaves the state as it was. `run_exact` says what holds after every run: the
state is canonical, the next operation is exact if it answers, and two states are
equal as structures just when they are equal as numbers.
-/

namespace ScoreSequencer.Ratio

variable {w : Width} {x y z : Ratio w}

/-! ## What can be made -/

/-- The ratios made from numbers of the width. -/
inductive Made : Ratio w → Prop
  | make {n d : Int} {r : Ratio w} : w.Holds n → w.Holds d → Ratio.make n d = .ok r → Made r
  | ofInt {n : Int} : w.Holds n → Made (ofInt n)

theorem Made.canonical (h : x.Made) : x.Canonical := by
  cases h with
  | make hn hd h => exact (make_exact hn hd h).1
  | @ofInt n hn => exact ⟨one_pos, Int.gcd_one_right n, hn, Width.holds_one⟩

/-- A canonical ratio is made from its own fields. -/
theorem Canonical.made (h : x.Canonical) : x.Made :=
  .make h.holds_numer h.holds_denom h.make_self

/-! ## One step -/

/-- An operation on the state of a run, with its second operand. -/
inductive Step (w : Width) where
  | recip
  | neg
  | add (operand : Ratio w)
  | sub (operand : Ratio w)
  | mul (operand : Ratio w)
  | div (operand : Ratio w)
  | max (operand : Ratio w)
  | min (operand : Ratio w)

namespace Step

def operand? : Step w → Option (Ratio w)
  | recip | neg => none
  | add y | sub y | mul y | div y | max y | min y => some y

def apply : Step w → Ratio w → Except Fault (Ratio w)
  | recip, x => x.recip
  | neg, x => x.neg
  | add y, x => x.add y
  | sub y, x => x.sub y
  | mul y, x => x.mul y
  | div y, x => x.div y
  | max y, x => x.max y
  | min y, x => x.min y

/-- The operation on unbounded rationals. Zero cannot be divided by. -/
def result? : Step w → ℚ → Option ℚ
  | recip, q => if q = 0 then none else some q⁻¹
  | neg, q => some (-q)
  | add y, q => some (q + y.value)
  | sub y, q => some (q - y.value)
  | mul y, q => some (q * y.value)
  | div y, q => if y.value = 0 then none else some (q / y.value)
  | max y, q => some (Max.max q y.value)
  | min y, q => some (Min.min q y.value)

/-- The answer of a step stands for the exact result; of two operands that tie, the
greater and the lesser one are the first. -/
structure Exact (s : Step w) (x z : Ratio w) : Prop where
  value : s.result? x.value = some z.value
  greater : ∀ y, s = max y → z = if x.value < y.value then y else x
  lesser : ∀ y, s = min y → z = if y.value < x.value then y else x

theorem Exact.of_value {s : Step w} (h : s.result? x.value = some z.value) (hmax : ∀ y, s ≠ max y)
    (hmin : ∀ y, s ≠ min y) : s.Exact x z :=
  ⟨h, fun y hy => absurd hy (hmax y), fun y hy => absurd hy (hmin y)⟩

theorem apply_exact {s : Step w} (hx : x.Canonical) (hs : ∀ y ∈ s.operand?, y.Canonical)
    (h : s.apply x = .ok z) : z.Canonical ∧ s.Exact x z := by
  cases s with
  | recip =>
    obtain ⟨hcan, hx0, hval⟩ := recip_exact hx h
    exact ⟨hcan, .of_value (by rw [result?, if_neg hx0, hval]) nofun nofun⟩
  | neg =>
    obtain ⟨hcan, hval⟩ := neg_exact hx h
    exact ⟨hcan, .of_value (by rw [result?, hval]) nofun nofun⟩
  | add y =>
    obtain ⟨hcan, hval⟩ := add_exact hx (hs y rfl) h
    exact ⟨hcan, .of_value (by rw [result?, hval]) nofun nofun⟩
  | sub y =>
    obtain ⟨hcan, hval⟩ := sub_exact hx (hs y rfl) h
    exact ⟨hcan, .of_value (by rw [result?, hval]) nofun nofun⟩
  | mul y =>
    obtain ⟨hcan, hval⟩ := mul_exact hx (hs y rfl) h
    exact ⟨hcan, .of_value (by rw [result?, hval]) nofun nofun⟩
  | div y =>
    obtain ⟨hcan, hy0, hval⟩ := div_exact hx (hs y rfl) h
    exact ⟨hcan, .of_value (by rw [result?, if_neg hy0, hval]) nofun nofun⟩
  | max y =>
    obtain ⟨hcan, hval⟩ := max_exact hx (hs y rfl) h
    refine ⟨hcan, by rw [result?, hval], ?_, nofun⟩
    rintro _ ⟨⟩
    exact max_eq hx (hs y rfl) h
  | min y =>
    obtain ⟨hcan, hval⟩ := min_exact hx (hs y rfl) h
    refine ⟨hcan, by rw [result?, hval], nofun, ?_⟩
    rintro _ ⟨⟩
    exact min_eq hx (hs y rfl) h

/-- The state after a step. A step that is refused leaves it as it was. -/
def after (s : Step w) (x : Ratio w) : Ratio w :=
  match s.apply x with
  | .ok z => z
  | .error _ => x

theorem after_of_ok {s : Step w} (h : s.apply x = .ok z) : s.after x = z := by
  rw [after, h]

theorem after_of_error {s : Step w} {fault : Fault} (h : s.apply x = .error fault) : s.after x = x := by
  rw [after, h]

theorem after_canonical {s : Step w} (hx : x.Canonical) (hs : ∀ y ∈ s.operand?, y.Made) :
    (s.after x).Canonical := by
  cases h : s.apply x with
  | ok z =>
    rw [after_of_ok h]
    exact (apply_exact hx (fun y hy => (hs y hy).canonical) h).1
  | error fault =>
    rw [after_of_error h]
    exact hx

end Step

/-! ## Any number of steps -/

/-- The state at the end of a run. -/
def run (x : Ratio w) (steps : List (Step w)) : Ratio w := steps.foldl (fun x s => s.after x) x

theorem run_concat (x : Ratio w) (steps : List (Step w)) (s : Step w) :
    run x (steps ++ [s]) = s.after (run x steps) := by
  rw [run, List.foldl_append]
  rfl

/-- Every operand is made from numbers of the width. -/
def OperandsMade (steps : List (Step w)) : Prop := ∀ s ∈ steps, ∀ y ∈ s.operand?, y.Made

theorem run_canonical {steps : List (Step w)} (hx : x.Canonical) (hsteps : OperandsMade steps) :
    (run x steps).Canonical := by
  induction steps generalizing x with
  | nil => exact hx
  | cons s steps ih =>
    obtain ⟨hs, hrest⟩ := List.forall_mem_cons.1 hsteps
    exact ih (Step.after_canonical hx hs) hrest

/-! ## Main theorem -/

/-- After every run the state is canonical, and as good an operand as those that
were made. Whatever step comes next, it is exact if it answers and changes nothing if
it is refused. The states of any two runs are equal just when their numbers are. -/
theorem run_exact {steps : List (Step w)} (hx : x.Made) (hsteps : OperandsMade steps) :
    (run x steps).Canonical ∧ ((run x steps).numer = 0 → run x steps = zero) ∧ (run x steps).Made ∧
    (∀ s : Step w, (∀ y ∈ s.operand?, y.Made) →
      (∀ z, s.apply (run x steps) = .ok z → s.Exact (run x steps) z ∧ run x (steps ++ [s]) = z) ∧
      ∀ fault, s.apply (run x steps) = .error fault → run x (steps ++ [s]) = run x steps) ∧
    ∀ x' steps', Made x' → OperandsMade steps' →
      (run x steps = run x' steps' ↔ (run x steps).value = (run x' steps').value) := by
  have hcan := run_canonical hx.canonical hsteps
  refine ⟨hcan, fun hzero => ?_, hcan.made, fun s hs => ⟨fun z hz => ?_, fun fault hfault => ?_⟩, ?_⟩
  · refine hcan.eq_of_value zero_canonical ?_
    rw [zero_value, value, hzero, Int.cast_zero, zero_div]
  · rw [run_concat]
    exact ⟨(Step.apply_exact hcan (fun y hy => (hs y hy).canonical) hz).2, Step.after_of_ok hz⟩
  · rw [run_concat]
    exact Step.after_of_error hfault
  · intro x' steps' hx' hsteps'
    exact ⟨fun h => h ▸ rfl, hcan.eq_of_value (run_canonical hx'.canonical hsteps')⟩

/-- A run on eight bits. The third step is refused, since over the common
denominator 21 its operand has the numerator 300. -/
def detour : List (Step .w8) := [.sub ⟨1, 3⟩, .mul ⟨-8, 5⟩, .add ⟨100, 7⟩, .recip]

/-- A run of one step to the same state. -/
def shortcut : List (Step .w8) := [.div ⟨-2, 1⟩]

theorem detour_made : OperandsMade detour := by
  have hcan : ∀ s ∈ detour, ∀ y ∈ s.operand?, y.Canonical := by decide
  exact fun s hs y hy => (hcan s hs y hy).made

theorem shortcut_made : OperandsMade shortcut := by
  have hcan : ∀ s ∈ shortcut, ∀ y ∈ s.operand?, y.Canonical := by decide
  exact fun s hs y hy => (hcan s hs y hy).made

theorem run_exact_detour : (⟨3, 4⟩ : Ratio .w8).Made ∧ OperandsMade detour ∧
    (run ⟨3, 4⟩ detour).Canonical ∧ run ⟨3, 4⟩ detour = run (ofInt 3) shortcut ∧
    (Step.neg).Exact (run ⟨3, 4⟩ detour) ⟨3, 2⟩ := by
  have hstart : (⟨3, 4⟩ : Ratio .w8).Made := .make (n := 6) (d := 8) (by decide) (by decide) (by decide +kernel)
  obtain ⟨hcan, -, -, hstep, heq⟩ := run_exact hstart detour_made
  obtain ⟨hneg, -⟩ := hstep .neg nofun
  exact ⟨hstart, detour_made, hcan,
    (heq _ _ (.ofInt (by decide)) shortcut_made).2 (by decide +kernel), (hneg _ (by decide +kernel)).1⟩

end ScoreSequencer.Ratio
