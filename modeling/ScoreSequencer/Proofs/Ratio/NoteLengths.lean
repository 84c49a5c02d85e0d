import Mathlib
import ScoreSequencer.Proofs.Ratio.Comparison
import ScoreSequencer.Proofs.Ratio.Refusal
import ScoreSequencer.Proofs.Ratio.Runs
/-!
# Note lengths in runs

Only the two ways of making a note length check that it is not negative; sums, greatest
lengths and dotted lengths are not checked. They need not be: the operations are exact,
and none of them leads below zero (`Step.apply_exact`), so every length that a run comes
to is in lowest terms and not negative. `run_nonneg` says so, and how lengths grow.
-/

namespace ScoreSequencer

/-! ## Zero -/

theorem Width.shares_zero {w : Width} {q : ℚ} (h : w.Represents q) : w.Shares 0 q q := by
  have hself : w.HoldsOver q.den q := ⟨dvd_rfl, by simpa [scaledNumer] using h.1⟩
  have hzero : w.HoldsOver q.den 0 := ⟨one_dvd _, by simp [scaledNumer, holds_zero]⟩
  exact ⟨q.den, q.den_pos, h.2, hzero, hself, hself⟩

/-- Zero added changes nothing, and nothing is refused. -/
theorem Ratio.zero_add_ok {w : Width} {x : Ratio w} (hx : x.Canonical) : zero.add x = .ok x := by
  refine (add_eq_ok zero_canonical hx).2 ?_
  rw [zero_value, zero_add]
  exact ⟨Width.shares_zero hx.represents, hx, rfl⟩

namespace NoteLength

variable {x y z : NoteLength} {n d : Int} {fault : Fault}

theorem zero_add_ok (hx : x.Valid) : zero.add x = .ok x := by
  have hratio : zero.ratio.add x.ratio = .ok x.ratio := Ratio.zero_add_ok hx.canonical
  rw [add, hratio]
  rfl

theorem add_zero_ok (hx : x.Valid) : x.add zero = .ok x := by
  have hratio : x.ratio.add zero.ratio = .ok x.ratio :=
    (Ratio.add_swap hx.canonical Ratio.zero_canonical).trans (Ratio.zero_add_ok hx.canonical)
  rw [add, hratio]
  rfl

/-- Lengths that can be compared have a greatest one. -/
theorem max_of_comparable (hx : x.Valid) (hy : y.Valid) (h : Ratio.Comparable x.ratio y.ratio) (hz : z.Valid)
    (hval : z.value = Max.max x.value y.value) : x.max y = .ok z := by
  cases hmax : x.max y with
  | error fault =>
    simp only [max, step_error, return_ne_error, and_false, exists_false, or_false] at hmax
    exact absurd h (Ratio.max_eq_error.1 hmax).2
  | ok m =>
    obtain ⟨hm, hmval⟩ := max_exact hx hy hmax
    rw [hm.eq_of_value hz (hmval.trans hval.symm)]

theorem zero_max (hx : x.Valid) : zero.max x = .ok x :=
  max_of_comparable zero_valid hx (Ratio.comparable_zero _) hx (by rw [zero_value, max_eq_right hx.value_nonneg])

theorem max_zero (hx : x.Valid) : x.max zero = .ok x :=
  max_of_comparable hx zero_valid (Ratio.comparable_comm.1 (Ratio.comparable_zero _)) hx
    (by rw [zero_value, max_eq_left hx.value_nonneg])

/-! ## Making note lengths -/

theorem ofRatio_eq_ok {r : Ratio .w32} : ofRatio r = .ok x ↔ r = x.ratio ∧ 0 ≤ r.numer := by
  obtain ⟨xr⟩ := x
  unfold ofRatio Ratio.isNegative
  split_ifs with h
  · simp only [decide_eq_true_eq] at h
    simp [h]
  · simp only [decide_eq_true_eq, not_lt] at h
    simp [h]

/-- A length is made of two numbers just when a ratio is, and their fraction is not negative. -/
theorem make_eq_ok (hn : Width.w32.Holds n) (hd : Width.w32.Holds d) :
    make n d = .ok x ↔ Ratio.make n d = .ok x.ratio ∧ (0 : ℚ) ≤ n / d := by
  simp only [make, step_ok, ofRatio_eq_ok]
  constructor
  · rintro ⟨r, hr, rfl, hnumer⟩
    obtain ⟨hcan, hval⟩ := Ratio.make_exact hn hd hr
    exact ⟨hr, hval ▸ hcan.value_nonneg hnumer⟩
  · rintro ⟨hr, hsign⟩
    obtain ⟨hcan, hval⟩ := Ratio.make_exact hn hd hr
    exact ⟨x.ratio, hr, rfl, hcan.numer_nonneg (hval ▸ hsign)⟩

/-- The lengths made of numbers of 32 bits, or of ratios made of such numbers. -/
inductive Made : NoteLength → Prop
  | make {n d : Int} {x : NoteLength} : Width.w32.Holds n → Width.w32.Holds d → NoteLength.make n d = .ok x → Made x
  | ofRatio {r : Ratio .w32} {x : NoteLength} : r.Made → NoteLength.ofRatio r = .ok x → Made x

theorem Made.valid (h : x.Made) : x.Valid := by
  cases h with
  | make hn hd h =>
    obtain ⟨hr, hsign⟩ := (make_eq_ok hn hd).1 h
    obtain ⟨hcan, hval⟩ := Ratio.make_exact hn hd hr
    exact ⟨hcan, hcan.numer_nonneg (hval ▸ hsign)⟩
  | ofRatio hr h =>
    obtain ⟨rfl, hnumer⟩ := ofRatio_eq_ok.1 h
    exact ⟨hr.canonical, hnumer⟩

/-- A valid length is made of its own ratio. -/
theorem Valid.made (h : x.Valid) : x.Made :=
  .ofRatio h.canonical.made (ofRatio_eq_ok.2 ⟨rfl, h.nonneg⟩)

/-! ## One step -/

/-- Three halves in lowest terms. -/
theorem dot_canonical : (⟨3, 2⟩ : Ratio .w32).Canonical := by decide

theorem dot_value : (⟨3, 2⟩ : Ratio .w32).value = 3 / 2 := by norm_num [Ratio.value]

/-- A length is dotted if 32 bits hold the lowest terms of one and a half times it. -/
theorem dotted_eq (hx : x.Valid) : x.dotted =
    if Width.w32.Represents (x.value * (3 / 2)) then .ok ⟨.ofRat (x.value * (3 / 2))⟩
    else .error (.overflow .ratioMultiplication) := by
  rw [dotted, Ratio.mul_eq hx.canonical dot_canonical, dot_value, ← value]
  split_ifs <;> rfl

theorem dotted_exact (hx : x.Valid) (h : x.dotted = .ok z) : z.Valid ∧ z.value = x.value * (3 / 2) := by
  rw [dotted_eq hx] at h
  split_ifs at h with hfits
  cases h
  have hval : (⟨.ofRat (x.value * (3 / 2))⟩ : NoteLength).value = x.value * (3 / 2) := Ratio.ofRat_value _
  have hcan := Ratio.ofRat_canonical hfits
  refine ⟨⟨hcan, hcan.numer_nonneg ?_⟩, hval⟩
  rw [Ratio.ofRat_value]
  exact mul_nonneg hx.value_nonneg (by norm_num)

/-- An operation on the state of a run, with its second operand. -/
inductive Step where
  | add (operand : NoteLength)
  | max (operand : NoteLength)
  | dotted

namespace Step

def operand? : Step → Option NoteLength
  | add y | max y => some y
  | dotted => none

def apply : Step → NoteLength → Except Fault NoteLength
  | add y, x => x.add y
  | max y, x => x.max y
  | dotted, x => x.dotted

/-- The operation on unbounded rationals. -/
def result : Step → ℚ → ℚ
  | add y, q => q + y.value
  | max y, q => Max.max q y.value
  | dotted, q => q * (3 / 2)

/-- No operation leads below zero. -/
theorem apply_exact {s : Step} (hx : x.Valid) (hs : ∀ y ∈ s.operand?, y.Made) (h : s.apply x = .ok z) :
    z.Valid ∧ z.value = s.result x.value := by
  cases s with
  | add y => exact add_exact hx (hs y rfl).valid h
  | max y => exact max_exact hx (hs y rfl).valid h
  | dotted => exact dotted_exact hx h

/-- The state after a step. A step that is refused leaves it as it was. -/
def after (s : Step) (x : NoteLength) : NoteLength :=
  match s.apply x with
  | .ok z => z
  | .error _ => x

theorem after_of_ok {s : Step} (h : s.apply x = .ok z) : s.after x = z := by
  rw [after, h]

theorem after_of_error {s : Step} (h : s.apply x = .error fault) : s.after x = x := by
  rw [after, h]

theorem after_valid {s : Step} (hx : x.Valid) (hs : ∀ y ∈ s.operand?, y.Made) : (s.after x).Valid := by
  cases h : s.apply x with
  | ok z =>
    rw [after_of_ok h]
    exact (apply_exact hx hs h).1
  | error fault =>
    rw [after_of_error h]
    exact hx

end Step

/-! ## Any number of steps -/

/-- The state at the end of a run. -/
def run (x : NoteLength) (steps : List Step) : NoteLength := steps.foldl (fun x s => s.after x) x

theorem run_concat (x : NoteLength) (steps : List Step) (s : Step) :
    run x (steps ++ [s]) = s.after (run x steps) := by
  rw [run, List.foldl_append]
  rfl

/-- Every operand is made of numbers or a ratio. -/
def OperandsMade (steps : List Step) : Prop := ∀ s ∈ steps, ∀ y ∈ s.operand?, y.Made

theorem run_valid {steps : List Step} (hx : x.Valid) (hsteps : OperandsMade steps) : (run x steps).Valid := by
  induction steps generalizing x with
  | nil => exact hx
  | cons s steps ih =>
    obtain ⟨hs, hrest⟩ := List.forall_mem_cons.1 hsteps
    exact ih (Step.after_valid hx hs) hrest

/-! ## Main theorem -/

theorem le_add (hx : x.Valid) (hy : y.Valid) (h : x.add y = .ok z) : x.value ≤ z.value ∧ y.value ≤ z.value := by
  rw [(add_exact hx hy h).2]
  exact ⟨le_add_of_nonneg_right hy.value_nonneg, le_add_of_nonneg_left hx.value_nonneg⟩

theorem dotted_eq_ok (hx : x.Valid) : x.dotted = .ok z ↔
    Width.w32.Represents (x.value * (3 / 2)) ∧ z.Valid ∧ z.value = x.value * (3 / 2) := by
  constructor
  · intro h
    refine ⟨?_, dotted_exact hx h⟩
    by_contra hfits
    rw [dotted_eq hx, if_neg hfits] at h
    cases h
  · rintro ⟨hfits, hz, hval⟩
    rw [dotted_eq hx, if_pos hfits, ← hval]
    exact congrArg Except.ok (congrArg NoteLength.mk hz.canonical.eq_ofRat.symm)

theorem dotted_eq_error (hx : x.Valid) : x.dotted = .error fault ↔
    fault = .overflow .ratioMultiplication ∧ ¬Width.w32.Represents (x.value * (3 / 2)) := by
  rw [dotted_eq hx]
  split_ifs with hfits <;> simp [hfits, eq_comm]

/-- After every run the state is a fraction in lowest terms that is not negative, and as good an
operand as those that were made. Whatever step comes next, it is exact if it answers and
changes nothing if it is refused. Of made lengths neither term is greater than a sum, and
sums grow with their terms. Zero changes no length and is never refused. Dotting is
refused just when 32 bits do not hold the result. A length is made of two numbers just when
a ratio is, and their fraction is not negative. -/
theorem run_nonneg (hx : x.Made) :
    (∀ steps, OperandsMade steps →
      (run x steps).ratio.Canonical ∧ 0 ≤ (run x steps).value ∧ (run x steps).Made ∧
      ∀ s : Step, (∀ y ∈ s.operand?, y.Made) →
        (∀ z, s.apply (run x steps) = .ok z →
          z.value = s.result (run x steps).value ∧ run x (steps ++ [s]) = z) ∧
        ∀ fault, s.apply (run x steps) = .error fault → run x (steps ++ [s]) = run x steps) ∧
    (∀ y z : NoteLength, y.Made → x.add y = .ok z → x.value ≤ z.value ∧ y.value ≤ z.value) ∧
    (∀ x' y z z' : NoteLength, x'.Made → y.Made → x.value ≤ x'.value → x.add y = .ok z → x'.add y = .ok z' →
      z.value ≤ z'.value) ∧
    (x.add zero = .ok x ∧ zero.add x = .ok x ∧ x.max zero = .ok x ∧ zero.max x = .ok x) ∧
    (∀ z, x.dotted = .ok z ↔
      Width.w32.Represents (x.value * (3 / 2)) ∧ z.Valid ∧ z.value = x.value * (3 / 2)) ∧
    (∀ fault, x.dotted = .error fault ↔
      fault = .overflow .ratioMultiplication ∧ ¬Width.w32.Represents (x.value * (3 / 2))) ∧
    ∀ n d z, Width.w32.Holds n → Width.w32.Holds d →
      (make n d = .ok z ↔ Ratio.make n d = .ok z.ratio ∧ (0 : ℚ) ≤ n / d) := by
  have hvalid := hx.valid
  refine ⟨fun steps hsteps => ?_, fun y z hy h => le_add hvalid hy.valid h,
    fun x' y z z' hx' hy hle h h' => ?_,
    ⟨add_zero_ok hvalid, zero_add_ok hvalid, max_zero hvalid, zero_max hvalid⟩,
    fun z => dotted_eq_ok hvalid, fun fault => dotted_eq_error hvalid, fun n d z hn hd => make_eq_ok hn hd⟩
  · have hrun := run_valid hvalid hsteps
    refine ⟨hrun.canonical, hrun.value_nonneg, hrun.made, fun s hs => ⟨fun z hz => ?_, fun fault hfault => ?_⟩⟩
    · rw [run_concat]
      exact ⟨(Step.apply_exact hrun hs hz).2, Step.after_of_ok hz⟩
    · rw [run_concat]
      exact Step.after_of_error hfault
  · rw [(add_exact hvalid hy.valid h).2, (add_exact hx'.valid hy.valid h').2]
    exact add_le_add_left hle _

/-- A short length. -/
def sliver : NoteLength := ⟨⟨1, 46349⟩⟩

/-- A run from it to three quarters. The sum is refused, since no 32 bits hold the common
denominator. -/
def swelling : List Step := [.add ⟨⟨1, 46351⟩⟩, .max half, .dotted]

theorem sliver_made : sliver.Made :=
  .make (n := -2) (d := -92698) (by decide) (by decide) (by decide +kernel)

theorem swelling_made : OperandsMade swelling := by
  have hvalid : ∀ s ∈ swelling, ∀ y ∈ s.operand?, y.Valid := by decide
  exact fun s hs y hy => (hvalid s hs y hy).made

/-- Another quarter makes a whole note of the three, and nothing can be added to the longest
length. -/
theorem run_nonneg_swelling : sliver.Made ∧ OperandsMade swelling ∧ run sliver swelling = ⟨⟨3, 4⟩⟩ ∧
    (run sliver swelling).ratio.Canonical ∧ run sliver (swelling ++ [.add quarter]) = whole ∧
    run sliver (swelling ++ [.add ⟨⟨2147483647, 1⟩⟩]) = ⟨⟨3, 4⟩⟩ ∧
    sliver.value ≤ (⟨⟨46353, 185396⟩⟩ : NoteLength).value ∧
    (⟨⟨46353, 185396⟩⟩ : NoteLength).value ≤ (⟨⟨3, 4⟩⟩ : NoteLength).value ∧
    sliver.dotted = .ok ⟨⟨3, 92698⟩⟩ ∧ make (-3) (-4) = .ok ⟨⟨3, 4⟩⟩ := by
  have hrun : run sliver swelling = ⟨⟨3, 4⟩⟩ := by decide +kernel
  have hquarter : quarter.Made := Valid.made (by decide)
  have hlongest : (⟨⟨2147483647, 1⟩⟩ : NoteLength).Made := Valid.made (by decide)
  have hsum : sliver.add quarter = .ok ⟨⟨46353, 185396⟩⟩ := by decide +kernel
  obtain ⟨hruns, hgrows, hmono, -, hdotted, -, hmake⟩ := run_nonneg sliver_made
  obtain ⟨hcan, -, -, hnext⟩ := hruns swelling swelling_made
  obtain ⟨hanswered, -⟩ := hnext (.add quarter) (by rintro _ ⟨⟩; exact hquarter)
  obtain ⟨-, hrefused⟩ := hnext (.add ⟨⟨2147483647, 1⟩⟩) (by rintro _ ⟨⟩; exact hlongest)
  refine ⟨sliver_made, swelling_made, hrun, hcan, (hanswered whole (by rw [hrun]; decide +kernel)).2,
    (hrefused (.overflow .ratioAddition) (by rw [hrun]; decide +kernel)).trans hrun, (hgrows _ _ hquarter hsum).1,
    hmono half _ _ _ (Valid.made (by decide)) hquarter (by decide +kernel) hsum (by decide +kernel),
    (hdotted _).2 ⟨by decide +kernel, by decide, by decide +kernel⟩,
    (hmake _ _ _ (by decide) (by decide)).2 ⟨by decide +kernel, by decide +kernel⟩⟩

end NoteLength

end ScoreSequencer
