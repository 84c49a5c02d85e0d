import Mathlib
import ScoreSequencer.Proofs.Ratio.Refusal
import ScoreSequencer.Proofs.Score.Lengths
/-!
# When a melody is refused

The length of a melody is added up part by part, and each sum is formed over the
least common denominator of its two terms. So a melody is built just when every one of
these sums fits (`SumsFit`). That the total fits in lowest terms is not enough, and
the order of the parts matters (`scattered_refused`). It is enough that the total fits
over one denominator common to all parts, and then the parts can be put in any order
(`inTurn_refused_iff`).
-/

namespace ScoreSequencer.Arrangement

/-- The lengths of some parts together, in unbounded rationals. -/
def totalValue (parts : List Arrangement) : ℚ := (parts.map (·.length.value)).sum

/-- The sum of every part's length and the lengths before it fits over the least
common denominator of the two. -/
def SumsFit (parts : List Arrangement) : Prop :=
  ∀ (front : List Arrangement) (part : Arrangement), front ++ [part] <+: parts →
    Width.w32.Combines (· + ·) (totalValue front) part.length.value

variable {parts : List Arrangement} {last : Arrangement} {fault : Fault}

/-! ## One sum after the other -/

theorem total_concat : total (parts ++ [last]) = total parts >>= fun l => l.add last.length := by
  rw [total, List.foldlM_append]
  simp [total]

theorem sumsFit_nil : SumsFit [] := by
  intro front part h
  simp at h

theorem sumsFit_concat : SumsFit (parts ++ [last]) ↔
    SumsFit parts ∧ Width.w32.Combines (· + ·) (totalValue parts) last.length.value := by
  constructor
  · intro h
    exact ⟨fun front part hpre => h front part (hpre.trans (List.prefix_append _ _)), h parts last List.prefix_rfl⟩
  · rintro ⟨hparts, hlast⟩ front part hpre
    rcases List.prefix_concat_iff.1 hpre with heq | hpre
    · obtain ⟨rfl, hsame⟩ := List.append_inj' heq rfl
      obtain rfl := List.singleton_inj.1 hsame
      exact hlast
    · exact hparts front part hpre

theorem total_value {l : NoteLength} (hparts : ∀ part ∈ parts, part.Built) (h : total parts = .ok l) :
    l.Valid ∧ l.value = totalValue parts := by
  have hright := (Built.inTurn hparts (inTurn_eq_ok.2 ⟨l, h, rfl⟩)).length_right
  exact ⟨hright.valid, hright.melody parts l rfl⟩

/-- The total is refused just when one of the sums on the way to it overflows. -/
theorem total_eq_error (hparts : ∀ part ∈ parts, part.Built) :
    total parts = .error fault ↔ fault = .overflow .ratioAddition ∧ ¬SumsFit parts := by
  induction parts using List.reverseRecOn generalizing fault with
  | nil => simp [total, sumsFit_nil, return_ne_error]
  | append_singleton parts last ih =>
    obtain ⟨hparts, hlast⟩ := List.forall_mem_append.1 hparts
    have hvalid := (hlast last List.mem_cons_self).length_exact.1
    rw [total_concat, step_error, sumsFit_concat, ih hparts]
    cases h : total parts with
    | error fault' =>
      have hfit := ((ih hparts).1 h).2
      simp [hfit]
    | ok l =>
      obtain ⟨hl, hval⟩ := total_value hparts h
      have hfit : SumsFit parts := by
        by_contra hfit
        cases h.symm.trans ((ih hparts).2 ⟨rfl, hfit⟩)
      simp [hfit, NoteLength.add_eq_error hl hvalid, hval]

theorem inTurn_eq_error : inTurn parts = .error fault ↔ total parts = .error fault := by
  rw [inTurn, step_error]
  simp [return_ne_error]

/-! ## Over one denominator -/

theorem totalValue_nonneg (hparts : ∀ part ∈ parts, part.Built) : 0 ≤ totalValue parts := by
  refine List.sum_nonneg ?_
  simp only [List.mem_map, forall_exists_index, and_imp, forall_apply_eq_imp_iff₂]
  exact fun part hpart => (hparts part hpart).length_exact.1.value_nonneg

theorem totalValue_perm {parts' : List Arrangement} (h : parts'.Perm parts) : totalValue parts' = totalValue parts :=
  (h.map _).sum_eq

/-- A denominator common to all parts is one of their total. -/
theorem den_totalValue_dvd {denom : Nat} (h : ∀ part ∈ parts, part.length.value.den ∣ denom) :
    (totalValue parts).den ∣ denom := by
  induction parts with
  | nil => simp [totalValue]
  | cons part parts ih =>
    obtain ⟨hpart, hrest⟩ := List.forall_mem_cons.1 h
    rw [totalValue, List.map_cons, List.sum_cons, ← totalValue]
    exact (Rat.add_den_dvd_lcm _ _).trans (Nat.lcm_dvd hpart (ih hrest))

/-- If the total fits over a denominator common to all parts, so does every sum on the way to it. -/
theorem sumsFit_of_common {denom : Nat} (hparts : ∀ part ∈ parts, part.Built) (hpos : 0 < denom)
    (hcommon : ∀ part ∈ parts, part.length.value.den ∣ denom) (hdenom : Width.w32.Holds denom)
    (htotal : totalValue parts * denom ≤ Width.w32.greatest) : SumsFit parts := by
  intro front part hpre
  obtain ⟨rest, rfl⟩ := hpre
  simp only [List.forall_mem_append, List.forall_mem_singleton] at hparts hcommon
  obtain ⟨⟨hfront, hpart⟩, hrest⟩ := hparts
  obtain ⟨⟨hfrontDen, hpartDen⟩, -⟩ := hcommon
  have hsplit : totalValue (front ++ [part] ++ rest) = totalValue front + part.length.value + totalValue rest := by
    simp [totalValue, add_assoc]
  refine Width.combines_of_common (totalValue_nonneg hfront) hpart.length_exact.1.value_nonneg hpos
    (den_totalValue_dvd hfrontDen) hpartDen hdenom (le_trans ?_ htotal)
  rw [hsplit]
  exact mul_le_mul_of_nonneg_right (le_add_of_nonneg_right (totalValue_nonneg hrest)) (Nat.cast_nonneg _)

/-! ## Main theorem -/

/-- A melody is refused just when one of the sums on the way to its length does not fit
over the least common denominator of its two terms, always as an overflow of the
addition. If the total fits over one denominator common to all parts, the melody is
built in every order of its parts. -/
theorem inTurn_refused_iff (hparts : ∀ part ∈ parts, part.Built) :
    (∀ fault, inTurn parts = .error fault ↔ fault = .overflow .ratioAddition ∧ ¬SumsFit parts) ∧
    (∀ node, inTurn parts = .ok node → node.length.value = totalValue parts) ∧
    ∀ denom : Nat, 0 < denom → (∀ part ∈ parts, part.length.value.den ∣ denom) → Width.w32.Holds denom →
      totalValue parts * denom ≤ Width.w32.greatest →
      ∀ parts' : List Arrangement, parts'.Perm parts →
        ∃ node, inTurn parts' = .ok node ∧ node.length.value = totalValue parts := by
  have hrefused : ∀ {xs : List Arrangement}, (∀ x ∈ xs, x.Built) → ∀ fault,
      inTurn xs = .error fault ↔ fault = .overflow .ratioAddition ∧ ¬SumsFit xs :=
    fun hxs fault => inTurn_eq_error.trans (total_eq_error hxs)
  have hvalue : ∀ {xs : List Arrangement}, (∀ x ∈ xs, x.Built) → ∀ node, inTurn xs = .ok node →
      node.length.value = totalValue xs := by
    intro xs hxs node h
    obtain ⟨l, hl, rfl⟩ := inTurn_eq_ok.1 h
    exact (total_value hxs hl).2
  refine ⟨hrefused hparts, hvalue hparts, fun denom hpos hcommon hdenom htotal parts' hperm => ?_⟩
  have hparts' : ∀ part ∈ parts', part.Built := fun part hpart => hparts part (hperm.mem_iff.1 hpart)
  have hfit : SumsFit parts' := by
    refine sumsFit_of_common hparts' hpos (fun part hpart => hcommon part (hperm.mem_iff.1 hpart)) hdenom ?_
    rwa [totalValue_perm hperm]
  cases h : inTurn parts' with
  | error fault => exact absurd hfit ((hrefused hparts' fault).1 h).2
  | ok node => exact ⟨node, rfl, (hvalue hparts' node h).trans (totalValue_perm hperm)⟩

theorem built_rests {lengths : List NoteLength} (h : ∀ l ∈ lengths, l.Valid) :
    ∀ part ∈ lengths.map rest, part.Built := by
  intro part hpart
  obtain ⟨l, hl, rfl⟩ := List.mem_map.1 hpart
  exact .rest (h l hl)

/-- Twelve is a denominator common to the three lengths. -/
def graded : List Arrangement := [⟨⟨1, 3⟩⟩, ⟨⟨1, 4⟩⟩, ⟨⟨5, 12⟩⟩].map rest

theorem inTurn_refused_iff_graded : (∀ part ∈ graded, part.Built) ∧
    (∀ part ∈ graded, part.length.value.den ∣ 12) ∧ Width.w32.Holds (12 : Nat) ∧
    totalValue graded * (12 : Nat) ≤ Width.w32.greatest ∧ graded.reverse.Perm graded ∧
    ∃ node, inTurn graded.reverse = .ok node ∧ node.length.value = totalValue graded := by
  have hbuilt : ∀ part ∈ graded, part.Built := built_rests (by decide)
  have hcommon : ∀ part ∈ graded, part.length.value.den ∣ 12 := by decide +kernel
  have htotal : totalValue graded * (12 : Nat) ≤ Width.w32.greatest := by decide +kernel
  have hperm : graded.reverse.Perm graded := graded.reverse_perm
  obtain ⟨-, -, horders⟩ := inTurn_refused_iff hbuilt
  exact ⟨hbuilt, hcommon, by decide, htotal, hperm, horders 12 (by decide) hcommon (by decide) htotal _ hperm⟩

/-- Two whole notes in four parts. The first two parts have no common denominator
within 32 bits. -/
def scattered : List Arrangement := [⟨⟨1, 46349⟩⟩, ⟨⟨1, 46351⟩⟩, ⟨⟨46348, 46349⟩⟩, ⟨⟨46350, 46351⟩⟩].map rest

/-- The same parts, each beside the one that completes its whole note. -/
def gathered : List Arrangement := [⟨⟨1, 46349⟩⟩, ⟨⟨46348, 46349⟩⟩, ⟨⟨1, 46351⟩⟩, ⟨⟨46350, 46351⟩⟩].map rest

/-- A melody can be refused although its total fits, and be built in another order. -/
theorem scattered_refused : (∀ part ∈ scattered, part.Built) ∧ totalValue scattered = 2 ∧
    Width.w32.Holds (totalValue scattered).num ∧ Width.w32.Holds (totalValue scattered).den ∧
    inTurn scattered = .error (.overflow .ratioAddition) ∧ gathered.Perm scattered ∧
    inTurn gathered = .ok (.melody gathered ⟨⟨2, 1⟩⟩) :=
  ⟨built_rests (by decide), by decide +kernel, by decide +kernel, by decide +kernel,
    inTurn_eq_error.2 (by decide +kernel), .cons _ (.swap _ _ _), inTurn_eq_ok.2 ⟨_, by decide +kernel, rfl⟩⟩

end ScoreSequencer.Arrangement
