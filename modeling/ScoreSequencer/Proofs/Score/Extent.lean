import Mathlib
import ScoreSequencer.Arrangement
import ScoreSequencer.Proofs.Ratio.Exact
/-!
# How long an arrangement is

The extent of an arrangement is its length computed anew in unbounded rationals:
a harmony is as long as its longest part, a melody as long as its parts
together. `Built.length_exact` says that the stored length of every arrangement
that can be built is a valid note length that stands for the extent.
-/

namespace ScoreSequencer.Arrangement

mutual
/-- The length of an arrangement in whole notes, from its leaves alone. -/
def extent : Arrangement → ℚ
  | note _ length => length.value
  | rest length => length.value
  | harmony parts _ => extentTogether parts
  | melody parts _ => extentInTurn parts

/-- The extent of the longest of some parts, zero if there is none. -/
def extentTogether : List Arrangement → ℚ
  | [] => 0
  | part :: parts => max (extent part) (extentTogether parts)

/-- The extent of parts that follow one another. -/
def extentInTurn : List Arrangement → ℚ
  | [] => 0
  | part :: parts => extent part + extentInTurn parts
end

theorem extentTogether_nonneg (parts : List Arrangement) : 0 ≤ extentTogether parts := by
  cases parts with
  | nil => exact le_rfl
  | cons part parts => exact le_max_of_le_right (extentTogether_nonneg parts)

/-! ## The stored length -/

theorem together_eq_ok {parts : List Arrangement} {node : Arrangement} :
    together parts = .ok node ↔ ∃ length, longest parts = .ok length ∧ node = harmony parts length := by
  unfold together
  simp only [step_ok, return_ok, @eq_comm _ node]

theorem inTurn_eq_ok {parts : List Arrangement} {node : Arrangement} :
    inTurn parts = .ok node ↔ ∃ length, total parts = .ok length ∧ node = melody parts length := by
  unfold inTurn
  simp only [step_ok, return_ok, @eq_comm _ node]

/-- The leaves of what can be built are valid, and a composite has the length
computed from its parts. -/
theorem Built.fields {node : Arrangement} (built : node.Built) :
    match node with
    | .note _ l | .rest l => l.Valid
    | .harmony parts l => (∀ part ∈ parts, part.Built) ∧ longest parts = .ok l
    | .melody parts l => (∀ part ∈ parts, part.Built) ∧ total parts = .ok l := by
  cases built with
  | note _ h | rest h => exact h
  | together hparts hok =>
    obtain ⟨_, hl, rfl⟩ := together_eq_ok.1 hok
    exact ⟨hparts, hl⟩
  | inTurn hparts hok =>
    obtain ⟨_, hl, rfl⟩ := inTurn_eq_ok.1 hok
    exact ⟨hparts, hl⟩

/-- The stored length is valid and stands for the extent. -/
def LengthExact (node : Arrangement) : Prop := node.length.Valid ∧ node.length.value = node.extent

theorem longest_exact {parts : List Arrangement} (hparts : ∀ part ∈ parts, LengthExact part)
    {start l : NoteLength} (hstart : start.Valid)
    (h : parts.foldlM (fun l part => l.max part.length) start = .ok l) :
    l.Valid ∧ l.value = max start.value (extentTogether parts) := by
  induction parts generalizing start with
  | nil =>
    cases return_ok.1 h
    exact ⟨hstart, (max_eq_left hstart.value_nonneg).symm⟩
  | cons part parts ih =>
    obtain ⟨next, hnext, h⟩ := step_ok.1 h
    obtain ⟨hlen, hext⟩ := hparts part List.mem_cons_self
    obtain ⟨hvalid, hval⟩ := NoteLength.max_exact hstart hlen hnext
    obtain ⟨hl, hlv⟩ := ih (fun p hp => hparts p (List.mem_cons_of_mem _ hp)) hvalid h
    exact ⟨hl, by rw [hlv, hval, hext, extentTogether, max_assoc]⟩

theorem total_exact {parts : List Arrangement} (hparts : ∀ part ∈ parts, LengthExact part)
    {start l : NoteLength} (hstart : start.Valid)
    (h : parts.foldlM (fun l part => l.add part.length) start = .ok l) :
    l.Valid ∧ l.value = start.value + extentInTurn parts := by
  induction parts generalizing start with
  | nil =>
    cases return_ok.1 h
    exact ⟨hstart, (add_zero _).symm⟩
  | cons part parts ih =>
    obtain ⟨next, hnext, h⟩ := step_ok.1 h
    obtain ⟨hlen, hext⟩ := hparts part List.mem_cons_self
    obtain ⟨hvalid, hval⟩ := NoteLength.add_exact hstart hlen hnext
    obtain ⟨hl, hlv⟩ := ih (fun p hp => hparts p (List.mem_cons_of_mem _ hp)) hvalid h
    exact ⟨hl, by rw [hlv, hval, hext, extentInTurn, add_assoc]⟩

/-- Every arrangement that can be built stores its extent. -/
theorem Built.length_exact {node : Arrangement} (built : node.Built) : node.LengthExact := by
  induction built with
  | note pitch h => exact ⟨h, rfl⟩
  | rest h => exact ⟨h, rfl⟩
  | together _ hok ih =>
    obtain ⟨l, hl, rfl⟩ := together_eq_ok.1 hok
    obtain ⟨hvalid, hval⟩ := longest_exact ih NoteLength.zero_valid hl
    rw [NoteLength.zero_value, max_eq_right (extentTogether_nonneg _)] at hval
    exact ⟨hvalid, hval⟩
  | inTurn _ hok ih =>
    obtain ⟨l, hl, rfl⟩ := inTurn_eq_ok.1 hok
    obtain ⟨hvalid, hval⟩ := total_exact ih NoteLength.zero_valid hl
    rw [NoteLength.zero_value, zero_add] at hval
    exact ⟨hvalid, hval⟩

end ScoreSequencer.Arrangement
