import Mathlib
import ScoreSequencer.Proofs.Score.Extent
/-!
# The lengths of all nodes

Lengths are stored once, when a node is built, and never computed again. They are
right all the same (`Built.nodes_right`): in every node of an arrangement that can be
built, a melody stores the sum of its parts' lengths and a harmony their maximum.

The `Outline` of an arrangement is its shape with its leaves, their lengths as exact
numbers. It decides all stored lengths, so arrangements that can be built are equal
just when their outlines are.
-/

namespace ScoreSequencer

/-- An arrangement without the lengths of its composites, and with those of its
leaves as exact numbers. -/
inductive Outline where
  | note (pitch : Pitch) (length : ℚ)
  | rest (length : ℚ)
  | harmony (parts : List Outline)
  | melody (parts : List Outline)

namespace Arrangement

mutual
/-- All nodes of an arrangement, from the root down and from left to right. -/
def nodes : Arrangement → List Arrangement
  | note pitch length => [note pitch length]
  | rest length => [rest length]
  | harmony parts length => harmony parts length :: nodesAll parts
  | melody parts length => melody parts length :: nodesAll parts

def nodesAll : List Arrangement → List Arrangement
  | [] => []
  | part :: parts => nodes part ++ nodesAll parts
end

mutual
def outline : Arrangement → Outline
  | note pitch length => .note pitch length.value
  | rest length => .rest length.value
  | harmony parts _ => .harmony (outlineAll parts)
  | melody parts _ => .melody (outlineAll parts)

def outlineAll : List Arrangement → List Outline
  | [] => []
  | part :: parts => outline part :: outlineAll parts
end

theorem forall_mem_nodesAll {P : Arrangement → Prop} {parts : List Arrangement}
    (h : ∀ part ∈ parts, ∀ node ∈ part.nodes, P node) : ∀ node ∈ nodesAll parts, P node := by
  induction parts with
  | nil => exact nofun
  | cons part parts ih =>
    obtain ⟨hpart, hrest⟩ := List.forall_mem_cons.1 h
    exact List.forall_mem_append.2 ⟨hpart, ih hrest⟩

/-! ## Lengths -/

/-- The length stored in a node is valid, and for a composite it is computed from
the lengths of its parts: their sum for a melody, their maximum for a harmony. -/
structure LengthRight (node : Arrangement) : Prop where
  valid : node.length.Valid
  melody : ∀ parts l, node = .melody parts l → l.value = (parts.map (·.length.value)).sum
  harmony : ∀ parts l, node = .harmony parts l → l.value = (parts.map (·.length.value)).maximum.unbotD 0

theorem extentInTurn_eq_sum {parts : List Arrangement} (h : ∀ part ∈ parts, LengthExact part) :
    extentInTurn parts = (parts.map (·.length.value)).sum := by
  induction parts with
  | nil => rfl
  | cons part parts ih =>
    obtain ⟨⟨-, hextent⟩, hrest⟩ := List.forall_mem_cons.1 h
    rw [extentInTurn, ih hrest, List.map_cons, List.sum_cons, hextent]

/-- Zero, from which the longest part is searched, is not longer than any part. -/
theorem extentTogether_eq_maximum {parts : List Arrangement} (h : ∀ part ∈ parts, LengthExact part) :
    extentTogether parts = (parts.map (·.length.value)).maximum.unbotD 0 := by
  induction parts with
  | nil => rfl
  | cons part parts ih =>
    obtain ⟨⟨hvalid, hextent⟩, hrest⟩ := List.forall_mem_cons.1 h
    have hnonneg : 0 ≤ part.length.value := hvalid.value_nonneg
    rw [extentTogether, ih hrest, ← hextent, List.map_cons, List.maximum_cons]
    cases (parts.map (·.length.value)).maximum with
    | bot => rw [WithBot.unbotD_bot, max_bot_right, WithBot.unbotD_coe, max_eq_left hnonneg]
    | coe m => rw [WithBot.unbotD_coe, ← WithBot.coe_max, WithBot.unbotD_coe]

theorem Built.length_right {node : Arrangement} (built : node.Built) : node.LengthRight := by
  obtain ⟨hvalid, hextent⟩ := built.length_exact
  refine ⟨hvalid, ?_, ?_⟩
  · rintro parts l rfl
    exact hextent.trans (extentInTurn_eq_sum fun part hpart => (built.fields.1 part hpart).length_exact)
  · rintro parts l rfl
    exact hextent.trans (extentTogether_eq_maximum fun part hpart => (built.fields.1 part hpart).length_exact)

/-- The length of a harmony with parts is that of one of them. -/
theorem exists_longest {parts : List Arrangement} {node : Arrangement} (hparts : ∀ part ∈ parts, part.Built)
    (hne : parts ≠ []) (h : together parts = .ok node) : ∃ part ∈ parts, part.length = node.length := by
  have hright := (Built.together hparts h).length_right
  obtain ⟨l, -, rfl⟩ := together_eq_ok.1 h
  have hmax := hright.harmony parts l rfl
  cases hm : (parts.map (·.length.value)).maximum with
  | bot => exact absurd (List.map_eq_nil_iff.1 (List.maximum_eq_bot.1 hm)) hne
  | coe m =>
    rw [hm, WithBot.unbotD_coe] at hmax
    obtain ⟨part, hpart, hval⟩ := List.mem_map.1 (List.maximum_mem hm)
    have hvalid := (hparts part hpart).length_right.valid
    exact ⟨part, hpart, hvalid.eq_of_value hright.valid (hval.trans hmax.symm)⟩

theorem Built.nodes_built {root : Arrangement} (built : root.Built) : ∀ node ∈ root.nodes, node.Built := by
  induction built with
  | note pitch h => exact List.forall_mem_singleton.2 (.note pitch h)
  | rest h => exact List.forall_mem_singleton.2 (.rest h)
  | together hparts hok ih =>
    have hroot := Built.together hparts hok
    obtain ⟨_, _, rfl⟩ := together_eq_ok.1 hok
    exact List.forall_mem_cons.2 ⟨hroot, forall_mem_nodesAll ih⟩
  | inTurn hparts hok ih =>
    have hroot := Built.inTurn hparts hok
    obtain ⟨_, _, rfl⟩ := inTurn_eq_ok.1 hok
    exact List.forall_mem_cons.2 ⟨hroot, forall_mem_nodesAll ih⟩

/-! ## Equality -/

mutual
theorem same_iff : ∀ x y : Arrangement, x.same y = true ↔ x = y
  | note p l, y => by cases y <;> simp [same]
  | rest l, y => by cases y <;> simp [same]
  | harmony ps l, y => by cases y <;> simp [same, sameAll_iff ps, and_comm]
  | melody ps l, y => by cases y <;> simp [same, sameAll_iff ps, and_comm]

theorem sameAll_iff : ∀ xs ys : List Arrangement, sameAll xs ys = true ↔ xs = ys
  | [], ys => by cases ys <;> simp [sameAll]
  | x :: xs, ys => by cases ys <;> simp [sameAll, same_iff x, sameAll_iff xs]
end

/-- The outline decides the arrangement among those that can be built. -/
def OutlineDecides (x : Arrangement) : Prop := ∀ y : Arrangement, y.Built → x.outline = y.outline → x = y

theorem eq_of_outlineAll {xs ys : List Arrangement} (hxs : ∀ x ∈ xs, OutlineDecides x) (hys : ∀ y ∈ ys, y.Built)
    (h : outlineAll xs = outlineAll ys) : xs = ys := by
  induction xs generalizing ys with
  | nil =>
    cases ys with
    | nil => rfl
    | cons y ys => cases h
  | cons x xs ih =>
    cases ys with
    | nil => cases h
    | cons y ys =>
      obtain ⟨hx, hxs⟩ := List.forall_mem_cons.1 hxs
      obtain ⟨hy, hys⟩ := List.forall_mem_cons.1 hys
      obtain ⟨hhead, htail⟩ := List.cons.inj h
      rw [hx y hy hhead, ih hxs hys htail]

theorem Built.outlineDecides {x : Arrangement} (built : x.Built) : OutlineDecides x := by
  induction built with
  | note pitch hl =>
    intro y hy h
    cases y with
    | note q m =>
      obtain ⟨rfl, hval⟩ := Outline.note.inj h
      rw [hl.eq_of_value hy.fields hval]
    | rest m | harmony qs m | melody qs m => cases h
  | rest hl =>
    intro y hy h
    cases y with
    | rest m => rw [hl.eq_of_value hy.fields (Outline.rest.inj h)]
    | note q m | harmony qs m | melody qs m => cases h
  | together _ hok ih =>
    intro y hy h
    obtain ⟨l, hl, rfl⟩ := together_eq_ok.1 hok
    cases y with
    | harmony qs m =>
      -- Equal parts have one longest length.
      obtain ⟨hqs, hm⟩ := hy.fields
      obtain rfl := eq_of_outlineAll ih hqs (Outline.harmony.inj h)
      rw [Except.ok.inj (hl.symm.trans hm)]
    | note q m | rest m | melody qs m => cases h
  | inTurn _ hok ih =>
    intro y hy h
    obtain ⟨l, hl, rfl⟩ := inTurn_eq_ok.1 hok
    cases y with
    | melody qs m =>
      obtain ⟨hqs, hm⟩ := hy.fields
      obtain rfl := eq_of_outlineAll ih hqs (Outline.melody.inj h)
      rw [Except.ok.inj (hl.symm.trans hm)]
    | note q m | rest m | harmony qs m => cases h

/-! ## Main theorem -/

/-- Every node of an arrangement that can be built stores the right length. The
lengths of all nodes are decided by the outline, and comparing two such arrangements
compares their outlines. -/
theorem Built.nodes_right {root : Arrangement} (built : root.Built) :
    (∀ node ∈ root.nodes, node.LengthRight) ∧
    ∀ other : Arrangement, other.Built →
      (root.outline = other.outline → root.nodes.map length = other.nodes.map length) ∧
      (root.same other = true ↔ root.outline = other.outline) := by
  refine ⟨fun node hnode => (built.nodes_built node hnode).length_right, fun other hother => ⟨?_, ?_⟩⟩
  · intro h
    rw [built.outlineDecides other hother h]
  · rw [same_iff]
    exact ⟨fun h => h ▸ rfl, built.outlineDecides other hother⟩

/-- A third of a quarter three times. -/
def motif : Arrangement := .melody [.rest ⟨⟨1, 12⟩⟩, .rest ⟨⟨1, 12⟩⟩, .rest ⟨⟨1, 12⟩⟩] .quarter

/-- The motif beside itself twice. -/
def canon : Arrangement := .harmony [motif, .melody [motif, motif] .half] .half

theorem motif_built : motif.Built := by
  have hrest : (Arrangement.rest ⟨⟨1, 12⟩⟩).Built := .rest (by decide)
  refine .inTurn ?_ (inTurn_eq_ok.2 ⟨_, by decide +kernel, rfl⟩)
  simp [hrest]

theorem canon_built : canon.Built := by
  have hmelody : (Arrangement.melody [motif, motif] .half).Built := by
    refine .inTurn ?_ (inTurn_eq_ok.2 ⟨_, by decide +kernel, rfl⟩)
    simp [motif_built]
  refine .together ?_ (together_eq_ok.2 ⟨_, by decide +kernel, rfl⟩)
  simp [motif_built, hmelody]

theorem nodes_right_canon : canon.Built ∧ motif.Built ∧ (∀ node ∈ canon.nodes, node.LengthRight) ∧
    (canon.same motif = true ↔ canon.outline = motif.outline) := by
  obtain ⟨hnodes, hother⟩ := canon_built.nodes_right
  exact ⟨canon_built, motif_built, hnodes, (hother motif motif_built).2⟩

end Arrangement

end ScoreSequencer
