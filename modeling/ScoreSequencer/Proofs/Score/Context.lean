import Mathlib
import ScoreSequencer.Proofs.Score.Extent
/-!
# Scores with a hole

A `Frame` is one composite with a hole among its parts, and a context is a list of
frames around one hole, the innermost first. Building a composite reads no more
of its parts than their lengths, so arrangements of the same length fill a context
with the same success and the same lengths (`fill_length`).
-/

namespace ScoreSequencer

/-- A composite with a hole, after some parts and before others. -/
inductive Frame where
  | harmony (before after : List Arrangement)
  | melody (before after : List Arrangement)

namespace Frame

def composite : Frame → Arrangement → NoteLength → Arrangement
  | harmony before after, node, length => .harmony (before ++ node :: after) length
  | melody before after, node, length => .melody (before ++ node :: after) length

/-- The length that is stored when the composite is built. -/
def buildLength : Frame → Arrangement → Except Fault NoteLength
  | harmony before after, node => Arrangement.longest (before ++ node :: after)
  | melody before after, node => Arrangement.total (before ++ node :: after)

def build : Frame → Arrangement → Except Fault Arrangement
  | harmony before after, node => Arrangement.together (before ++ node :: after)
  | melody before after, node => Arrangement.inTurn (before ++ node :: after)

theorem build_eq (frame : Frame) (node : Arrangement) :
    frame.build node = do return frame.composite node (← frame.buildLength node) := by
  cases frame <;> rfl

theorem build_eq_ok {frame : Frame} {node root : Arrangement} : frame.build node = .ok root ↔
    ∃ length, frame.buildLength node = .ok length ∧ root = frame.composite node length := by
  simp only [build_eq, step_ok, return_ok, @eq_comm _ root]

@[simp] theorem length_composite (frame : Frame) (node : Arrangement) (length : NoteLength) :
    (frame.composite node length).length = length := by
  cases frame <;> rfl

end Frame

namespace Arrangement

theorem longest_congr {parts parts' : List Arrangement} (h : parts.map length = parts'.map length) :
    longest parts = longest parts' := by
  have hlengths : ∀ ps : List Arrangement, longest ps = (ps.map length).foldlM NoteLength.max .zero :=
    fun ps => (List.foldlM_map).symm
  rw [hlengths, hlengths, h]

theorem total_congr {parts parts' : List Arrangement} (h : parts.map length = parts'.map length) :
    total parts = total parts' := by
  have hlengths : ∀ ps : List Arrangement, total ps = (ps.map length).foldlM NoteLength.add .zero :=
    fun ps => (List.foldlM_map).symm
  rw [hlengths, hlengths, h]

/-- The arrangement built by filling the hole of a context. -/
def fill : List Frame → Arrangement → Except Fault Arrangement
  | [], node => return node
  | frame :: context, node => do fill context (← frame.build node)

variable {x y : Arrangement}

theorem buildLength_congr (h : x.length = y.length) (frame : Frame) : frame.buildLength x = frame.buildLength y := by
  cases frame with
  | harmony before after => exact longest_congr (by simp [h])
  | melody before after => exact total_congr (by simp [h])

/-- The enclosing nodes are refused alike, and those that are built are equally long. -/
theorem fill_length (h : x.length = y.length) (context : List Frame) :
    (fill context x).map length = (fill context y).map length := by
  induction context generalizing x y with
  | nil => exact congrArg Except.ok h
  | cons frame context ih =>
    rw [fill, fill, Frame.build_eq, Frame.build_eq, buildLength_congr h]
    cases frame.buildLength y with
    | error fault => rfl
    | ok length =>
      have hcomposites : (frame.composite x length).length = (frame.composite y length).length := by simp
      exact ih hcomposites

end Arrangement

end ScoreSequencer
