import Mathlib
import ScoreSequencer.Proofs.Score.Checks
import ScoreSequencer.Proofs.Sequence.Compilation
/-!
# Whether a score compiles

Only the walk can refuse a score, and it looks at nothing but the score: start, timing
and voice decide when and how events sound, never whether there are any. A refusal
names the first check that fails in the order of the walk.
-/

namespace ScoreSequencer.Sequence

open Check (firstFault)

variable {root : Arrangement}

theorem faultOf?_compile (built : root.Built) (start : Instant) (timing : Timing) (voice : Voice) :
    faultOf? (compile root start timing voice) = firstFault (root.checks 0) := by
  calc faultOf? (compile root start timing voice) = faultOf? (root.place .zero) := faultOf?_bind_return _
    _ = firstFault (root.checks NoteLength.zero.value) := built.place_fault NoteLength.zero_valid
    _ = firstFault (root.checks 0) := by rw [NoteLength.zero_value]

/-- The outcome does not depend on start, timing and voice. Compiling fails just when
some check of the score fails, and the fault is that of the first one. -/
theorem compile_first_fault (built : root.Built) (start : Instant) (timing : Timing) (voice : Voice) :
    (∀ start' timing' voice',
      faultOf? (compile root start' timing' voice') = faultOf? (compile root start timing voice)) ∧
    ((∃ fault, compile root start timing voice = .error fault) ↔ ∃ check ∈ root.checks 0, check.fault? ≠ none) ∧
    ∀ fault, compile root start timing voice = .error fault ↔
      ∃ before check after, root.checks 0 = before ++ check :: after ∧ check.fault? = some fault ∧
        ∀ earlier ∈ before, earlier.fault? = none := by
  have houtcome := faultOf?_compile built
  refine ⟨fun start' timing' voice' => ?_, ?_, fun fault => ?_⟩
  · rw [houtcome, houtcome]
  · simp only [← faultOf?_eq_some, houtcome]
    rw [← Option.ne_none_iff_exists', firstFault, ne_eq, List.findSome?_eq_none_iff]
    push Not
    rfl
  · rw [← faultOf?_eq_some, houtcome]
    exact List.findSome?_eq_some_iff

/-- A short rest and a note on G#9, which together last a whole note. -/
def beyond : Arrangement := .melody [.rest ⟨⟨1, 46351⟩⟩, .note ⟨128, by decide⟩ ⟨⟨46350, 46351⟩⟩] .whole

/-- The same after a short rest. It can be built, since the inner melody is counted as
a whole, but no 32 bits hold the position between the two inner parts. -/
def uneven : Arrangement := .melody [.rest ⟨⟨1, 46349⟩⟩, beyond] ⟨⟨46350, 46349⟩⟩

theorem uneven_built : uneven.Built := by
  have hbeyond : beyond.Built := by
    refine .inTurn ?_ (Arrangement.inTurn_eq_ok.2 ⟨_, by decide +kernel, rfl⟩)
    exact List.forall_mem_cons.2 ⟨.rest (by decide), List.forall_mem_singleton.2 (.note _ (by decide))⟩
  refine .inTurn ?_ (Arrangement.inTurn_eq_ok.2 ⟨_, by decide +kernel, rfl⟩)
  exact List.forall_mem_cons.2 ⟨.rest (by decide), List.forall_mem_singleton.2 hbeyond⟩

/-- The addition comes before the note without a key. -/
theorem compile_first_fault_uneven : uneven.Built ∧ uneven.noteCount = 1 ∧
    compile uneven ⟨.zero⟩ crotchets default = .error (.overflow .ratioAddition) := by
  obtain ⟨-, -, hfirst⟩ := compile_first_fault uneven_built ⟨.zero⟩ crotchets default
  have hchecks : uneven.checks 0 = [.addition 0 (1 / 46349)] ++ .addition (1 / 46349) (1 / 46351) ::
      [.key ⟨128, by decide⟩, .addition (92700 / 2148322499) (46350 / 46351),
        .addition (92700 / 2148322499) (46350 / 46351), .addition (1 / 46349) 1] := by
    decide +kernel
  refine ⟨uneven_built, rfl, (hfirst _).2 ⟨_, _, _, hchecks, by decide +kernel, by decide +kernel⟩⟩

end ScoreSequencer.Sequence
