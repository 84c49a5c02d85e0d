import ScoreSequencer.Main
import ScoreSequencer.Rehearsal
import ScoreSequencer.Proofs.Ratio.Checked
import ScoreSequencer.Proofs.Ratio.Euclid
import ScoreSequencer.Proofs.Ratio.LowestTerms
import ScoreSequencer.Proofs.Ratio.Exact
import ScoreSequencer.Proofs.Ratio.Refusal
import ScoreSequencer.Proofs.Ratio.Products
import ScoreSequencer.Proofs.Score.Extent
import ScoreSequencer.Proofs.Score.Walk
import ScoreSequencer.Proofs.Sequence.DispatchOrder
import ScoreSequencer.Proofs.Binary64.Monotone
import ScoreSequencer.Proofs.Sequence.Compilation
import ScoreSequencer.Proofs.Sequence.Instants
import ScoreSequencer.Proofs.Sequence.Balance
import ScoreSequencer.Proofs.Sequence.Alternation
import ScoreSequencer.Proofs.Playback.Silence
import ScoreSequencer.Proofs.Playback.Turns
import ScoreSequencer.Proofs.Score.Slot
import ScoreSequencer.Proofs.Sequence.Bounds
import ScoreSequencer.Proofs.Score.Context
import ScoreSequencer.Proofs.Sequence.PartOrder
import ScoreSequencer.Proofs.Score.Music
import ScoreSequencer.Proofs.Sequence.Regrouping
import ScoreSequencer.Proofs.Ratio.Runs
import ScoreSequencer.Proofs.Score.Lengths
import ScoreSequencer.Proofs.Score.Checks
import ScoreSequencer.Proofs.Sequence.Outcome
import ScoreSequencer.Proofs.Sequence.Mix
import ScoreSequencer.Proofs.Sequence.Tracks
import ScoreSequencer.Proofs.Sequence.Repitching
import ScoreSequencer.Proofs.Binary64.Sums
import ScoreSequencer.Proofs.Playback.Waiting
import ScoreSequencer.Proofs.Playback.Timeline
import ScoreSequencer.Proofs.Playback.Trace
import ScoreSequencer.Proofs.Playback.Punctuality
import ScoreSequencer.Proofs.Midi.Stream
import ScoreSequencer.Proofs.Ratio.Comparison
import ScoreSequencer.Proofs.Score.EqualLengths
import ScoreSequencer.Proofs.Score.Totals
import ScoreSequencer.Proofs.Playback.Termination
import ScoreSequencer.Proofs.Playback.Lateness
import ScoreSequencer.Proofs.Playback.Replay
import ScoreSequencer.Proofs.Pitch.Decomposition
import ScoreSequencer.Proofs.Pitch.Transposition
import ScoreSequencer.Proofs.Pitch.Names
import ScoreSequencer.Proofs.Ratio.NoteLengths
import ScoreSequencer.Proofs.Binary64.Overflow
import ScoreSequencer.Proofs.Sequence.Finite
import ScoreSequencer.Proofs.Ratio.Divisors
import ScoreSequencer.Proofs.Binary64.Pattern
import ScoreSequencer.Proofs.Sequence.Preorder
import ScoreSequencer.Proofs.Settings.Fields
import ScoreSequencer.Proofs.Settings.Delay
