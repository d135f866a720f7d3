import BranchPrediction.Main
import BranchPrediction.Predictor.Event
import BranchPrediction.Predictor.Checked
import BranchPrediction.Proofs.Json.Grammar
import BranchPrediction.Proofs.Json.Lexemes
import BranchPrediction.Proofs.Json.Skipping
import BranchPrediction.Proofs.Json.RoundTrip
import BranchPrediction.Proofs.Json.Records
import BranchPrediction.Proofs.Config.Valid
import BranchPrediction.Proofs.Config.Format
import BranchPrediction.Proofs.Config.Overrides
import BranchPrediction.Proofs.Config.Geometric
import BranchPrediction.Proofs.History.ResidueFold
import BranchPrediction.Proofs.History.RangeFold
import BranchPrediction.Proofs.History.Tracking
import BranchPrediction.Proofs.History.Pushes
import BranchPrediction.Proofs.Predictor.Slots
import BranchPrediction.Proofs.Predictor.Step
import BranchPrediction.Proofs.Predictor.WellFormed
import BranchPrediction.Proofs.Predictor.Histories
import BranchPrediction.Proofs.Predictor.CheckedParts
import BranchPrediction.Proofs.Predictor.CheckedRun
import BranchPrediction.Proofs.Predictor.Footprint
import BranchPrediction.Proofs.Predictor.Conservation
import BranchPrediction.Proofs.Predictor.Entries
import BranchPrediction.Proofs.Predictor.Representation
import BranchPrediction.Proofs.Predictor.Mistakes
import BranchPrediction.Proofs.Predictor.NormalForm
import BranchPrediction.Proofs.Predictor.Unconfident
import BranchPrediction.Proofs.Predictor.Lessons
import BranchPrediction.Proofs.Predictor.Candidates
import BranchPrediction.Proofs.Predictor.Draws
import BranchPrediction.Proofs.Predictor.Aging
import BranchPrediction.Proofs.Predictor.Selection
import BranchPrediction.Proofs.Predictor.Chance
import BranchPrediction.Proofs.Predictor.Composition
import BranchPrediction.Proofs.Predictor.Reports
import BranchPrediction.Proofs.Overlay.Training
import BranchPrediction.Proofs.Overlay.Isolation
import BranchPrediction.Proofs.Evaluation.Accounts
import BranchPrediction.Proofs.Evaluation.Branches
import BranchPrediction.Proofs.Evaluation.Trials
import BranchPrediction.Proofs.Evaluation.Windows
import BranchPrediction.Proofs.Evaluation.Ranking
import BranchPrediction.Proofs.Table.Hashes
import BranchPrediction.Proofs.Trace.RoundTrip
