import DelayTuning.Circuit.Stage
import DelayTuning.Clustering.Report
import DelayTuning.Command.FileTree
import DelayTuning.Json.Configuration
import DelayTuning.Json.Parser
import DelayTuning.Json.Printer
import DelayTuning.Json.Result
import DelayTuning.Json.Space
import DelayTuning.Main
import DelayTuning.Optimizer.Basic
import DelayTuning.Run.Summary
import DelayTuning.Space.Delay
import DelayTuning.Proofs.Double
import DelayTuning.Proofs.Optimizer.Pool
import DelayTuning.Surrogate.GaussianProcess
import DelayTuning.Proofs.Optimizer.Selection
import DelayTuning.Proofs.Optimizer.Step
import DelayTuning.Proofs.Optimizer.History
import DelayTuning.Proofs.Optimizer.Batch
import DelayTuning.Proofs.Optimizer.Refusal
import DelayTuning.Proofs.Optimizer.Fitting
import DelayTuning.Proofs.Run.Recorded
import DelayTuning.Proofs.Run.Accounting
import DelayTuning.Proofs.Optimizer.InitialDesign
import DelayTuning.Proofs.Run.Baseline
import DelayTuning.Proofs.Log.BestLine
import DelayTuning.Proofs.Log.Merge
import DelayTuning.Proofs.Binary64.NotANumber
import DelayTuning.Proofs.Space.Clamp
import DelayTuning.Proofs.Optimizer.Reached
import DelayTuning.Proofs.Optimizer.LocalSearch
import DelayTuning.Proofs.Run.Abort
import DelayTuning.Proofs.Run.Masking
import DelayTuning.Proofs.Optimizer.Answered
import DelayTuning.Proofs.Run.Verdict
import DelayTuning.Proofs.Ledger.Minimum
import DelayTuning.Proofs.Run.Best
import DelayTuning.Proofs.Clustering.Partition
import DelayTuning.Proofs.Log.Assembly
import DelayTuning.Proofs.Optimizer.Refitting
import DelayTuning.Proofs.Log.Diagnostics
import DelayTuning.Proofs.Clustering.Report
import DelayTuning.Proofs.Run.Interleaving
import DelayTuning.Proofs.Clustering.Settling
import DelayTuning.Proofs.Space.Construction
import DelayTuning.Proofs.Clustering.Returned
import DelayTuning.Proofs.Log.Acceptance
import DelayTuning.Proofs.Log.Encoding
import DelayTuning.Proofs.Optimizer.Recording
import DelayTuning.Proofs.Run.Composition
import DelayTuning.Proofs.Optimizer.Ranking
import DelayTuning.Proofs.Space.Exact
import DelayTuning.Proofs.Clustering.Box
import DelayTuning.Proofs.Space.Stratification
import DelayTuning.Proofs.Vector
import DelayTuning.Proofs.Surrogate.Factor
import DelayTuning.Proofs.Surrogate.Kernel
import DelayTuning.Proofs.Surrogate.Regression
import DelayTuning.Proofs.Surrogate.Definite
import DelayTuning.Proofs.Binary64.Distance
import DelayTuning.Proofs.Clustering.Farthest
import DelayTuning.Proofs.Clustering.FirstCentres
import DelayTuning.Proofs.Clustering.EmptyClusters
import DelayTuning.Proofs.Circuit.Stage
import DelayTuning.Proofs.Binary64.TotalOrder
import DelayTuning.Proofs.Binary64.Count
import DelayTuning.Proofs.Optimizer.Elites
import DelayTuning.Proofs.Optimizer.DrawnPool
import DelayTuning.Proofs.Surrogate.LengthScale
