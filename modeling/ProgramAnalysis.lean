import ProgramAnalysis.Proofs.AbandonedExpansions
import ProgramAnalysis.Proofs.AdjustedTuples
import ProgramAnalysis.Proofs.CancellationFlow
import ProgramAnalysis.Proofs.ConfigurationText
import ProgramAnalysis.Proofs.ConsistentChanges
import ProgramAnalysis.Proofs.FailedRefinement
import ProgramAnalysis.Proofs.FiniteHeight
import ProgramAnalysis.Proofs.GraphTraversals
import ProgramAnalysis.Proofs.IndexedWaitlists
import ProgramAnalysis.Proofs.IssuedStates
import ProgramAnalysis.Proofs.JoinedCoverage
import ProgramAnalysis.Proofs.KeptApart
import ProgramAnalysis.Proofs.MemoHistories
import ProgramAnalysis.Proofs.OneStatePerPlace
import ProgramAnalysis.Proofs.Refinement
import ProgramAnalysis.Proofs.Resolution
import ProgramAnalysis.Proofs.Resumption
import ProgramAnalysis.Proofs.ReversePostorder
import ProgramAnalysis.Proofs.RootPaths
import ProgramAnalysis.Proofs.ShortPaths
import ProgramAnalysis.Proofs.Strengthening
import ProgramAnalysis.Proofs.Survival
import ProgramAnalysis.Proofs.TransparentMonitor
import ProgramAnalysis.Proofs.TupleMerges
import ProgramAnalysis.Session.Explore
import ProgramAnalysis.Session.Inspect
import ProgramAnalysis.Session.Launch
