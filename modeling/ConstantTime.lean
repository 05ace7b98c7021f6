import ConstantTime.Diagnostic.Reporter
import ConstantTime.Graph.Builder
import ConstantTime.Dominance.Bounded
import ConstantTime.Dominance.ConstantLoop
import ConstantTime.Dominance.Verify
import ConstantTime.Predicate.Basic
import ConstantTime.Access.Decision
import ConstantTime.Schedule.Greedy
import ConstantTime.Run.Module
import ConstantTime.Json.Reader
import ConstantTime.Digest.Blake2b
import ConstantTime.Grid.Basic
import ConstantTime.Report.Encoding
import ConstantTime.Report.Table
import ConstantTime.Document.Config
import ConstantTime.Toml.Intake
import ConstantTime.Yaml.Intake
import ConstantTime.Source.Config
import ConstantTime.Source.Module
import ConstantTime.Proofs.Access.Checking
import ConstantTime.Proofs.Access.Constancy
import ConstantTime.Proofs.Access.Worst
import ConstantTime.Proofs.Dominance.PathCheck
import ConstantTime.Proofs.Dominance.Soundness
import ConstantTime.Proofs.Graph.Forest
import ConstantTime.Proofs.Graph.Reducible
import ConstantTime.Proofs.Predicate.Roots
import ConstantTime.Proofs.Run.Skipped
import ConstantTime.Proofs.Schedule.Dependence
import ConstantTime.Proofs.Schedule.Meaning
import ConstantTime.Proofs.Dominance.InsideOut
import ConstantTime.Proofs.Dominance.Containment
import ConstantTime.Proofs.Run.Interleaving
import ConstantTime.Proofs.Dominance.Shrinking
import ConstantTime.Proofs.Dominance.Worklist
import ConstantTime.Proofs.Postdominance.Waiting
import ConstantTime.Proofs.Access.Convergence
import ConstantTime.Proofs.Access.Treatment
import ConstantTime.Proofs.Limits
import ConstantTime.Proofs.Dominance.Exitless
import ConstantTime.Proofs.Run.SoftFailure
import ConstantTime.Proofs.Postdominance.Exactness
import ConstantTime.Proofs.Predicate.Oracle
import ConstantTime.Proofs.Run.Accounting
import ConstantTime.Proofs.Run.Reporting
import ConstantTime.Proofs.Schedule.Legality
import ConstantTime.Proofs.Schedule.Windows
import ConstantTime.Proofs.Access.PathSums
import ConstantTime.Proofs.Dominance.Ends
import ConstantTime.Proofs.Dominance.Greatest
import ConstantTime.Proofs.Dominance.RegionPaths
import ConstantTime.Proofs.Dominance.Verified
import ConstantTime.Proofs.Dominance.Agreement
import ConstantTime.Proofs.Graph.Sharing
