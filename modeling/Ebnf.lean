import Ebnf.Analysis.Follow
import Ebnf.Analysis.Problems
import Ebnf.Analysis.SharedLeads
import Ebnf.CommandLine.Execution
import Ebnf.Derivation
import Ebnf.Document.Json
import Ebnf.Inspection
import Ebnf.Language.Derives
import Ebnf.Language.NormalForm
import Ebnf.Language.Strategy
import Ebnf.Main
import Ebnf.Pass.Orders
import Ebnf.Pass.Program
import Ebnf.Sentence.Edit
import Ebnf.Proofs.Language.Preservation
import Ebnf.Proofs.Language.Strategy
import Ebnf.Proofs.Pass.NormalForm
import Ebnf.Proofs.Pass.Rereading
import Ebnf.Proofs.Pass.Priority
import Ebnf.Proofs.Pass.Failures
import Ebnf.Proofs.Pass.Convergence
import Ebnf.Proofs.Pass.HiddenRecursion
import Ebnf.Proofs.Pass.Minting
import Ebnf.Proofs.Pass.AuditTrail
import Ebnf.Proofs.Pass.Idempotence
import Ebnf.Proofs.CommandLine.Execution
import Ebnf.Proofs.Analysis.Follow
import Ebnf.Proofs.Pass.Rejection
import Ebnf.Proofs.Pass.RemainingCycles
import Ebnf.Proofs.Pass.Expansion
import Ebnf.Proofs.Pass.Factoring
import Ebnf.Proofs.Pass.ReachableFollow
import Ebnf.Proofs.Pass.RemainingUnits
import Ebnf.Proofs.Pass.UnitChains
import Ebnf.Proofs.Pass.DirectRounds
import Ebnf.Proofs.Analysis.Conflicts
import Ebnf.Proofs.Analysis.DerivableWords
import Ebnf.Proofs.Pass.NearestFirst
import Ebnf.Proofs.Pass.LeadingSteps
import Ebnf.Proofs.Sentence.Revisions
