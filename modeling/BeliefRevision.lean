import BeliefRevision.Announcement.Strategy
import BeliefRevision.Formula.Printer
import BeliefRevision.Model.NormalForm
import BeliefRevision.Proofs.Enumeration
import BeliefRevision.Proofs.Query
import BeliefRevision.Proofs.Cancellation
import BeliefRevision.Proofs.Nearness
import BeliefRevision.Proofs.Soundness
import BeliefRevision.Registry
import BeliefRevision.Signal.Board
import BeliefRevision.Proofs.Levels
import BeliefRevision.Proofs.Agreement
import BeliefRevision.Proofs.Canonical
import BeliefRevision.Proofs.Closeness
import BeliefRevision.Proofs.Postulates
import BeliefRevision.Proofs.Projection
import BeliefRevision.Proofs.Exhaustion
import BeliefRevision.Proofs.Repetition
import BeliefRevision.Proofs.Synonyms
import BeliefRevision.Proofs.Fewest
import BeliefRevision.Proofs.Alike
import BeliefRevision.Proofs.AgentOrder
import BeliefRevision.Proofs.Readability
import BeliefRevision.Proofs.Construction
import BeliefRevision.Proofs.Provenance
import BeliefRevision.Proofs.Interruption
import BeliefRevision.Proofs.Expansion
import BeliefRevision.Proofs.CompleteTrust
import BeliefRevision.Proofs.Merging
import BeliefRevision.Proofs.SingleTerm
import BeliefRevision.Proofs.CommonGoal
import BeliefRevision.Proofs.Misfits
import BeliefRevision.Proofs.Representation
import BeliefRevision.Proofs.ReadOnce
import BeliefRevision.Proofs.Regions
import BeliefRevision.Proofs.Restriction
import BeliefRevision.Proofs.MissingValues
import BeliefRevision.Proofs.ExactDegree
import BeliefRevision.Proofs.RoundTrip
import BeliefRevision.Proofs.Memory
import BeliefRevision.Proofs.TruthTable
import BeliefRevision.Proofs.Conflicts
