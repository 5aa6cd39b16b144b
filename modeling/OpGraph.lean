import OpGraph.Graph.Workbench
import OpGraph.Main
import OpGraph.Proofs.Analysis.Paths
import OpGraph.Proofs.Coverage
import OpGraph.Proofs.Isolation
import OpGraph.Proofs.Syntax.Layout
import OpGraph.Proofs.Syntax.RoundTrip
import OpGraph.Proofs.Versions
import OpGraph.Proofs.Meaning
import OpGraph.Proofs.Canonical
import OpGraph.Proofs.Tokens
import OpGraph.Proofs.TupleAssignment
import OpGraph.Proofs.Accepted
import OpGraph.Proofs.Excerpts
import OpGraph.Proofs.Integers
import OpGraph.Proofs.Agreement
import OpGraph.Proofs.ScopeBalance
import OpGraph.Proofs.Resolution
import OpGraph.Proofs.DefaultOpset
import OpGraph.Proofs.TypeVariables
import OpGraph.Proofs.Keywords
import OpGraph.Proofs.Comparison
import OpGraph.Proofs.Constants
import OpGraph.Proofs.Arguments
import OpGraph.Proofs.Domains
import OpGraph.Proofs.FreshNames
import OpGraph.Proofs.OpsetDocuments
import OpGraph.Proofs.Division
import OpGraph.Proofs.Annotations
