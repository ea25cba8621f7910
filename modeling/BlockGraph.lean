import BlockGraph.Main
import BlockGraph.Proofs.Expr.Capture
import BlockGraph.Proofs.Expr.Unambiguous
import BlockGraph.Proofs.Graph.Walk
import BlockGraph.Proofs.Registry.NameSearch
import BlockGraph.Proofs.Ty.Parsing
import BlockGraph.Proofs.Unification.Instances
import BlockGraph.Proofs.Unification.Obstruction
import BlockGraph.Proofs.Unification.Symmetry
import BlockGraph.Proofs.Unification.Tables
import BlockGraph.Proofs.Workspace.BoundNames
import BlockGraph.Proofs.Workspace.Cycles
import BlockGraph.Proofs.Workspace.Deletion
import BlockGraph.Proofs.Workspace.Matching
import BlockGraph.Proofs.Workspace.Redefinition
import BlockGraph.Proofs.Workspace.Separation
import BlockGraph.Proofs.Workspace.Waiting
