import AxiomCore.Library.Checked
import AxiomCore.Library.Keyed
import AxiomCore.Library.Refined
import AxiomCore.Library.Construction
import AxiomCore.Whittle
import AxiomCore.Domain
import AxiomCore.Ty
import AxiomCore.Schema
import AxiomCore.Expression
import AxiomCore.Infer
import AxiomCore.Conformance
import AxiomCore.Source
import AxiomCore.Predicate
import AxiomCore.Operands
import AxiomCore.Op
import AxiomCore.Constructors
import AxiomCore.Calls
import AxiomCore.Headers
import AxiomCore.Blame
import AxiomCore.References
import AxiomCore.Comparisons
import AxiomCore.Extrema
import AxiomCore.FaultPaths
import AxiomCore.Leaves
import AxiomCore.Pushdown
import AxiomCore.Pruning
import AxiomCore.Reaggregation
import AxiomCore.RowLayout
import AxiomCore.Padding
import AxiomCore.FreeNames
import AxiomCore.Constraints
import AxiomCore.InLists
import AxiomCore.Outcome
import AxiomCore.JoinForms
import AxiomCore.NaturalJoin
import AxiomCore.Relabelling
import AxiomCore.Desugaring
import AxiomCore.Nesting
import AxiomCore.Lens
import AxiomCore.SchemaErrors
import AxiomCore.Replay
import AxiomCore.Replacement
import AxiomCore.Library.Safe
import AxiomCore.Evaluation
import AxiomCore.Execution
import AxiomCore.Shapes
import AxiomCore.Faults
import AxiomCore.Inlining
import AxiomCore.JoinOrder
import AxiomCore.JoinRows
import AxiomCore.Scope
import AxiomCore.ComputedOrder
import AxiomCore.Boundaries
import AxiomCore.Paths
import AxiomCore.Lineage
import AxiomCore.PushdownRows
import AxiomCore.PruningRows
import AxiomCore.Library.Transport
import AxiomCore.Respelling
import AxiomCore.Atoms
import AxiomCore.Evolution
