import CubeAxis.Main
import CubeAxis.Proofs.Builder
import CubeAxis.Proofs.Identity
import CubeAxis.Proofs.Paths
import CubeAxis.Proofs.Drill.Context
import CubeAxis.Proofs.Resolution.Concealed
import CubeAxis.Proofs.Session.Ambiguity
import CubeAxis.Proofs.Session.RoundTrip
import CubeAxis.Proofs.Selection.Normal
import CubeAxis.Proofs.Selection.Omission
import CubeAxis.Proofs.Drill.Record
import CubeAxis.Proofs.Drill.Positions
import CubeAxis.Proofs.Drill.Visit
import CubeAxis.Proofs.Expr.Containment
import CubeAxis.Proofs.Selection.Sound
import CubeAxis.Proofs.Selection.Placement
import CubeAxis.Proofs.Selection.Scope
import CubeAxis.Proofs.Selection.Linked.Cleared
import CubeAxis.Proofs.Selection.Queries
import CubeAxis.Proofs.Selection.Independence
import CubeAxis.Proofs.Selection.Absorption
import CubeAxis.Proofs.Drill.Shown
import CubeAxis.Proofs.Drill.Traversal
import CubeAxis.Proofs.Expr.UnionCalls
import CubeAxis.Proofs.Expr.CrossJoin
import CubeAxis.Proofs.Expr.Distance
import CubeAxis.Proofs.Resolution.Accounting
import CubeAxis.Proofs.Resolution.Partition
import CubeAxis.Proofs.Resolution.Expanded.Calls
import CubeAxis.Proofs.Expr.AxisCalls
