import BuildingCode.Expression.Meaning
import BuildingCode.Formula.Generated
import BuildingCode.Main
import BuildingCode.Service.Session
import BuildingCode.Proofs.Machine.Safety
import BuildingCode.Proofs.Machine.References
import BuildingCode.Proofs.Expression.Completeness
import BuildingCode.Proofs.Expression.Limits
import BuildingCode.Proofs.Expression.Progress
import BuildingCode.Proofs.Expression.Parsing
import BuildingCode.Proofs.Formula.Safety
import BuildingCode.Proofs.Formula.Meaning
import BuildingCode.Proofs.Formula.Authoring
import BuildingCode.Proofs.Clause.Chain
import BuildingCode.Proofs.Clause.Loop
import BuildingCode.Proofs.Clause.Assembly
import BuildingCode.Proofs.Clause.Placement
import BuildingCode.Proofs.Clause.Rebuild
import BuildingCode.Proofs.Clause.Reordering
import BuildingCode.Proofs.Store.Settled
import BuildingCode.Proofs.Service.History
import BuildingCode.Proofs.Service.Serving
import BuildingCode.Proofs.Service.Prediction
import BuildingCode.Proofs.Service.Builtins
import BuildingCode.Store.Interleaving
import BuildingCode.Proofs.Store.Invalidation
import BuildingCode.Proofs.Json.Reading
import BuildingCode.Proofs.Service.Bodies
import BuildingCode.Proofs.Service.Seeding
import BuildingCode.Proofs.Service.Recovery
import BuildingCode.Proofs.Service.Isolation
import BuildingCode.Proofs.Service.Results
import BuildingCode.Proofs.CommandLine.Modes
import BuildingCode.Proofs.Machine.Metering
import BuildingCode.Proofs.Expression.Renaming
import BuildingCode.Proofs.Machine.Slots
import BuildingCode.Proofs.Expression.Nesting
import BuildingCode.Proofs.Formula.Rearrangement
import BuildingCode.Proofs.Service.Rearrangement
import BuildingCode.Proofs.Clause.Faults
import BuildingCode.Proofs.Clause.Subtree
import BuildingCode.Proofs.Clause.Wire
import BuildingCode.Proofs.Clause.Ancestry
import BuildingCode.Proofs.Service.Writes
import BuildingCode.Proofs.Service.Positions
import BuildingCode.Proofs.Expression.Spelling
import BuildingCode.Proofs.Formula.Declarations
import BuildingCode.Proofs.Store.Generated
import BuildingCode.Proofs.Expression.LongestLiteral
import BuildingCode.Proofs.Formula.Entries
import BuildingCode.Proofs.Clause.Siblings
import BuildingCode.Proofs.Display.Trace
import BuildingCode.Proofs.Machine.Finiteness
import BuildingCode.Proofs.Clause.Traversal
import BuildingCode.Proofs.Machine.Tightness
import BuildingCode.Proofs.Display.Rounding
