import StackScript.Engine
import StackScript.Inspection
import StackScript.Listing
import StackScript.Main
import StackScript.Proofs.Image.Canonical
import StackScript.Proofs.Image.Delimiting
import StackScript.Proofs.Image.Unfolding
import StackScript.Proofs.Safety.Alignment
import StackScript.Proofs.Safety.Discipline
import StackScript.Proofs.Safety.RangeLoops
import StackScript.Proofs.Semantics.Stripping
import StackScript.Proofs.Lowering.Output
import StackScript.Proofs.Engine.History
import StackScript.Proofs.Engine.Saving
import StackScript.Proofs.Lowering.Reporting
import StackScript.Proofs.Lowering.Deduplication
import StackScript.Proofs.Lowering.ScopeOrder
import StackScript.Proofs.Machine.Arithmetic
import StackScript.Proofs.Machine.Callees
import StackScript.Proofs.Machine.Fetching
import StackScript.Proofs.Machine.Slots
