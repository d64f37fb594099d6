import ClassTree.Code.Emitter
import ClassTree.Compilation
import ClassTree.Machine
import ClassTree.Proofs.Outcome
import ClassTree.Proofs.Verify.Depths
import ClassTree.Proofs.Verify.Accepted
import ClassTree.Proofs.Loader.Verified
import ClassTree.Proofs.Machine.Safe
import ClassTree.Proofs.Machine.VerifiedStep
import ClassTree.Proofs.Machine.VerifiedRun
import ClassTree.Proofs.ClassFile.RoundTrip
import ClassTree.Proofs.ClassFile.Canonical
import ClassTree.Proofs.Pool
import ClassTree.Proofs.Code.Placed
import ClassTree.Proofs.Compile.Makes
import ClassTree.Proofs.Compile.Assembled
import ClassTree.Proofs.Scope
import ClassTree.Proofs.Typing.Fold
import ClassTree.Proofs.Typing.Checked
import ClassTree.Proofs.Machine.Steps
import ClassTree.Proofs.Scalar.Semantics
import ClassTree.Proofs.Scalar.Folding
import ClassTree.Proofs.Scalar.Simulation
import ClassTree.Proofs.Scalar.Expressions
import ClassTree.Proofs.Scalar.Statements
import ClassTree.Proofs.Typing.Findings
import ClassTree.Proofs.Compilation
import ClassTree.Proofs.Descriptor
import ClassTree.Proofs.Descriptor.Faithful
import ClassTree.Proofs.Code.Decoded
import ClassTree.Proofs.Loader.Generated
import ClassTree.Proofs.Scalar.Methods
import ClassTree.Proofs.Resolution
import ClassTree.Proofs.Code.Flow
import ClassTree.Proofs.Verify.Items
import ClassTree.Proofs.Typing.Chosen
import ClassTree.Proofs.Compile.Typed
import ClassTree.Proofs.Loader.Namespace
import ClassTree.Proofs.Machine.Links
import ClassTree.Proofs.Compile.Collects
import ClassTree.Proofs.Double
import ClassTree.Proofs.Machine.Fuel
import ClassTree.Proofs.CallFree.Semantics
import ClassTree.Proofs.CallFree.Simulation
import ClassTree.Proofs.CallFree.Code
import ClassTree.Proofs.CallFree.Values
import ClassTree.Proofs.CallFree.Agreement
import ClassTree.Proofs.CallFree.Lowering
import ClassTree.Proofs.CallFree.Methods
import ClassTree.Proofs.CallFree.Bindings
import ClassTree.Proofs.Loader.Order
import ClassTree.Proofs.Loader.Batch
import ClassTree.Proofs.Machine.Trace
import ClassTree.Proofs.Machine.TypedHeap
import ClassTree.Proofs.Machine.Moments
import ClassTree.Proofs.Compilation.Linked
import ClassTree.Proofs.Registry.Chain
import ClassTree.Proofs.Resolution.Dispatch
import ClassTree.Proofs.Resolution.Order
import ClassTree.Proofs.Compile.Limits
import ClassTree.Proofs.Scope.Extended
import ClassTree.Proofs.Scope.Slots
import ClassTree.Proofs.Typing.Extended
import ClassTree.Proofs.Typing.Renamed
import ClassTree.Proofs.Compile.Checked
import ClassTree.Proofs.Resolution.Entered
import ClassTree.Proofs.Resolution.Generated
import ClassTree.Proofs.Resolution.Renamed
import ClassTree.Proofs.Compile.Folded
import ClassTree.Proofs.Compile.Renamed
import ClassTree.Proofs.Compile.Optimized
import ClassTree.Proofs.Compilation.Optimized
import ClassTree.Proofs.Compile.Small
import ClassTree.Proofs.Verify.Reachable
import ClassTree.Proofs.Compilation.Results
import ClassTree.Proofs.Compilation.Siblings
import ClassTree.Proofs.Resolution.Orderly
import ClassTree.Proofs.Compile.Uses
import ClassTree.Proofs.CallFree.Folding
import ClassTree.Proofs.Pool.Literals
import ClassTree.Proofs.Machine.Overloads
import ClassTree.Proofs.Loader.Layout
import ClassTree.Proofs.Name
import ClassTree.Proofs.Registry.Distance
import ClassTree.Proofs.Registry.Assignable
import ClassTree.Proofs.Registry.Overload
import ClassTree.Proofs.Registry.Cycles
import ClassTree.Proofs.Resolution.Cycles
import ClassTree.Proofs.ClassFile.Delimited
import ClassTree.Proofs.Pool.Integrity
import ClassTree.Proofs.Loader.Defined
import ClassTree.Proofs.Compilation.Additions
import ClassTree.Proofs.Digest
import ClassTree.Proofs.Scope.Blocks
import ClassTree.Proofs.ClassFile.Full
import ClassTree.Proofs.Code.Written
import ClassTree.Proofs.Code.Patched
import ClassTree.Proofs.Compilation.Verified
import ClassTree.Proofs.Compilation.Typed
