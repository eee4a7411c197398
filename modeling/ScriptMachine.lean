import ScriptMachine.CallStack
import ScriptMachine.Console
import ScriptMachine.Decimal.Numeral
import ScriptMachine.Decimal.Shortest
import ScriptMachine.Decimal.Written
import ScriptMachine.Fault
import ScriptMachine.Heap.Basic
import ScriptMachine.Heap.Collect
import ScriptMachine.Heap.Report
import ScriptMachine.Location
import ScriptMachine.Machine.Bootstrap
import ScriptMachine.Machine.Builtin.Function
import ScriptMachine.Machine.Builtin.Number
import ScriptMachine.Machine.Builtin.Object
import ScriptMachine.Machine.Builtin.Procedure
import ScriptMachine.Machine.Builtin.Sequence
import ScriptMachine.Machine.Call
import ScriptMachine.Machine.Duplicate
import ScriptMachine.Machine.Eval
import ScriptMachine.Machine.Host
import ScriptMachine.Machine.Render
import ScriptMachine.Machine.Run
import ScriptMachine.Machine.State
import ScriptMachine.Machine.Step
import ScriptMachine.ModuleTable
import ScriptMachine.Name
import ScriptMachine.Number.Double
import ScriptMachine.Number.Integer
import ScriptMachine.Number.Operator
import ScriptMachine.Scope
import ScriptMachine.Text.Blank
import ScriptMachine.Text.Digest
import ScriptMachine.Text.Hidden
import ScriptMachine.Text.Quoted
import ScriptMachine.Tree.Node
import ScriptMachine.Tree.Operator
import ScriptMachine.Tree.Sketch
import ScriptMachine.Types.Basic
import ScriptMachine.Types.Dispatch
import ScriptMachine.Value
import ScriptMachine.Proofs.Heap.Layout
import ScriptMachine.Proofs.Heap.Marking
import ScriptMachine.Proofs.Heap.Collection
import ScriptMachine.Proofs.Heap.Store
import ScriptMachine.Proofs.Twin.Alike
import ScriptMachine.Proofs.Twin.World
import ScriptMachine.Proofs.Twin.Agreement
import ScriptMachine.Proofs.Twin.Copy
import ScriptMachine.Proofs.Twin.Builtin
import ScriptMachine.Proofs.Twin.Evaluation
import ScriptMachine.Proofs.Twin.Run
import ScriptMachine.Proofs.Twin.Host
import ScriptMachine.Proofs.Safety
import ScriptMachine.Proofs.Transparency
import ScriptMachine.Proofs.Heap.Handles
import ScriptMachine.Proofs.Conduct.Acts
import ScriptMachine.Proofs.Conduct.Builtin
import ScriptMachine.Proofs.Conduct.Evaluation
import ScriptMachine.Proofs.Balance
import ScriptMachine.Proofs.Conduct.Host
import ScriptMachine.Proofs.Bindings
import ScriptMachine.Proofs.Runs
import ScriptMachine.Proofs.Typing
import ScriptMachine.Proofs.Scopes
import ScriptMachine.Proofs.Names
import ScriptMachine.Proofs.TypeTree
import ScriptMachine.Proofs.Conduct.Moves
import ScriptMachine.Proofs.Conduct.Confinement
import ScriptMachine.Proofs.Termination
import ScriptMachine.Proofs.FaultLog
import ScriptMachine.Proofs.Copies.Additions
import ScriptMachine.Proofs.Copies.Isomorphism
import ScriptMachine.Proofs.Copies.Arguments
import ScriptMachine.Proofs.Assignment
import ScriptMachine.Proofs.Completion
import ScriptMachine.Proofs.Rendering
import ScriptMachine.Proofs.Dispatch
import ScriptMachine.Proofs.InstanceLayout
import ScriptMachine.Proofs.TypeDefinition
import ScriptMachine.Proofs.Arithmetic
import ScriptMachine.Proofs.Conduct.Tables
import ScriptMachine.Proofs.BuiltinTables
import ScriptMachine.Proofs.PlainCalls
import ScriptMachine.Proofs.OperatorMethods
import ScriptMachine.Proofs.Equality
import ScriptMachine.Proofs.Hashing
import ScriptMachine.Proofs.NumericConstructor
import ScriptMachine.Proofs.Heap.RootOrder
import ScriptMachine.Proofs.TypeSizes
import ScriptMachine.Proofs.Receiver
import ScriptMachine.Proofs.TextSizes
import ScriptMachine.Proofs.Rebinding
import ScriptMachine.Proofs.MinusOnePowers
