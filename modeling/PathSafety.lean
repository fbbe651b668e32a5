import PathSafety.Analysis.Basic
import PathSafety.Check.Stated
import PathSafety.Hooks.Dispatch
import PathSafety.Hooks.Plain
import PathSafety.Machine.Session
import PathSafety.Main
import PathSafety.Path.Probe
import PathSafety.Proofs.Analysis.Alarm
import PathSafety.Proofs.Analysis.Basic
import PathSafety.Proofs.Analysis.Bounds
import PathSafety.Proofs.Analysis.DeadEnds
import PathSafety.Proofs.Analysis.Evaluate
import PathSafety.Proofs.Analysis.Exact
import PathSafety.Proofs.Analysis.Made
import PathSafety.Proofs.Analysis.Offsets
import PathSafety.Proofs.Analysis.Reported
import PathSafety.Proofs.Analysis.Safe
import PathSafety.Proofs.Analysis.Subobjects
import PathSafety.Proofs.Analysis.Values
import PathSafety.Proofs.Analysis.Visits
import PathSafety.Proofs.Analysis.Watching
import PathSafety.Proofs.Concrete.Entry
import PathSafety.Proofs.Concrete.Evaluate
import PathSafety.Proofs.Concrete.Input
import PathSafety.Proofs.Concrete.Operand
import PathSafety.Proofs.Concrete.Run
import PathSafety.Proofs.Concrete.Word
import PathSafety.Proofs.Hooks.BuiltIn
import PathSafety.Proofs.Hooks.History
import PathSafety.Proofs.Hooks.LocalEntity
import PathSafety.Proofs.Hooks.Payload
import PathSafety.Proofs.Hooks.Routing
import PathSafety.Proofs.Hooks.Tail
import PathSafety.Proofs.IR.Agreement
import PathSafety.Proofs.IR.Availability
import PathSafety.Proofs.IR.Bits
import PathSafety.Proofs.IR.ConstantAddress
import PathSafety.Proofs.IR.ConstantCast
import PathSafety.Proofs.IR.Conversion
import PathSafety.Proofs.IR.Dominance
import PathSafety.Proofs.IR.ExpressionText
import PathSafety.Proofs.IR.Fits
import PathSafety.Proofs.IR.Initializers
import PathSafety.Proofs.IR.Operands
import PathSafety.Proofs.IR.Parts
import PathSafety.Proofs.IR.Project
import PathSafety.Proofs.IR.References
import PathSafety.Proofs.IR.Subobjects
import PathSafety.Proofs.IR.TypeText
import PathSafety.Proofs.Machine.Access
import PathSafety.Proofs.Machine.Address
import PathSafety.Proofs.Machine.Allocation
import PathSafety.Proofs.Machine.Block
import PathSafety.Proofs.Machine.BlockBytes
import PathSafety.Proofs.Machine.Bytes
import PathSafety.Proofs.Machine.Composes
import PathSafety.Proofs.Machine.Computes
import PathSafety.Proofs.Machine.Contents
import PathSafety.Proofs.Machine.Defects
import PathSafety.Proofs.Machine.Effect
import PathSafety.Proofs.Machine.Evaluate
import PathSafety.Proofs.Machine.Faults
import PathSafety.Proofs.Machine.Inputs
import PathSafety.Proofs.Machine.Instruction
import PathSafety.Proofs.Machine.Keeps
import PathSafety.Proofs.Machine.Known
import PathSafety.Proofs.Machine.Loading
import PathSafety.Proofs.Machine.Local
import PathSafety.Proofs.Machine.Meets
import PathSafety.Proofs.Machine.Offset
import PathSafety.Proofs.Machine.Prepares
import PathSafety.Proofs.Machine.Separation
import PathSafety.Proofs.Machine.Sound
import PathSafety.Proofs.Machine.Storage
import PathSafety.Proofs.Machine.Watch
import PathSafety.Proofs.Name.Canonical
import PathSafety.Proofs.Name.Closing
import PathSafety.Proofs.Name.Cuts
import PathSafety.Proofs.Name.Descriptor
import PathSafety.Proofs.Name.Erasure
import PathSafety.Proofs.Name.Flags
import PathSafety.Proofs.Name.Heading
import PathSafety.Proofs.Name.Instantiation
import PathSafety.Proofs.Name.Nested
import PathSafety.Proofs.Name.Operators
import PathSafety.Proofs.Name.Parts
import PathSafety.Proofs.Name.Positions
import PathSafety.Proofs.Name.Printed
import PathSafety.Proofs.Name.Resolution
import PathSafety.Proofs.Name.Tags
import PathSafety.Proofs.Name.Tokens
import PathSafety.Proofs.Path.Accesses
import PathSafety.Proofs.Path.Allocation
import PathSafety.Proofs.Path.Bits
import PathSafety.Proofs.Path.Branch
import PathSafety.Proofs.Path.Call
import PathSafety.Proofs.Path.CallStack
import PathSafety.Proofs.Path.Calls
import PathSafety.Proofs.Path.Composition
import PathSafety.Proofs.Path.ConstantAddress
import PathSafety.Proofs.Path.ConstantCast
import PathSafety.Proofs.Path.Constants
import PathSafety.Proofs.Path.Control
import PathSafety.Proofs.Path.Copies
import PathSafety.Proofs.Path.DeadEnds
import PathSafety.Proofs.Path.Defects
import PathSafety.Proofs.Path.Distance
import PathSafety.Proofs.Path.Divisors
import PathSafety.Proofs.Path.Evaluate
import PathSafety.Proofs.Path.Exploration
import PathSafety.Proofs.Path.Frame
import PathSafety.Proofs.Path.Globals
import PathSafety.Proofs.Path.Initializers
import PathSafety.Proofs.Path.Layout
import PathSafety.Proofs.Path.Materialization
import PathSafety.Proofs.Path.Move
import PathSafety.Proofs.Path.Narrowing
import PathSafety.Proofs.Path.Phis
import PathSafety.Proofs.Path.Run
import PathSafety.Proofs.Path.Search
import PathSafety.Proofs.Path.Simulation
import PathSafety.Proofs.Path.Start
import PathSafety.Proofs.Path.State
import PathSafety.Proofs.Path.Termination
import PathSafety.Proofs.Path.Values
import PathSafety.Proofs.Solver.Exact
import PathSafety.Proofs.Solver.Extremes
import PathSafety.Proofs.Solver.Queries
import PathSafety.Proofs.Term.Meaning
import PathSafety.Proofs.Text.Numerals
import PathSafety.Proofs.Text.Scan
import PathSafety.Report.Decode
