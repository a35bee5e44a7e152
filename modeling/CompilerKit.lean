import CompilerKit.Aarch64.Address
import CompilerKit.Aarch64.Branch
import CompilerKit.Aarch64.Encoding
import CompilerKit.Aarch64.Instruction
import CompilerKit.Aarch64.LogicalImmediate
import CompilerKit.Aarch64.OpcodeBits
import CompilerKit.Aarch64.Plan
import CompilerKit.Aarch64.Register
import CompilerKit.Aarch64.Sequence
import CompilerKit.Amd64.Address
import CompilerKit.Amd64.Branch
import CompilerKit.Amd64.Direct
import CompilerKit.Amd64.Instruction
import CompilerKit.Amd64.Opcode
import CompilerKit.Amd64.Padding
import CompilerKit.Amd64.Register
import CompilerKit.Amd64.Table
import CompilerKit.Arithmetic.OnConstants
import CompilerKit.Arithmetic.OnStamps
import CompilerKit.Arithmetic.Operator
import CompilerKit.Assembly.Assembler
import CompilerKit.Assembly.Code
import CompilerKit.Assembly.Command
import CompilerKit.Buffer
import CompilerKit.Bytecode.Opcode
import CompilerKit.Bytecode.Stream
import CompilerKit.Canonical.Arithmetic
import CompilerKit.Canonical.Compare
import CompilerKit.Canonical.Divide
import CompilerKit.Canonical.Logic
import CompilerKit.Canonical.Phase
import CompilerKit.Canonical.Reassociate
import CompilerKit.Canonical.Resize
import CompilerKit.Canonical.Rule
import CompilerKit.Canonical.Select
import CompilerKit.Canonical.Shift
import CompilerKit.Collections.BitTable
import CompilerKit.Collections.Elements
import CompilerKit.Collections.Frequency
import CompilerKit.Collections.IntList
import CompilerKit.Collections.Ordered
import CompilerKit.Collections.WindowMap
import CompilerKit.Condition
import CompilerKit.Constant
import CompilerKit.ControlFlow.Cfg
import CompilerKit.ControlFlow.Dominator
import CompilerKit.ControlFlow.Order
import CompilerKit.ControlFlow.Trace
import CompilerKit.Expression.Branch
import CompilerKit.Expression.Flow
import CompilerKit.Expression.Keyword
import CompilerKit.Expression.Label
import CompilerKit.Expression.Listing
import CompilerKit.Expression.Shape
import CompilerKit.Expression.Term
import CompilerKit.Fault
import CompilerKit.FloatConvert
import CompilerKit.FloatingPoint.Decimal
import CompilerKit.FloatingPoint.Double
import CompilerKit.FloatingPoint.Format
import CompilerKit.FloatingPoint.Reading
import CompilerKit.Graph.Basic
import CompilerKit.Graph.Unique
import CompilerKit.Graph.WorkList
import CompilerKit.Kind
import CompilerKit.Options.Flags
import CompilerKit.Options.Session
import CompilerKit.Options.Setting
import CompilerKit.Proofs.Aarch64.Addition
import CompilerKit.Proofs.Aarch64.Bitfield
import CompilerKit.Proofs.Aarch64.EffectiveAddress
import CompilerKit.Proofs.Aarch64.Jump
import CompilerKit.Proofs.Aarch64.Labels
import CompilerKit.Proofs.Aarch64.LogicalImmediate
import CompilerKit.Proofs.Aarch64.MoveConstant
import CompilerKit.Proofs.Aarch64.Transfer
import CompilerKit.Proofs.Amd64.Agreement
import CompilerKit.Proofs.Amd64.Decoder
import CompilerKit.Proofs.Amd64.Labels
import CompilerKit.Proofs.Amd64.Padding
import CompilerKit.Proofs.Amd64.RoundTrip
import CompilerKit.Proofs.Amd64.ShortBranch
import CompilerKit.Proofs.Assembly.Assembler
import CompilerKit.Proofs.Branch
import CompilerKit.Proofs.Buffer
import CompilerKit.Proofs.Bytecode.Layout
import CompilerKit.Proofs.Bytecode.Stream
import CompilerKit.Proofs.Canonical.Answers
import CompilerKit.Proofs.Canonical.Arithmetic
import CompilerKit.Proofs.Canonical.Compare
import CompilerKit.Proofs.Canonical.ConditionAnswers
import CompilerKit.Proofs.Canonical.Disjunction
import CompilerKit.Proofs.Canonical.Divide
import CompilerKit.Proofs.Canonical.Equality
import CompilerKit.Proofs.Canonical.EqualsConstant
import CompilerKit.Proofs.Canonical.Less
import CompilerKit.Proofs.Canonical.NarrowShift
import CompilerKit.Proofs.Canonical.Progress
import CompilerKit.Proofs.Canonical.Quotient
import CompilerKit.Proofs.Canonical.Reassociate
import CompilerKit.Proofs.Canonical.Resize
import CompilerKit.Proofs.Canonical.Rule
import CompilerKit.Proofs.Canonical.Select
import CompilerKit.Proofs.Canonical.Shift
import CompilerKit.Proofs.Collections.BitTable
import CompilerKit.Proofs.Collections.Frequency
import CompilerKit.Proofs.Collections.Heap
import CompilerKit.Proofs.Collections.IntList
import CompilerKit.Proofs.Collections.Ordered
import CompilerKit.Proofs.Collections.WindowMap
import CompilerKit.Proofs.ControlFlow.CodeOrder
import CompilerKit.Proofs.ControlFlow.Dominance
import CompilerKit.Proofs.ControlFlow.DominatorTree
import CompilerKit.Proofs.ControlFlow.Dominators
import CompilerKit.Proofs.ControlFlow.ForwardTraces
import CompilerKit.Proofs.ControlFlow.LoopContiguity
import CompilerKit.Proofs.ControlFlow.NaturalLoops
import CompilerKit.Proofs.ControlFlow.ReversePostOrder
import CompilerKit.Proofs.ControlFlow.ScanOrder
import CompilerKit.Proofs.ControlFlow.Traces
import CompilerKit.Proofs.ControlFlow.Traversal
import CompilerKit.Proofs.ControlFlow.TwoWayTraces
import CompilerKit.Proofs.Division
import CompilerKit.Proofs.Evaluation
import CompilerKit.Proofs.FloatingPoint.Equality
import CompilerKit.Proofs.Graph.Bookkeeping
import CompilerKit.Proofs.Graph.Consistency
import CompilerKit.Proofs.Graph.Duplicates
import CompilerKit.Proofs.Graph.Edits
import CompilerKit.Proofs.Graph.Preservation
import CompilerKit.Proofs.Graph.Sharing
import CompilerKit.Proofs.Graph.Usages
import CompilerKit.Proofs.Graph.Waiting
import CompilerKit.Proofs.Numeric
import CompilerKit.Proofs.Options.Derived
import CompilerKit.Proofs.Options.History
import CompilerKit.Proofs.Options.Numbers
import CompilerKit.Proofs.Options.Overrides
import CompilerKit.Proofs.Result
import CompilerKit.Proofs.Stamp.Join
import CompilerKit.Proofs.Stamp.Membership
import CompilerKit.Proofs.Stamp.Narrow
import CompilerKit.Proofs.Stamp.Operator
import CompilerKit.Proofs.Stamp.Quotient
import CompilerKit.Proofs.Stamp.Shift
import CompilerKit.Proofs.Stamp.Sum
import CompilerKit.Proofs.Stamp.Tight
import CompilerKit.Proofs.ValueType
import CompilerKit.Proofs.Word
import CompilerKit.Stamp.Basic
import CompilerKit.Stamp.Float
import CompilerKit.Stamp.Integer
import CompilerKit.Stamp.Integer.Transfer
import CompilerKit.Stamp.Render
import CompilerKit.Text
import CompilerKit.Value
import CompilerKit.Word
