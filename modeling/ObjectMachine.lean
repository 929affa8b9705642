import ObjectMachine.Assembler.Basic
import ObjectMachine.Assembler.Code
import ObjectMachine.Assembler.Draft
import ObjectMachine.Assembler.Problem
import ObjectMachine.Class.Basic
import ObjectMachine.Class.InstanceSpec
import ObjectMachine.Class.Kernel
import ObjectMachine.Class.MethodDictionary
import ObjectMachine.Collection.BitVector
import ObjectMachine.Collection.Collect
import ObjectMachine.Collection.Compact
import ObjectMachine.Collection.Mark
import ObjectMachine.Collection.Relocation
import ObjectMachine.Collection.Remap
import ObjectMachine.CommandLine.Options
import ObjectMachine.CommandLine.Run
import ObjectMachine.Context.Basic
import ObjectMachine.Context.Pool
import ObjectMachine.Demo
import ObjectMachine.Execution.Activation
import ObjectMachine.Execution.Return
import ObjectMachine.Execution.Run
import ObjectMachine.Execution.Send
import ObjectMachine.Execution.Shortcut
import ObjectMachine.Execution.Stack
import ObjectMachine.Execution.Step
import ObjectMachine.Fatal
import ObjectMachine.Heap.Access
import ObjectMachine.Heap.Allocate
import ObjectMachine.Heap.Basic
import ObjectMachine.Heap.Config
import ObjectMachine.Heap.LargeIntegers
import ObjectMachine.Heap.Layout
import ObjectMachine.Heap.Verify
import ObjectMachine.Instruction.Basic
import ObjectMachine.Instruction.Mnemonic
import ObjectMachine.Instruction.Opcode
import ObjectMachine.Instruction.SpecialSelector
import ObjectMachine.Kernel.Bootstrap
import ObjectMachine.Kernel.Methods
import ObjectMachine.Listing
import ObjectMachine.Machine.Action
import ObjectMachine.Machine.Basic
import ObjectMachine.Machine.Build
import ObjectMachine.Machine.Classes
import ObjectMachine.Machine.Collect
import ObjectMachine.Machine.Describe
import ObjectMachine.Machine.Failure
import ObjectMachine.Machine.Names
import ObjectMachine.Machine.Objects
import ObjectMachine.Machine.Registers
import ObjectMachine.Machine.Selector
import ObjectMachine.Main
import ObjectMachine.Method.Basic
import ObjectMachine.Method.Cache
import ObjectMachine.Method.Header
import ObjectMachine.Number.Binary64
import ObjectMachine.Number.Layout
import ObjectMachine.Number.Operation
import ObjectMachine.Number.PowerOfTwo
import ObjectMachine.Number.Shortest
import ObjectMachine.Object.Format
import ObjectMachine.Object.Header
import ObjectMachine.Primitive.Basic
import ObjectMachine.Primitive.Control
import ObjectMachine.Primitive.Indexable
import ObjectMachine.Primitive.Invoke
import ObjectMachine.Primitive.Number
import ObjectMachine.Primitive.Object
import ObjectMachine.Primitive.Operand
import ObjectMachine.Proofs.Collection.Accounting
import ObjectMachine.Proofs.Collection.BitVector
import ObjectMachine.Proofs.Collection.Collecting
import ObjectMachine.Proofs.Collection.Compaction
import ObjectMachine.Proofs.Collection.Marking
import ObjectMachine.Proofs.Collection.Preservation
import ObjectMachine.Proofs.Collection.Relocation
import ObjectMachine.Proofs.Collection.Remapping
import ObjectMachine.Proofs.Heap.Allocation
import ObjectMachine.Proofs.Heap.Bits
import ObjectMachine.Proofs.Heap.LargeIntegers
import ObjectMachine.Proofs.Heap.Tiling
import ObjectMachine.Proofs.Heap.Verification
import ObjectMachine.Proofs.Heap.View
import ObjectMachine.Proofs.Heap.WellFormed
import ObjectMachine.Proofs.Interface.Invariance
import ObjectMachine.Proofs.Interface.LargeValues
import ObjectMachine.Proofs.Interface.Session
import ObjectMachine.Proofs.Interface.Shapes
import ObjectMachine.Proofs.Interface.Soundness
import ObjectMachine.Proofs.Interface.Stores
import ObjectMachine.Proofs.Interface.Storing
import ObjectMachine.Proofs.Interface.Table
import ObjectMachine.Proofs.Machine.Bootstrapped
import ObjectMachine.Proofs.Machine.Coherence
import ObjectMachine.Proofs.Machine.Collecting
import ObjectMachine.Proofs.Machine.Continuation
import ObjectMachine.Proofs.Machine.Instances
import ObjectMachine.Proofs.Machine.Making
import ObjectMachine.Proofs.Machine.Operands
import ObjectMachine.Proofs.Machine.Outcomes
import ObjectMachine.Proofs.Machine.Resumption
import ObjectMachine.Proofs.Machine.Roots
import ObjectMachine.Proofs.Machine.Shortcuts
import ObjectMachine.Proofs.Machine.Soundness
import ObjectMachine.Proofs.Machine.SpecialSends
import ObjectMachine.Proofs.Primitive.Atomicity
import ObjectMachine.Proofs.Primitive.Blocks
import ObjectMachine.Proofs.Primitive.Computing
import ObjectMachine.Proofs.Primitive.Results
import ObjectMachine.Ref
import ObjectMachine.Text.Alphabetic
import ObjectMachine.Text.Blank
import ObjectMachine.Text.CodeSet
import ObjectMachine.Text.Extending
import ObjectMachine.Text.Hidden
import ObjectMachine.Text.Quoted
import ObjectMachine.Text.Radix
import ObjectMachine.Text.Utf8
import ObjectMachine.Proofs.Class.Probing
import ObjectMachine.Proofs.Class.Tables
import ObjectMachine.Proofs.Collection.Reservation
import ObjectMachine.Proofs.Collection.Visits
import ObjectMachine.Proofs.Collection.Repetition
import ObjectMachine.Proofs.Class.Answering
import ObjectMachine.Proofs.Class.Catalog
import ObjectMachine.Proofs.Class.Defining
import ObjectMachine.Proofs.Class.Dictionaries
import ObjectMachine.Proofs.Graph.Access
import ObjectMachine.Proofs.Graph.Allocating
import ObjectMachine.Proofs.Graph.Classes
import ObjectMachine.Proofs.Graph.Defining
import ObjectMachine.Proofs.Graph.Dictionary
import ObjectMachine.Proofs.Graph.Hierarchy
import ObjectMachine.Proofs.Graph.Bootstrapping
import ObjectMachine.Proofs.Collection.Forwarding
import ObjectMachine.Proofs.Execution.Activation
import ObjectMachine.Proofs.Graph.Primitives
import ObjectMachine.Proofs.Graph.Sends
import ObjectMachine.Proofs.Execution.Chains
import ObjectMachine.Proofs.Execution.Returns
import ObjectMachine.Proofs.Execution.Evaluation
import ObjectMachine.Proofs.Instruction.Codec
import ObjectMachine.Proofs.Assembler.Jumps
import ObjectMachine.Proofs.Graph.Returns
import ObjectMachine.Proofs.Graph.Shortcuts
import ObjectMachine.Proofs.Graph.Steps
import ObjectMachine.Proofs.Execution.Decoding
import ObjectMachine.Proofs.Graph.Positions
import ObjectMachine.Proofs.Graph.Reading
import ObjectMachine.Proofs.Execution.Instructions
import ObjectMachine.Proofs.Machine.Reclaiming
import ObjectMachine.Proofs.Machine.Instantiation
import ObjectMachine.Proofs.Class.Lineage
import ObjectMachine.Proofs.Assembler.Mistakes
import ObjectMachine.Proofs.Graph.Edits
import ObjectMachine.Proofs.Graph.Lasting
import ObjectMachine.Proofs.Graph.Operations
import ObjectMachine.Proofs.Machine.Permanence
import ObjectMachine.Proofs.Machine.Symbols
import ObjectMachine.Proofs.Graph.Fetching
import ObjectMachine.Proofs.Graph.Ledger
import ObjectMachine.Proofs.Machine.Globals
import ObjectMachine.Proofs.Class.Specification
import ObjectMachine.Proofs.Interface.Elements
import ObjectMachine.Proofs.Number.Exactness
import ObjectMachine.Proofs.Graph.Finishing
import ObjectMachine.Proofs.Graph.Working
import ObjectMachine.Proofs.Graph.Activating
import ObjectMachine.Proofs.Graph.Calling
import ObjectMachine.Proofs.Graph.Operating
import ObjectMachine.Proofs.Graph.Messaging
import ObjectMachine.Proofs.Graph.Layers
import ObjectMachine.Proofs.Graph.Asking
import ObjectMachine.Proofs.Machine.Reckoning
import ObjectMachine.Proofs.Number.Equality
import ObjectMachine.Proofs.Assembler.Sharing
import ObjectMachine.Proofs.Machine.Literals
import ObjectMachine.Proofs.Machine.Owners
