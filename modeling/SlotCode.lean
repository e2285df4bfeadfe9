import SlotCode.Arith.Binary
import SlotCode.Arith.Operation
import SlotCode.Arith.Shortest
import SlotCode.Arith.Word
import SlotCode.Code.Branch
import SlotCode.Code.Draft
import SlotCode.Code.Instruction
import SlotCode.Code.Listing
import SlotCode.Code.Program
import SlotCode.Graph.Builder
import SlotCode.Graph.Demand
import SlotCode.Graph.Node
import SlotCode.Graph.Operator
import SlotCode.Graph.Order
import SlotCode.Graph.Typing
import SlotCode.Graph.ValueType
import SlotCode.Heap.ClassTable
import SlotCode.Heap.Value
import SlotCode.Host.Environment
import SlotCode.Host.Recipe
import SlotCode.Host.World
import SlotCode.Lowering.Access
import SlotCode.Lowering.Compile
import SlotCode.Lowering.Condition
import SlotCode.Lowering.Control
import SlotCode.Lowering.Error
import SlotCode.Lowering.Operator
import SlotCode.Lowering.State
import SlotCode.Lowering.Walk
import SlotCode.Machine.Error
import SlotCode.Machine.Registers
import SlotCode.Machine.Run
import SlotCode.Machine.Step
import SlotCode.Missing
import SlotCode.Newest
import SlotCode.Proofs.Contract
import SlotCode.Proofs.OpenJumps
import SlotCode.Session
import SlotCode.Slot
import SlotCode.Slot.Pool
import SlotCode.Text.Decimal
import SlotCode.Text.Quoted
import SlotCode.Proofs.JumpLedger
import SlotCode.Proofs.TidyWalk
import SlotCode.Proofs.SealedCode
import SlotCode.Proofs.Meaning
import SlotCode.Proofs.OrderSpec
import SlotCode.Proofs.DemandSpec
import SlotCode.Proofs.TreeShape
import SlotCode.Proofs.FinalCode
import SlotCode.Proofs.SlotPool
import SlotCode.Proofs.Effects
import SlotCode.Proofs.MachineSteps
import SlotCode.Proofs.Agreement
import SlotCode.Proofs.Follows
import SlotCode.Proofs.Faithful
import SlotCode.Proofs.FaithfulOperators
import SlotCode.Proofs.FaithfulConditions
import SlotCode.Proofs.FaithfulAccess
import SlotCode.Proofs.FaithfulCalls
import SlotCode.Proofs.FaithfulControl
import SlotCode.Proofs.FaithfulArms
import SlotCode.Proofs.FaithfulWalk
import SlotCode.Proofs.CallSetup
import SlotCode.Proofs.Passage
import SlotCode.Proofs.Realization
import SlotCode.Proofs.Dues
import SlotCode.Proofs.Accounts
import SlotCode.Proofs.Visits
import SlotCode.Proofs.BalancedWalk
import SlotCode.Proofs.OwnedSlots
import SlotCode.Proofs.Operands
import SlotCode.Proofs.TypedBooks
import SlotCode.Proofs.TypedWalk
import SlotCode.Proofs.FittingRuns
import SlotCode.Proofs.Coverage
import SlotCode.Proofs.Assignment
import SlotCode.Proofs.AssignedOperands
import SlotCode.Proofs.AssignedWalk
import SlotCode.Proofs.WrittenFirst
import SlotCode.Proofs.Operations
import SlotCode.Proofs.Nesting
import SlotCode.Proofs.WorkWalk
import SlotCode.Proofs.CountedWalk
import SlotCode.Proofs.Cycles
import SlotCode.Proofs.OncePerNode
import SlotCode.Proofs.Spared
import SlotCode.Proofs.SparingWalk
import SlotCode.Proofs.Consumers
import SlotCode.Proofs.FixedRegisters
import SlotCode.Proofs.Copies
import SlotCode.Proofs.Analysis
import SlotCode.Proofs.DepthLimit
import SlotCode.Proofs.Conditions
import SlotCode.Proofs.Lockstep
import SlotCode.Proofs.Twins
import SlotCode.Proofs.TwinOperators
import SlotCode.Proofs.TwinControl
import SlotCode.Proofs.TwinWalk
import SlotCode.Proofs.AdoptedTails
import SlotCode.Proofs.History
import SlotCode.Proofs.PoolHistory
import SlotCode.Proofs.PoolPeak
import SlotCode.Proofs.DraftHistory
import SlotCode.Proofs.SpentCounts
import SlotCode.Proofs.StepLimit
import SlotCode.Proofs.StepChanges
import SlotCode.Proofs.Failures
import SlotCode.Proofs.Ascent
import SlotCode.Proofs.Lineage
import SlotCode.Proofs.FieldLayout
import SlotCode.Proofs.ClassOrder
import SlotCode.Proofs.NameResolution
import SlotCode.Proofs.OneLine
import SlotCode.Proofs.ListingLabels
import SlotCode.Proofs.TextWalk
import SlotCode.Proofs.InternedTexts
import SlotCode.Proofs.StackSearch
import SlotCode.Proofs.Integers
import SlotCode.Proofs.LineReading
