/-
  SlotCode.Lowering.Error — why a function cannot be lowered.

  Lowering either gives a whole program or one of these. A `Defect` says that the
  bookkeeping of slots, jumps, regions or consumers contradicts itself; it is never the
  fault of the function.
-/

import SlotCode.Code.Draft
import SlotCode.Graph.Demand
import SlotCode.Slot.Pool

namespace SlotCode

/-- Why types or kinds do not fit. -/
inductive Mismatch where
  | parameter (index : Nat) (type : ValueType)
  | localVariable (index : Nat) (type : ValueType)
  | body (returnType bodyType : ValueType)
  | stored (value target : Kind)
  | unexpected (wanted found : ValueType)
  | field (name : String) (declared used : ValueType)
  | native (name : String)
  | arity (name : String) (wanted given : Nat)
  deriving DecidableEq, Repr

def Mismatch.message : Mismatch → String
  | .parameter index type => s!"parameter {index} has no value type ({type.name})"
  | .localVariable index type => s!"local {index} has no value type ({type.name})"
  | .body returnType bodyType => s!"function returns {returnType.name} but its body is {bodyType.name}"
  | .stored value target => s!"{value.name} value stored into a {target.name} slot"
  | .unexpected wanted found => s!"expected {wanted.name}, found {found.name}"
  | .field name declared used => s!"field {name} is {declared.name}, not {used.name}"
  | .native name => s!"{name} does not match the registered native"
  | .arity name wanted given => s!"{name} takes {wanted} arguments, {given} given"

inductive Defect where
  | draft (e : Draft.Error)
  | pool (e : Pool.Error)
  | countMismatch (node : NodeId) (usage : Usage)
  | slotsLeft (count : Nat)
  | noValueSlot (node : NodeId)
  | noValueType (node : NodeId)
  | overReleased (node : NodeId)
  | regionOrder
  | unknownParameter (node : NodeId) (index : ParamId)
  | unknownVariable (node : NodeId) (index : VarId)
  | blockUnderflow
  | loopUnderflow
  deriving DecidableEq, Repr

def Defect.message : Defect → String
  | .draft e => e.message
  | .pool e => e.message
  | .countMismatch node usage => s!"consumer count mismatch for {node.text} ({usage.name})"
  | .slotsLeft count => s!"{count} slots still live after lowering"
  | .noValueSlot node => s!"{node.text} has no value slot"
  | .noValueType node => s!"{node.text} has no value type"
  | .overReleased node => s!"{node.text} released more often than allocated"
  | .regionOrder => "region stack out of order"
  | .unknownParameter node index => s!"{node.text} refers to unknown parameter {index.text}"
  | .unknownVariable node index => s!"{node.text} refers to unknown variable {index.text}"
  | .blockUnderflow => "block stack underflow"
  | .loopUnderflow => "loop stack underflow"

inductive BuildError where
  /-- The node was reached again while it was being lowered. -/
  | cycle (node : NodeId)
  /-- The expression has no code. -/
  | unsupported (node : NodeId) (name : String)
  | unknownBlock (node : NodeId) (block : BlockId)
  | unknownLoop (node : NodeId) (loop : LoopId)
  | unresolvedMethod (node : NodeId) (method : String)
  | unresolvedField (node : NodeId) (field : String)
  | unresolvedClass (node : NodeId) (className : String)
  | typeMismatch (node : NodeId) (cause : Mismatch)
  /-- The value is read on a path that may not have run its code. -/
  | sharedAcrossBranches (node : NodeId)
  | tooDeep (depth maxDepth : Nat)
  | danglingJump (position : Nat)
  | unfilledSlot (position : Nat)
  | internal (defect : Defect)
  | missing (what : Missing)
  deriving DecidableEq, Repr

/-- Code that is not finished cannot become a program. -/
def BuildError.ofUnfinished : Draft.Unfinished → BuildError
  | .unfilled position => .unfilledSlot position
  | .dangling position => .danglingJump position

/-- The name of the cause alone, for hosts that tell causes apart. -/
def BuildError.name : BuildError → String
  | .cycle .. => "Cycle"
  | .unsupported .. => "Unsupported"
  | .unknownBlock .. => "UnknownBlock"
  | .unknownLoop .. => "UnknownLoop"
  | .unresolvedMethod .. => "UnresolvedMethod"
  | .unresolvedField .. => "UnresolvedField"
  | .unresolvedClass .. => "UnresolvedClass"
  | .typeMismatch .. => "TypeMismatch"
  | .sharedAcrossBranches .. => "SharedAcrossBranches"
  | .tooDeep .. => "TooDeep"
  | .danglingJump .. => "DanglingJump"
  | .unfilledSlot .. => "UnfilledSlot"
  | .internal .. => "Internal"
  | .missing .. => "Missing"

def BuildError.message : BuildError → String
  | .cycle node => s!"Cycle found in IR at {node.text}"
  | .unsupported node name => s!"Lowering of {name} ({node.text}) is not supported"
  | .unknownBlock node block => s!"{node.text} exits block {block.text} which is not open"
  | .unknownLoop node loop => s!"{node.text} refers to loop {loop.text} which is not open"
  | .unresolvedMethod node method => s!"Unknown native function {method} at {node.text}"
  | .unresolvedField node field => s!"Unknown field {field} at {node.text}"
  | .unresolvedClass node className => s!"Unknown class {className} at {node.text}"
  | .typeMismatch node cause => s!"Type mismatch at {node.text}: {cause.message}"
  | .sharedAcrossBranches node => s!"{node.text} is read outside the branch it was computed in"
  | .tooDeep depth maxDepth => s!"IR nesting depth {depth} exceeds maximum of {maxDepth}"
  | .danglingJump position => s!"Jump at @{position} was never resolved"
  | .unfilledSlot position => s!"Reserved instruction at @{position} was never filled"
  | .internal defect => s!"Internal lowering error: {defect.message}"
  | .missing _ => "No such table entry"

end SlotCode
