/-
  SlotCode.Graph.Operator — the operators of nodes and the types they take and give.

  An operator on one partition is named by the partition's letter and the operation, such
  as `IAdd` or `DNeg`; a conversion by its two types, such as `IntToByte`.
-/

import SlotCode.Graph.ValueType
import SlotCode.Arith.Operation

namespace SlotCode

open SlotCode.Arith

inductive NullaryOp where
  | void
  | null
  | unreachable
  deriving DecidableEq, Repr

def NullaryOp.all : List NullaryOp := [.void, .null, .unreachable]

def NullaryOp.name : NullaryOp → String
  | .void => "Void"
  | .null => "Null"
  | .unreachable => "Unreachable"

def NullaryOp.resultType : NullaryOp → ValueType
  | .void => .void
  | .null => .object
  | .unreachable => .unreachable

/-- The letter of a partition as operator names have it. -/
def Kind.initial (k : Kind) : String := k.letter.toUpper.toString

def Arith.Width.all : List Width := [.int, .long]

def Arith.Precision.all : List Precision := [.float, .double]

def Arith.Width.type : Width → ValueType
  | .int => .int
  | .long => .long

def Arith.Precision.type : Precision → ValueType
  | .float => .float
  | .double => .double

/-! ## Unary operators -/

inductive UnaryOp where
  /-- Boolean negation. -/
  | not
  /-- Bitwise complement. -/
  | invert (w : Width)
  | negate (w : Width)
  | negateFloat (p : Precision)
  | convert (c : Conversion)
  | arrayLength
  /-- Passes its operand on, unless that is null. -/
  | nullCheck
  deriving DecidableEq, Repr

/-- The types of a conversion's operand and result. -/
def Arith.Conversion.signature : Conversion → ValueType × ValueType
  | .i2l => (.int, .long)
  | .i2f => (.int, .float)
  | .i2d => (.int, .double)
  | .l2i => (.long, .int)
  | .l2f => (.long, .float)
  | .l2d => (.long, .double)
  | .f2i => (.float, .int)
  | .f2l => (.float, .long)
  | .f2d => (.float, .double)
  | .d2i => (.double, .int)
  | .d2l => (.double, .long)
  | .d2f => (.double, .float)
  | .i2b => (.int, .byte)
  | .i2s => (.int, .short)
  | .i2c => (.int, .char)

namespace UnaryOp

def all : List UnaryOp :=
  [.not] ++ Width.all.map .invert ++ Width.all.map .negate ++ Precision.all.map .negateFloat
    ++ Conversion.all.map .convert ++ [.arrayLength, .nullCheck]

def name : UnaryOp → String
  | .not => "Not"
  | .invert w => w.kind.initial ++ "Inv"
  | .negate w => w.kind.initial ++ "Neg"
  | .negateFloat p => p.kind.initial ++ "Neg"
  | .convert c => c.signature.1.name ++ "To" ++ c.signature.2.name
  | .arrayLength => "ArrayLength"
  | .nullCheck => "NullCheck"

/-- The types of the operand and of the result. -/
def signature : UnaryOp → ValueType × ValueType
  | .not => (.boolean, .boolean)
  | .invert w | .negate w => (w.type, w.type)
  | .negateFloat p => (p.type, p.type)
  | .convert c => c.signature
  | .arrayLength => (.object, .int)
  | .nullCheck => (.object, .object)

def operandType (op : UnaryOp) : ValueType := op.signature.1

def resultType (op : UnaryOp) : ValueType := op.signature.2

end UnaryOp

/-! ## Binary operators -/

inductive BinaryOp where
  | arith (w : Width) (op : IntOp)
  | real (p : Precision) (op : FloatOp)
  /-- Three-way comparison of longs: below, equal or above as -1, 0 or 1. -/
  | orderLong
  /-- Three-way comparison of floating-point numbers in their total order. -/
  | orderFloat (p : Precision)
  /-- Comparison of two ints. -/
  | test (op : CmpOp)
  /-- The same reference. -/
  | refEq
  | refNe
  /-- Short-circuit conjunction. -/
  | and
  /-- Short-circuit disjunction. -/
  | or
  deriving DecidableEq, Repr

namespace BinaryOp

def all : List BinaryOp :=
  Width.all.flatMap (fun w => IntOp.all.map (.arith w)) ++ Precision.all.flatMap (fun p => FloatOp.all.map (.real p))
    ++ [.orderLong] ++ Precision.all.map .orderFloat ++ CmpOp.all.map .test ++ [.refEq, .refNe, .and, .or]

def name : BinaryOp → String
  | .arith w op => w.kind.initial ++ op.mnemonic.capitalize
  | .real p op => p.kind.initial ++ op.mnemonic.capitalize
  | .orderLong => "LCmp"
  | .orderFloat p => p.kind.initial ++ "Cmp"
  | .test op => "I" ++ op.mnemonic.capitalize
  | .refEq => "RefEq"
  | .refNe => "RefNe"
  | .and => "LogicalAnd"
  | .or => "LogicalOr"

/-- The types of the first operand, of the second and of the result. A long is shifted by an int. -/
def signature : BinaryOp → ValueType × ValueType × ValueType
  | .arith .int _ => (.int, .int, .int)
  | .arith .long op => (.long, if op.isShift then .int else .long, .long)
  | .real p _ => (p.type, p.type, p.type)
  | .orderLong => (.long, .long, .int)
  | .orderFloat p => (p.type, p.type, .int)
  | .test _ => (.int, .int, .boolean)
  | .refEq | .refNe => (.object, .object, .boolean)
  | .and | .or => (.boolean, .boolean, .boolean)

def firstType (op : BinaryOp) : ValueType := op.signature.1

def secondType (op : BinaryOp) : ValueType := op.signature.2.1

def resultType (op : BinaryOp) : ValueType := op.signature.2.2

def isLogical : BinaryOp → Bool
  | .and | .or => true
  | _ => false

end BinaryOp

end SlotCode
