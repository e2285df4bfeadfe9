/-
  SlotCode.Arith.Operation — the operations on numbers that nodes and instructions name.

  Integers of both widths share one list of operations and wrap around; only division
  and remainder by zero have no result. The distance of a shift counts modulo the width,
  and a long is shifted by an int.
-/

import SlotCode.Slot
import SlotCode.Arith.Word

namespace SlotCode.Arith

/-- The two widths of integers. -/
inductive Width where
  | int
  | long
  deriving DecidableEq, Repr

def Width.kind : Width → Kind
  | .int => .int
  | .long => .long

/-- The two precisions of floating-point numbers. -/
inductive Precision where
  | float
  | double
  deriving DecidableEq, Repr

def Precision.kind : Precision → Kind
  | .float => .float
  | .double => .double

inductive IntOp where
  | add
  | sub
  | mul
  | div
  | rem
  | and
  | or
  | xor
  | shl
  | shr
  | shru
  deriving DecidableEq, Repr

namespace IntOp

def all : List IntOp := [.add, .sub, .mul, .div, .rem, .and, .or, .xor, .shl, .shr, .shru]

def isShift : IntOp → Bool
  | .shl | .shr | .shru => true
  | _ => false

/-- Whether the operation has no result for a zero divisor. -/
def divides : IntOp → Bool
  | .div | .rem => true
  | _ => false

def mnemonic : IntOp → String
  | .add => "add"
  | .sub => "sub"
  | .mul => "mul"
  | .div => "div"
  | .rem => "rem"
  | .and => "and"
  | .or => "or"
  | .xor => "xor"
  | .shl => "shl"
  | .shr => "shr"
  | .shru => "shru"

/-- `none` for a division or remainder by zero. -/
def onInt (op : IntOp) (a b : Int32) : Option Int32 :=
  match op with
  | .add => some (a + b)
  | .sub => some (a - b)
  | .mul => some (a * b)
  | .div => if b = 0 then none else some (a / b)
  | .rem => if b = 0 then none else some (a % b)
  | .and => some (a &&& b)
  | .or => some (a ||| b)
  | .xor => some (a ^^^ b)
  | .shl => some (a <<< b)
  | .shr => some (a >>> b)
  | .shru => some (a.toUInt32 >>> b.toUInt32).toInt32

/-- `none` for a division or remainder by zero. -/
def onLong (op : IntOp) (a b : Int64) : Option Int64 :=
  match op with
  | .add => some (a + b)
  | .sub => some (a - b)
  | .mul => some (a * b)
  | .div => if b = 0 then none else some (a / b)
  | .rem => if b = 0 then none else some (a % b)
  | .and => some (a &&& b)
  | .or => some (a ||| b)
  | .xor => some (a ^^^ b)
  | .shl => some (a <<< b)
  | .shr => some (a >>> b)
  | .shru => some (a.toUInt64 >>> b.toUInt64).toInt64

end IntOp

inductive FloatOp where
  | add
  | sub
  | mul
  | div
  | rem
  deriving DecidableEq, Repr

namespace FloatOp

def all : List FloatOp := [.add, .sub, .mul, .div, .rem]

def mnemonic : FloatOp → String
  | .add => "add"
  | .sub => "sub"
  | .mul => "mul"
  | .div => "div"
  | .rem => "rem"

def onSingle : FloatOp → Single → Single → Single
  | .add => .add
  | .sub => .sub
  | .mul => .mul
  | .div => .div
  | .rem => .rem

def onDouble : FloatOp → Double → Double → Double
  | .add => .add
  | .sub => .sub
  | .mul => .mul
  | .div => .div
  | .rem => .rem

end FloatOp

inductive CmpOp where
  | eq
  | ne
  | lt
  | le
  | gt
  | ge
  deriving DecidableEq, Repr

namespace CmpOp

def all : List CmpOp := [.eq, .ne, .lt, .le, .gt, .ge]

def mnemonic : CmpOp → String
  | .eq => "eq"
  | .ne => "ne"
  | .lt => "lt"
  | .le => "le"
  | .gt => "gt"
  | .ge => "ge"

/-- The comparison of two values by their order, `none` when they are unordered. -/
def holds (op : CmpOp) (order : Option Ordering) : Bool :=
  match op with
  | .eq => order == some .eq
  | .ne => order != some .eq
  | .lt => order == some .lt
  | .le => order == some .lt || order == some .eq
  | .gt => order == some .gt
  | .ge => order == some .gt || order == some .eq

end CmpOp

/-- Conversions between numbers. `i2b`, `i2s` and `i2c` cut an int down to a signed byte, a
    signed short and an unsigned 16-bit char. -/
inductive Conversion where
  | i2l
  | i2f
  | i2d
  | l2i
  | l2f
  | l2d
  | f2i
  | f2l
  | f2d
  | d2i
  | d2l
  | d2f
  | i2b
  | i2s
  | i2c
  deriving DecidableEq, Repr

namespace Conversion

def all : List Conversion :=
  [.i2l, .i2f, .i2d, .l2i, .l2f, .l2d, .f2i, .f2l, .f2d, .d2i, .d2l, .d2f, .i2b, .i2s, .i2c]

def source : Conversion → Kind
  | .i2l | .i2f | .i2d | .i2b | .i2s | .i2c => .int
  | .l2i | .l2f | .l2d => .long
  | .f2i | .f2l | .f2d => .float
  | .d2i | .d2l | .d2f => .double

def target : Conversion → Kind
  | .l2i | .f2i | .d2i | .i2b | .i2s | .i2c => .int
  | .i2l | .f2l | .d2l => .long
  | .i2f | .l2f | .d2f => .float
  | .i2d | .l2d | .f2d => .double

def mnemonic : Conversion → String
  | .i2l => "i2l"
  | .i2f => "i2f"
  | .i2d => "i2d"
  | .l2i => "l2i"
  | .l2f => "l2f"
  | .l2d => "l2d"
  | .f2i => "f2i"
  | .f2l => "f2l"
  | .f2d => "f2d"
  | .d2i => "d2i"
  | .d2l => "d2l"
  | .d2f => "d2f"
  | .i2b => "i2b"
  | .i2s => "i2s"
  | .i2c => "i2c"

end Conversion

/-! ## Scalars -/

/-- A number of one of the four numeric partitions. -/
inductive Scalar where
  | int (v : Int32)
  | long (v : Int64)
  | float (v : Single)
  | double (v : Double)
  deriving DecidableEq, Repr

def Scalar.kind : Scalar → Kind
  | .int _ => .int
  | .long _ => .long
  | .float _ => .float
  | .double _ => .double

/-- The converted number; `none` when it is not of the kind that the conversion takes. Integers
    keep their low bits, floats are rounded to nearest. -/
def Conversion.apply? : Conversion → Scalar → Option Scalar
  | .i2l, .int v => some (.long v.toInt64)
  | .i2f, .int v => some (.float (.ofFloat32 v.toFloat32))
  | .i2d, .int v => some (.double (.ofFloat v.toFloat))
  | .l2i, .long v => some (.int v.toInt32)
  | .l2f, .long v => some (.float (.ofFloat32 v.toFloat32))
  | .l2d, .long v => some (.double (.ofFloat v.toFloat))
  | .f2i, .float v => some (.int v.toInt32)
  | .f2l, .float v => some (.long v.toInt64)
  | .f2d, .float v => some (.double v.toDouble)
  | .d2i, .double v => some (.int v.toInt32)
  | .d2l, .double v => some (.long v.toInt64)
  | .d2f, .double v => some (.float v.toSingle)
  | .i2b, .int v => some (.int v.toInt8.toInt32)
  | .i2s, .int v => some (.int v.toInt16.toInt32)
  | .i2c, .int v => some (.int (v.toUInt32 &&& 0xffff).toInt32)
  | _, _ => none

end SlotCode.Arith
