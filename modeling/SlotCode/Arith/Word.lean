/-
  SlotCode.Arith.Word — 32- and 64-bit floating-point words.

  A `Single` or a `Double` is its bit pattern, so two words are equal exactly when their
  bits are. Arithmetic is that of the IEEE formats, rounding to nearest; the comparisons
  are the partial one (`compare?`, `none` when a NaN takes part) and a total one in
  which `-0.0` is below `0.0` and a NaN is above all else and equal to every NaN.
-/

import SlotCode.Arith.Binary

namespace SlotCode.Arith

structure Single where
  bits : UInt32
  deriving DecidableEq, Repr

structure Double where
  bits : UInt64
  deriving DecidableEq, Repr

namespace Double

def toFloat (x : Double) : Float := Float.ofBits x.bits

def ofFloat (x : Float) : Double := ⟨x.toBits⟩

def zero : Double := ⟨0⟩

def datum (x : Double) : Datum := Format.double.decode x.bits.toNat

def isNaN (x : Double) : Bool := x.datum == .nan

def add (x y : Double) : Double := ofFloat (x.toFloat + y.toFloat)

def sub (x y : Double) : Double := ofFloat (x.toFloat - y.toFloat)

def mul (x y : Double) : Double := ofFloat (x.toFloat * y.toFloat)

def div (x y : Double) : Double := ofFloat (x.toFloat / y.toFloat)

def rem (x y : Double) : Double := ⟨(Format.double.rem x.bits.toNat y.bits.toNat).toUInt64⟩

def neg (x : Double) : Double := ⟨x.bits ^^^ 0x8000000000000000⟩

/-- `none` when the words are not ordered. -/
def compare? (x y : Double) : Option Ordering :=
  if x.toFloat < y.toFloat then some .lt
  else if y.toFloat < x.toFloat then some .gt
  else if x.toFloat == y.toFloat then some .eq
  else none

/-- The word read as a signed integer, every NaN alike: it settles what the values do not. -/
def rank (x : Double) : Int64 := (if x.isNaN then 0x7ff8000000000000 else x.bits).toInt64

def totalCompare (x y : Double) : Ordering :=
  match x.compare? y with
  | some .lt => .lt
  | some .gt => .gt
  | _ => compare x.rank y.rank

/-- Toward zero, at the ends of the range when the value is outside it, zero for a NaN. -/
def toInt32 (x : Double) : Int32 := x.toFloat.toInt32

def toInt64 (x : Double) : Int64 := x.toFloat.toInt64

end Double

namespace Single

def toFloat32 (x : Single) : Float32 := Float32.ofBits x.bits

def ofFloat32 (x : Float32) : Single := ⟨x.toBits⟩

def zero : Single := ⟨0⟩

def datum (x : Single) : Datum := Format.single.decode x.bits.toNat

def isNaN (x : Single) : Bool := x.datum == .nan

def add (x y : Single) : Single := ofFloat32 (x.toFloat32 + y.toFloat32)

def sub (x y : Single) : Single := ofFloat32 (x.toFloat32 - y.toFloat32)

def mul (x y : Single) : Single := ofFloat32 (x.toFloat32 * y.toFloat32)

def div (x y : Single) : Single := ofFloat32 (x.toFloat32 / y.toFloat32)

def rem (x y : Single) : Single := ⟨(Format.single.rem x.bits.toNat y.bits.toNat).toUInt32⟩

def neg (x : Single) : Single := ⟨x.bits ^^^ 0x80000000⟩

/-- The same number in the wider format. -/
def toDouble (x : Single) : Double := .ofFloat x.toFloat32.toFloat

def totalCompare (x y : Single) : Ordering := x.toDouble.totalCompare y.toDouble

/-- Toward zero, at the ends of the range when the value is outside it, zero for a NaN. -/
def toInt32 (x : Single) : Int32 := x.toFloat32.toInt32

def toInt64 (x : Single) : Int64 := x.toFloat32.toInt64

end Single

/-- The nearest word of the narrower format. -/
def Double.toSingle (x : Double) : Single := .ofFloat32 x.toFloat.toFloat32

end SlotCode.Arith
