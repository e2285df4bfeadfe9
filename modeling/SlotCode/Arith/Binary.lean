/-
  SlotCode.Arith.Binary — binary floating-point words as exact numbers.

  A word of a format is a sign, an exponent field and a fraction field. A finite word
  stands for `± m · 2^q`; the functions here take words apart into `m` and `q` and put
  them together again, so that what has no operation on words (the remainder, the
  decimal digits) is done on naturals and is exact.
-/

namespace SlotCode.Arith

def pow2 (k : Nat) : Nat := Nat.pow 2 k

/-- The widths of the two fields under the sign bit. -/
structure Format where
  fractionBits : Nat
  exponentBits : Nat
  deriving DecidableEq, Repr

namespace Format

def single : Format := ⟨23, 8⟩

def double : Format := ⟨52, 11⟩

def bias (f : Format) : Nat := pow2 (f.exponentBits - 1) - 1

/-- The exponent of the last place of the smallest words. -/
def minExponent (f : Format) : Int := 1 - (f.bias : Int) - f.fractionBits

def signBit (f : Format) : Nat := pow2 (f.fractionBits + f.exponentBits)

def infinityBits (f : Format) : Nat := (pow2 f.exponentBits - 1) * pow2 f.fractionBits

/-- The quiet NaN with an empty payload. -/
def nanBits (f : Format) : Nat := f.infinityBits + pow2 (f.fractionBits - 1)

end Format

/-- What a word stands for. -/
inductive Datum where
  | nan
  | infinite (negative : Bool)
  /-- `± m · 2^q`; a zero has `m = 0` and keeps its sign. -/
  | finite (negative : Bool) (m : Nat) (q : Int)
  deriving DecidableEq, Repr

namespace Format

def decode (f : Format) (bits : Nat) : Datum :=
  let negative := bits / f.signBit % 2 == 1
  let exponent := bits / pow2 f.fractionBits % pow2 f.exponentBits
  let fraction := bits % pow2 f.fractionBits
  if exponent = pow2 f.exponentBits - 1 then
    if fraction = 0 then .infinite negative else .nan
  else if exponent = 0 then .finite negative fraction f.minExponent
  else .finite negative (pow2 f.fractionBits + fraction) (f.minExponent + (exponent - 1 : Nat))

/-- The word of `± m · 2^q` when the format holds that number exactly. -/
def encode (f : Format) (negative : Bool) (m : Nat) (q : Int) : Nat :=
  let sign := if negative then f.signBit else 0
  if m = 0 then sign
  else
    let up := min (f.fractionBits - m.log2) (q - f.minExponent).toNat
    let m := m * pow2 up
    let field := if m < pow2 f.fractionBits then 0 else (q - up - f.minExponent).toNat + 1
    sign + field * pow2 f.fractionBits + m % pow2 f.fractionBits

/-- The remainder of the quotient truncated toward zero; it has the sign of `x` and is exact. -/
def rem (f : Format) (x y : Nat) : Nat :=
  match f.decode x, f.decode y with
  | .finite negative m q, .finite _ n r =>
    if n = 0 then f.nanBits
    else
      let low := min q r
      f.encode negative (m * pow2 (q - low).toNat % (n * pow2 (r - low).toNat)) low
  | .finite _ _ _, .infinite _ => x
  | _, _ => f.nanBits

end Format

end SlotCode.Arith
