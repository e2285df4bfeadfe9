/-
  SlotCode.Text.Decimal — how floating-point numbers are written.

  Both styles write the shortest digits that read back. `constant`, the style of
  listings, never uses an exponent and adds no fraction to a whole number; `plain`, the
  style in which values are described, adds `.0` to a whole number and turns to an
  exponent outside `10^-4 … 10^16`.
-/

import SlotCode.Arith.Word
import SlotCode.Arith.Shortest

namespace SlotCode.Text

open SlotCode.Arith

structure NumberStyle where
  /-- The exponents of the leading digit that are written without an exponent part. -/
  positional : Int → Bool
  /-- Whether a whole number is followed by `.0`. -/
  pointZero : Bool

namespace NumberStyle

def constant : NumberStyle := ⟨fun _ => true, false⟩

def plain : NumberStyle := ⟨fun e => -4 ≤ e && e < 16, true⟩

/-- The digits laid out around the point, or in front of an exponent. -/
def layout (s : NumberStyle) (d : Decimal) : String :=
  let digits := Nat.toDigits 10 d.digits
  let leading : Int := d.exponent + digits.length - 1
  if s.positional leading then
    if 0 ≤ d.exponent then
      String.ofList (digits ++ List.replicate d.exponent.toNat '0') ++ (if s.pointZero then ".0" else "")
    else if 0 ≤ leading then
      let whole := leading.toNat + 1
      String.ofList (digits.take whole ++ '.' :: digits.drop whole)
    else String.ofList ('0' :: '.' :: (List.replicate (-leading - 1).toNat '0' ++ digits))
  else
    let fraction := digits.drop 1
    String.ofList (digits.take 1 ++ (if fraction.isEmpty then [] else '.' :: fraction)) ++ "e" ++ toString leading

def render (s : NumberStyle) (f : Format) (d : Datum) : String :=
  let sign (negative : Bool) := if negative then "-" else ""
  match d with
  | .nan => "NaN"
  | .infinite negative => sign negative ++ "inf"
  | .finite negative m q => sign negative ++ s.layout (f.shortest m q)

def single (s : NumberStyle) (x : Single) : String := s.render .single x.datum

def double (s : NumberStyle) (x : Double) : String := s.render .double x.datum

end NumberStyle

end SlotCode.Text
