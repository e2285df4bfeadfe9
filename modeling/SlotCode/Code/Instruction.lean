/-
  SlotCode.Code.Instruction — the instructions of the register machine.

  An instruction names its registers by bare slots; the partition of each is fixed by
  the instruction, or by the kind that it carries. `r` is the destination, `a` and `b` are
  sources. Jumps name the address they go to, and a jump under construction may leave it
  open. All other instructions go on to the next address.
-/

import SlotCode.Arith.Operation
import SlotCode.Text.Decimal

namespace SlotCode

open SlotCode.Arith

abbrev ClassId := Nat

abbrev FunctionId := Nat

abbrev StaticId := Nat

/-- Where a jump goes. -/
inductive Label where
  /-- Not decided yet. -/
  | pending
  | address (n : Nat)
  deriving DecidableEq, Repr

namespace Label

def isPending : Label → Bool
  | .pending => true
  | .address _ => false

/-- The number of the pending label. -/
def pendingIndex : Nat := 4294967295

/-- The label as a number; the pending label stands for the largest one. -/
def index : Label → Nat
  | .pending => pendingIndex
  | .address n => n

def ofIndex (n : Nat) : Label := if n = pendingIndex then .pending else .address n

theorem ofIndex_eq_address {n : Nat} (h : n < pendingIndex) : ofIndex n = .address n := by
  simp [ofIndex, Nat.ne_of_lt h]

@[simp] theorem index_ofIndex (n : Nat) : (ofIndex n).index = n := by
  unfold ofIndex
  split <;> simp_all [index]

def text : Label → String
  | .pending => "@?"
  | .address n => "@" ++ n.repr

end Label

inductive Instruction where
  | const (r : Slot) (value : Scalar)
  /-- Loads text number `index` of the program. -/
  | text (r : Slot) (index : Nat)
  | null (r : Slot)
  | move (kind : Kind) (r a : Slot)
  /-- Integer arithmetic; the distance of a long shift is an int slot. -/
  | arith (w : Width) (op : IntOp) (r a b : Slot)
  | real (p : Precision) (op : FloatOp) (r a b : Slot)
  | neg (kind : Kind) (r a : Slot)
  /-- Bitwise complement. -/
  | inv (kind : Kind) (r a : Slot)
  /-- One when `a` is zero, else zero. -/
  | not (r a : Slot)
  | convert (c : Conversion) (r a : Slot)
  | test (op : CmpOp) (r a b : Slot)
  /-- Three-way comparison: -1, 0 or 1. -/
  | order (kind : Kind) (r a b : Slot)
  | same (op : CmpOp) (r a b : Slot)
  | arrayLength (r a : Slot)
  | nullCheck (r a : Slot)
  | arrayGet (kind : Kind) (r array index : Slot)
  | arraySet (kind : Kind) (array index value : Slot)
  | getField (kind : Kind) (r object : Slot) (field : Nat)
  | getStatic (kind : Kind) (r : Slot) (field : StaticId)
  | cast (r a : Slot) (target : ClassId)
  | instanceOf (r a : Slot) (target : ClassId)
  | lowerBound (index : Slot)
  | upperBound (index array : Slot)
  /-- Calls a native function as call site number `site` of the program says. -/
  | call (site : Nat)
  | goto (target : Label)
  /-- Jumps when `cond` is non-zero (`polarity = true`) or zero. -/
  | jumpIf (polarity : Bool) (cond : Slot) (target : Label)
  | unreachable
  /-- Holds a place in code under construction. -/
  | nop
  | stop
  deriving DecidableEq, Repr

namespace Instruction

def target? : Instruction → Option Label
  | .goto target | .jumpIf _ _ target => some target
  | _ => none

def isJump (i : Instruction) : Bool := i.target?.isSome

/-- The same jump to another address; what is no jump stays. -/
def retarget (i : Instruction) (target : Label) : Instruction :=
  match i with
  | .goto _ => .goto target
  | .jumpIf polarity cond _ => .jumpIf polarity cond target
  | i => i

/-- Whether a check of the instruction can fail when it runs. -/
def canFail : Instruction → Bool
  | .arith _ op _ _ _ => op.divides
  | .arrayLength .. | .nullCheck .. | .arrayGet .. | .arraySet .. | .getField .. | .cast .. | .lowerBound ..
  | .upperBound .. | .call .. | .unreachable => true
  | _ => false

/-! ## Description -/

/-- An instruction spelled out with the names of its parts. -/
def spelled (name : String) (parts : List (String × String)) : String :=
  name ++ " \x7b " ++ ", ".intercalate (parts.map fun (part, value) => part ++ ": " ++ value) ++ " \x7d"

def describe : Instruction → String
  | .const r (.int v) => spelled "IConst" [("r", r.text), ("value", toString v.toInt)]
  | .const r (.long v) => spelled "LConst" [("r", r.text), ("value", toString v.toInt)]
  | .const r (.float v) => spelled "FConst" [("r", r.text), ("value", Text.NumberStyle.plain.single v)]
  | .const r (.double v) => spelled "DConst" [("r", r.text), ("value", Text.NumberStyle.plain.double v)]
  | .text r index => spelled "SConst" [("r", r.text), ("index", index.repr)]
  | .null r => spelled "Null" [("r", r.text)]
  | .move kind r a => spelled "Move" [("kind", kind.name), ("r", r.text), ("a", a.text)]
  | .arith w op r a b =>
    spelled (match w with | .int => "IBin" | .long => "LBin")
      [("op", op.mnemonic.capitalize), ("r", r.text), ("a", a.text), ("b", b.text)]
  | .real p op r a b =>
    spelled (match p with | .float => "FBin" | .double => "DBin")
      [("op", op.mnemonic.capitalize), ("r", r.text), ("a", a.text), ("b", b.text)]
  | .neg kind r a => spelled "Neg" [("kind", kind.name), ("r", r.text), ("a", a.text)]
  | .inv kind r a => spelled "Inv" [("kind", kind.name), ("r", r.text), ("a", a.text)]
  | .not r a => spelled "Not" [("r", r.text), ("a", a.text)]
  | .convert c r a => spelled "Convert" [("op", c.mnemonic.map Char.toUpper), ("r", r.text), ("a", a.text)]
  | .test op r a b =>
    spelled "ICmp" [("op", op.mnemonic.capitalize), ("r", r.text), ("a", a.text), ("b", b.text)]
  | .order kind r a b => spelled "Compare" [("kind", kind.name), ("r", r.text), ("a", a.text), ("b", b.text)]
  | .same op r a b =>
    spelled "RefCmp" [("op", op.mnemonic.capitalize), ("r", r.text), ("a", a.text), ("b", b.text)]
  | .arrayLength r a => spelled "ArrayLength" [("r", r.text), ("a", a.text)]
  | .nullCheck r a => spelled "NullCheck" [("r", r.text), ("a", a.text)]
  | .arrayGet kind r array index =>
    spelled "ArrayGet" [("kind", kind.name), ("r", r.text), ("array", array.text), ("index", index.text)]
  | .arraySet kind array index value =>
    spelled "ArraySet" [("kind", kind.name), ("array", array.text), ("index", index.text), ("value", value.text)]
  | .getField kind r object field =>
    spelled "GetField" [("kind", kind.name), ("r", r.text), ("object", object.text), ("field", field.repr)]
  | .getStatic kind r field =>
    spelled "GetStatic" [("kind", kind.name), ("r", r.text), ("field", "StaticFieldId(" ++ field.repr ++ ")")]
  | .cast r a target => spelled "Cast" [("r", r.text), ("a", a.text), ("class", "ClassId(" ++ target.repr ++ ")")]
  | .instanceOf r a target =>
    spelled "InstanceOf" [("r", r.text), ("a", a.text), ("class", "ClassId(" ++ target.repr ++ ")")]
  | .lowerBound index => spelled "LowerBoundCheck" [("index", index.text)]
  | .upperBound index array => spelled "UpperBoundCheck" [("index", index.text), ("array", array.text)]
  | .call site => spelled "Call" [("site", site.repr)]
  | .goto target => spelled "Goto" [("target", target.text)]
  | .jumpIf true cond target => spelled "JumpIfTrue" [("cond", cond.text), ("target", target.text)]
  | .jumpIf false cond target => spelled "JumpIfFalse" [("cond", cond.text), ("target", target.text)]
  | .unreachable => "Unreachable"
  | .nop => "Nop"
  | .stop => "Stop"

end Instruction

end SlotCode
