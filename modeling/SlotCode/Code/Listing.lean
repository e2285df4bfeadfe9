/-
  SlotCode.Code.Listing — code as text.

  One instruction stands on a line, its destination first: `i2 = iadd i0, i1`. The
  addresses that some jump goes to are labelled `L0`, `L1` and so on in ascending order,
  and jumps name these labels. Without a program at hand (`Printer.standalone`) jumps show
  addresses, and texts and call sites show their numbers.
-/

import SlotCode.Code.Program
import SlotCode.Text.Quoted

namespace SlotCode

open SlotCode.Arith

/-- What a printer knows of the program around an instruction. -/
structure Printer where
  texts : Array String := #[]
  sites : Array CallSite := #[]
  /-- The labelled addresses, ascending. -/
  labels : List Nat := []

/-- The addresses that jumps go to, in the order of the jumps. -/
def Program.targets (p : Program) : List Nat :=
  p.code.toList.filterMap fun i =>
    match i.target? with
    | some (.address n) => some n
    | _ => none

/-- Enters a number in an ascending list, unless it is there. -/
def insertAscending (n : Nat) : List Nat → List Nat
  | [] => [n]
  | m :: rest => if n < m then n :: m :: rest else if n = m then m :: rest else m :: insertAscending n rest

/-- The labelled addresses: every target once, ascending. -/
def Program.labels (p : Program) : List Nat := p.targets.foldr insertAscending []

namespace Printer

def standalone : Printer := {}

def ofProgram (p : Program) : Printer := ⟨p.texts, p.sites, p.labels⟩

/-- The number of the label at an address. -/
def labelAt (p : Printer) (address : Nat) : Option Nat := p.labels.idxOf? address

def target (p : Printer) (l : Label) : String :=
  match l with
  | .pending => l.text
  | .address n =>
    match p.labelAt n with
    | some k => "L" ++ k.repr
    | none => l.text

/-- An operation and its operands. -/
def operation (name : String) (operands : List String) : String :=
  if operands.isEmpty then name else name ++ " " ++ ", ".intercalate operands

/-- What is assigned to a slot. -/
def assign (kind : Kind) (r : Slot) (value : String) : String := (TypedSlot.mk kind r).text ++ " = " ++ value

/-- An operation named for the kind it works on, such as `iadd`. -/
def onKind (kind : Kind) (name : String) (operands : List TypedSlot) : String :=
  operation (kind.letter.toString ++ name) (operands.map TypedSlot.text)

def scalar : Scalar → String
  | .int v => "icst " ++ toString v.toInt
  | .long v => "lcst " ++ toString v.toInt
  | .float v => "fcst " ++ Text.NumberStyle.constant.single v
  | .double v => "dcst " ++ Text.NumberStyle.constant.double v

def call (p : Printer) (site : Nat) : String :=
  match p.sites[site]? with
  | none => "call site#" ++ site.repr
  | some s =>
    let operands := (s.receiver.map (TypedSlot.mk .object)).toList ++ s.args
    let text := "call #" ++ s.function.repr ++ "(" ++ ", ".intercalate (operands.map TypedSlot.text) ++ ")"
    match s.result with
    | some r => assign r.kind r.slot text
    | none => text

def line (p : Printer) : Instruction → String
  | .const r value => assign value.kind r (scalar value)
  | .text r index =>
    assign .object r ("scst " ++ match p.texts[index]? with
      | some s => Text.quoted s
      | none => "#" ++ index.repr)
  | .null r => assign .object r "null"
  | .move kind r a => assign kind r (onKind kind "mov" [⟨kind, a⟩])
  | .arith .int op r a b => assign .int r (onKind .int op.mnemonic [⟨.int, a⟩, ⟨.int, b⟩])
  | .arith .long op r a b =>
    assign .long r (onKind .long op.mnemonic [⟨.long, a⟩, ⟨if op.isShift then .int else .long, b⟩])
  | .real p op r a b => assign p.kind r (onKind p.kind op.mnemonic [⟨p.kind, a⟩, ⟨p.kind, b⟩])
  | .neg kind r a => assign kind r (onKind kind "neg" [⟨kind, a⟩])
  | .inv kind r a => assign kind r (onKind kind "inv" [⟨kind, a⟩])
  | .not r a => assign .int r (operation "not" [(TypedSlot.mk .int a).text])
  | .convert c r a => assign c.target r (operation c.mnemonic [(TypedSlot.mk c.source a).text])
  | .test op r a b => assign .int r (onKind .int op.mnemonic [⟨.int, a⟩, ⟨.int, b⟩])
  | .order kind r a b => assign .int r (onKind kind "cmp" [⟨kind, a⟩, ⟨kind, b⟩])
  | .same op r a b => assign .int r (onKind .object op.mnemonic [⟨.object, a⟩, ⟨.object, b⟩])
  | .arrayLength r a => assign .int r (operation "arraylength" [(TypedSlot.mk .object a).text])
  | .nullCheck r a => assign .object r (operation "nullcheck" [(TypedSlot.mk .object a).text])
  | .arrayGet kind r array index => assign kind r (onKind kind "aget" [⟨.object, array⟩, ⟨.int, index⟩])
  | .arraySet kind array index value => onKind kind "aset" [⟨.object, array⟩, ⟨.int, index⟩, ⟨kind, value⟩]
  | .getField kind r object field =>
    assign kind r (operation "getfield" [(TypedSlot.mk .object object).text, "#" ++ field.repr])
  | .getStatic kind r field => assign kind r (operation "getstatic" ["#" ++ field.repr])
  | .cast r a target => assign .object r (operation "cast" [(TypedSlot.mk .object a).text, "class#" ++ target.repr])
  | .instanceOf r a target =>
    assign .int r (operation "instanceof" [(TypedSlot.mk .object a).text, "class#" ++ target.repr])
  | .lowerBound index => operation "lbcheck" [(TypedSlot.mk .int index).text]
  | .upperBound index array => operation "ubcheck" [(TypedSlot.mk .int index).text, (TypedSlot.mk .object array).text]
  | .call site => p.call site
  | .goto target => "goto " ++ p.target target
  | .jumpIf true cond target => "if-true " ++ (TypedSlot.mk .int cond).text ++ " goto " ++ p.target target
  | .jumpIf false cond target => "if-false " ++ (TypedSlot.mk .int cond).text ++ " goto " ++ p.target target
  | .unreachable => "unreachable"
  | .nop => "nop"
  | .stop => "stop"

end Printer

/-- One instruction without a program around it. -/
def Instruction.display (i : Instruction) : String := Printer.standalone.line i

/-! ## Whole programs -/

/-- The instructions indented, each label on a line of its own in front of its address. -/
def Program.listingLines (p : Program) : List String :=
  let printer := Printer.ofProgram p
  p.code.toList.zipIdx.flatMap fun (i, address) =>
    match printer.labelAt address with
    | some k => ["L" ++ k.repr ++ ":", "  " ++ printer.line i]
    | none => ["  " ++ printer.line i]

def Program.listing (p : Program) : String := String.join (p.listingLines.map (· ++ "\n"))

/-- A text moved to the right edge of a column. -/
def rightAligned (width : Nat) (s : String) : String := String.ofList (List.replicate (width - s.length) ' ') ++ s

/-- The program with its slot counts and texts, and every instruction with its address and label. -/
def Program.describe (p : Program) : String :=
  let printer := Printer.ofProgram p
  let c := p.counts
  let slots := s!"  slots: int={c.int} long={c.long} float={c.float} double={c.double} object={c.object}"
  let texts :=
    if p.texts.isEmpty then []
    else ["  strings: ["]
      ++ p.texts.toList.zipIdx.map (fun (s, k) => "    [" ++ k.repr ++ "] = " ++ Text.quoted s)
      ++ ["  ]"]
  let instructions := p.code.toList.zipIdx.map fun (i, address) =>
    let label := match printer.labelAt address with
      | some k => "L" ++ k.repr ++ ":"
      | none => ""
    "    " ++ rightAligned 4 address.repr ++ " " ++ rightAligned 4 label ++ "  " ++ printer.line i
  "\n".intercalate (["Program \x7b", slots] ++ texts ++ ["  instructions:"] ++ instructions ++ ["\x7d"])

end SlotCode
