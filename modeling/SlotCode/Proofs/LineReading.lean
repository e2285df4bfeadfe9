/-
  SlotCode.Proofs.LineReading — the printed line of an instruction says which it is.

  A line is read in two halves. Its letters, which are what is left when all numbers are
  taken out, tell the form of the instruction: there are finitely many forms, and no two
  have the same letters. Its numerals, in the order in which they stand there, tell slots,
  indices, addresses and constants: words without digits keep them apart. Both halves are
  functions of the text alone, so equal lines have equal halves, and form and numbers
  together are the instruction again (`withNumbers_numbers`).

  Proved: `display_tells_apart`, for all instructions but those that load a floating-point
  constant.
-/

import Mathlib.Data.List.Nodup
import SlotCode.Code.Listing

namespace SlotCode

open SlotCode.Arith

namespace Text

/-! ## Letters and numerals -/

def isNumeral (c : Char) : Bool := c.isDigit || c == '-'

/-- A text without its numerals. -/
def letters (s : String) : List Char := s.toList.filter (!isNumeral ·)

/-- The numbers in a row of characters as they are written there; a hyphen alone is none. -/
def numeralsIn (cs : List Char) : List (List Char) := (cs.splitOnP (!isNumeral ·)).filter (·.any Char.isDigit)

def numerals (s : String) : List (List Char) := numeralsIn s.toList

def numeral (n : Int) : List Char := (toString n).toList

/-- A text without anything that can be part of a number. -/
def Plain (s : String) : Prop := ∀ c ∈ s.toList, isNumeral c = false

instance : DecidablePred Plain := fun s => List.decidableBAll (isNumeral · = false) s.toList

theorem letters_append (s t : String) : letters (s ++ t) = letters s ++ letters t := by
  simp [letters]

theorem digit_of_mem_repr {n : Nat} {c : Char} (h : c ∈ n.repr.toList) : c.isDigit = true := by
  rw [Nat.repr, String.toList_ofList] at h
  exact Nat.isDigit_of_mem_toDigits (by decide) (by decide) h

theorem any_isDigit_repr (n : Nat) : n.repr.toList.any Char.isDigit = true := by
  obtain ⟨c, hc⟩ := List.exists_mem_of_ne_nil _ (mt String.toList_eq_nil_iff.1 (Nat.repr_ne_empty (n := n)))
  exact List.any_eq_true.2 ⟨c, hc, digit_of_mem_repr hc⟩

theorem numeral_negSucc (n : Nat) : numeral (.negSucc n) = '-' :: (n + 1).repr.toList := by
  show ("-" ++ (n + 1).repr).toList = _
  rw [String.toList_append]
  rfl

theorem isNumeral_of_mem_numeral {n : Int} {c : Char} (h : c ∈ numeral n) : isNumeral c = true := by
  cases n with
  | ofNat n => simp [isNumeral, digit_of_mem_repr (n := n) h]
  | negSucc n =>
    rw [numeral_negSucc] at h
    rcases List.mem_cons.1 h with rfl | h
    · rfl
    · simp [isNumeral, digit_of_mem_repr h]

theorem any_isDigit_numeral (n : Int) : (numeral n).any Char.isDigit = true := by
  cases n with
  | ofNat n => exact any_isDigit_repr n
  | negSucc n => rw [numeral_negSucc, List.any_cons, any_isDigit_repr, Bool.or_true]

theorem repr_toList_injective {n m : Nat} (h : n.repr.toList = m.repr.toList) : n = m := by
  rw [Nat.repr, Nat.repr, String.toList_ofList, String.toList_ofList] at h
  rw [← Nat.ofDigitChars_ten_toDigits (n := n), h, Nat.ofDigitChars_ten_toDigits]

theorem numeral_injective {n m : Int} (h : numeral n = numeral m) : n = m := by
  have hsign : ∀ k l : Nat, k.repr.toList ≠ '-' :: l.repr.toList := fun k l hkl =>
    absurd (digit_of_mem_repr (n := k) (hkl ▸ List.mem_cons_self)) (by decide)
  cases n with
  | ofNat n =>
    cases m with
    | ofNat m => exact congrArg Int.ofNat (repr_toList_injective h)
    | negSucc m => exact absurd (h.trans (numeral_negSucc m)) (hsign n (m + 1))
  | negSucc n =>
    cases m with
    | ofNat m => exact absurd (h.symm.trans (numeral_negSucc n)) (hsign m (n + 1))
    | negSucc m =>
      rw [numeral_negSucc, numeral_negSucc, List.cons.injEq] at h
      exact congrArg Int.negSucc (Nat.succ.inj (repr_toList_injective h.2))

theorem letters_toString (n : Int) : letters (toString n) = [] := by
  rw [letters, List.filter_eq_nil_iff]
  intro c hc
  simp [isNumeral_of_mem_numeral hc]

theorem letters_repr (n : Nat) : letters n.repr = [] := letters_toString n

theorem numerals_toString (n : Int) : numerals (toString n) = [numeral n] := by
  have hone : (numeral n).splitOnP (!isNumeral ·) = [numeral n] :=
    List.splitOnP_eq_singleton fun c hc => by simp [isNumeral_of_mem_numeral hc]
  show numeralsIn (numeral n) = _
  rw [numeralsIn, hone, List.filter_singleton, any_isDigit_numeral]
  rfl

theorem numerals_repr (n : Nat) : numerals n.repr = [numeral n] := numerals_toString n

/-- A character that is part of no number keeps numerals apart. -/
theorem numeralsIn_append_cons {c : Char} (hc : isNumeral c = false) (xs ys : List Char) :
    numeralsIn (xs ++ c :: ys) = numeralsIn xs ++ numeralsIn ys := by
  rw [numeralsIn, List.splitOnP_append_cons (p := (!isNumeral ·)) xs ys (by simp [hc]), List.filter_append]
  rfl

theorem numeralsIn_plain {cs : List Char} (h : ∀ c ∈ cs, isNumeral c = false) (ys : List Char) :
    numeralsIn (cs ++ ys) = numeralsIn ys := by
  induction cs with
  | nil => rfl
  | cons c cs ih =>
    have hc := h c List.mem_cons_self
    have hrest := ih fun c' hc' => h c' (List.mem_cons_of_mem c hc')
    exact (numeralsIn_append_cons hc [] (cs ++ ys)).trans hrest

theorem numerals_after {w : String} (hw : Plain w) (t : String) : numerals (w ++ t) = numerals t := by
  rw [numerals, String.toList_append, numeralsIn_plain hw]
  rfl

theorem numerals_plain {w : String} (hw : Plain w) : numerals w = [] := by
  have h := numerals_after hw ""
  rwa [String.append_empty] at h

/-- Words keep numerals apart. -/
theorem numerals_between {w : String} (hne : w ≠ "") (hw : Plain w) (s t : String) :
    numerals (s ++ w ++ t) = numerals s ++ numerals t := by
  obtain ⟨c, cs, hcs⟩ := List.exists_cons_of_ne_nil (mt String.toList_eq_nil_iff.1 hne)
  have hc : isNumeral c = false := hw c (hcs ▸ List.mem_cons_self)
  have hrest : ∀ c' ∈ cs, isNumeral c' = false := fun c' hc' => hw c' (hcs ▸ List.mem_cons_of_mem c hc')
  rw [numerals, String.toList_append, String.toList_append, hcs, List.append_assoc, List.cons_append,
    numeralsIn_append_cons hc, numeralsIn_plain hrest]
  rfl

end Text

open Text

/-! ## The parts of a line -/

namespace Printer

theorem plain_letter (kind : Kind) : Plain kind.letter.toString := by
  cases kind <;> decide

theorem letters_letter (kind : Kind) : letters kind.letter.toString = [kind.letter] := by
  cases kind <;> decide

theorem letters_slot (s : TypedSlot) : letters s.text = [s.kind.letter] := by
  rw [TypedSlot.text, letters_append, letters_repr, List.append_nil, letters_letter]

theorem numerals_slot (s : TypedSlot) : numerals s.text = [numeral s.slot] := by
  rw [TypedSlot.text, numerals_after (plain_letter s.kind), numerals_repr]

theorem letters_assign (kind : Kind) (r : Slot) (value : String) :
    letters (assign kind r value) = kind.letter :: letters " = " ++ letters value := by
  rw [assign, letters_append, letters_append, letters_slot]
  rfl

theorem numerals_assign (kind : Kind) (r : Slot) (value : String) :
    numerals (assign kind r value) = numeral r :: numerals value := by
  rw [assign, numerals_between (by decide) (by decide), numerals_slot]
  rfl

theorem letters_operation (name : String) (operands : List String) : letters (operation name operands) =
    letters name ++ if operands.isEmpty then [] else letters " " ++ (letters ", ").intercalate (operands.map letters) := by
  have hjoined : letters (", ".intercalate operands) = (letters ", ").intercalate (operands.map letters) := by
    induction operands with
    | nil => rfl
    | cons s rest ih =>
      cases rest with
      | nil => simp
      | cons t rest =>
        rw [String.intercalate_cons_cons, letters_append, letters_append, ih]
        exact List.intercalate_cons_cons.symm
  unfold operation
  split_ifs
  · rw [List.append_nil]
  · rw [letters_append, letters_append, hjoined, List.append_assoc]

theorem numerals_operation (name : String) (operands : List String) :
    numerals (operation name operands) = numerals name ++ operands.flatMap numerals := by
  have hjoined : numerals (", ".intercalate operands) = operands.flatMap numerals := by
    induction operands with
    | nil => rfl
    | cons s rest ih =>
      cases rest with
      | nil => simp
      | cons t rest =>
        rw [String.intercalate_cons_cons, numerals_between (by decide) (by decide), ih]
        rfl
  unfold operation
  split_ifs with hempty
  · rw [List.isEmpty_iff.1 hempty, List.flatMap_nil, List.append_nil]
  · rw [numerals_between (by decide) (by decide), hjoined]

theorem letters_onKind (kind : Kind) (name : String) (operands : List TypedSlot) : letters (onKind kind name operands) =
    kind.letter :: letters name ++ if operands.isEmpty then [] else
      letters " " ++ (letters ", ").intercalate (operands.map fun s => [s.kind.letter]) := by
  rw [onKind, letters_operation, letters_append, letters_letter, List.map_map, List.isEmpty_map]
  simp only [Function.comp_def, letters_slot]
  rfl

theorem numerals_slots {name : String} (hname : Plain name) (operands : List TypedSlot) :
    numerals (operation name (operands.map TypedSlot.text)) = operands.map fun s => numeral s.slot := by
  rw [numerals_operation, numerals_plain hname, List.nil_append, List.flatMap_map]
  simp only [numerals_slot, List.map_eq_flatMap]

theorem numerals_onKind {name : String} (hname : Plain name) (kind : Kind) (operands : List TypedSlot) :
    numerals (onKind kind name operands) = operands.map fun s => numeral s.slot := by
  refine numerals_slots ?_ operands
  intro c hc
  rw [String.toList_append, List.mem_append] at hc
  exact hc.elim (plain_letter kind c) (hname c)

/-- Without a program around it, a jump shows its address. -/
theorem target_standalone (l : Label) : standalone.target l = l.text := by
  cases l <;> rfl

theorem line_text (r : Slot) (n : Nat) : standalone.line (.text r n) = assign .object r ("scst " ++ ("#" ++ n.repr)) := rfl

theorem line_call (n : Nat) : standalone.line (.call n) = "call site#" ++ n.repr := rfl

theorem numerals_marked {mark : String} (h : Plain mark) (n : Nat) : numerals (mark ++ n.repr) = [numeral n] := by
  rw [numerals_after h, numerals_repr]

theorem numerals_assign_number {word : String} (h : Plain word) (kind : Kind) (r : Slot) (n : Int) :
    numerals (assign kind r (word ++ toString n)) = [numeral r, numeral n] := by
  rw [numerals_assign, numerals_after h, numerals_toString]

theorem numerals_assign_onKind {name : String} (hname : Plain name) (kind : Kind) (r : Slot) (on : Kind)
    (operands : List TypedSlot) :
    numerals (assign kind r (onKind on name operands)) = numeral r :: operands.map fun s => numeral s.slot := by
  rw [numerals_assign, numerals_onKind hname]

theorem numerals_assign_slots {name : String} (hname : Plain name) (kind : Kind) (r : Slot) (operands : List TypedSlot) :
    numerals (assign kind r (operation name (operands.map TypedSlot.text))) =
      numeral r :: operands.map fun s => numeral s.slot := by
  rw [numerals_assign, numerals_slots hname]

theorem numerals_target (l : Label) : numerals l.text = match l with
    | .pending => []
    | .address n => [numeral n] := by
  cases l with
  | pending => exact numerals_plain (by decide)
  | address n => exact numerals_marked (by decide) n

theorem numerals_jumpIf (polarity : Bool) (cond : Slot) (target : Label) :
    numerals (standalone.line (.jumpIf polarity cond target)) = numeral cond :: numerals target.text := by
  -- the hyphen in the name of a branch is no numeral, so the blank after it is what is between
  have hbetween : ∀ name : String, numerals name = [] →
      numerals (name ++ " " ++ (TypedSlot.mk .int cond).text ++ " goto " ++ target.text) =
        numeral cond :: numerals target.text := by
    intro name hname
    rw [numerals_between (by decide) (by decide), numerals_between (by decide) (by decide), hname, numerals_slot]
    rfl
  cases polarity with
  | true => rw [line, target_standalone]; exact hbetween "if-true" (by decide +kernel)
  | false => rw [line, target_standalone]; exact hbetween "if-false" (by decide +kernel)

/-- A number at the end, after some mark, is one more operand. -/
theorem numerals_assign_marked {name mark : String} (hname : Plain name) (hmark : Plain mark) (kind : Kind) (r : Slot)
    (operands : List TypedSlot) (n : Nat) :
    numerals (assign kind r (operation name (operands.map TypedSlot.text ++ [mark ++ n.repr]))) =
      numeral r :: (operands.map fun s => numeral s.slot) ++ [numeral n] := by
  rw [numerals_assign, numerals_operation, numerals_plain hname, List.nil_append, List.flatMap_append, List.flatMap_map,
    List.flatMap_singleton, numerals_marked hmark]
  simp only [numerals_slot, List.map_eq_flatMap]
  rfl

end Printer

/-! ## Forms and numbers -/

namespace Instruction

/-- Whether an instruction loads a floating-point constant. -/
def loadsReal : Instruction → Bool
  | .const _ (.float _) | .const _ (.double _) => true
  | _ => false

/-- The numbers of an instruction in the order in which its line has them, that in the name of a conversion included. -/
def numbers : Instruction → List Int
  | .const r (.int v) => [r, v.toInt]
  | .const r (.long v) => [r, v.toInt]
  | .const r _ | .null r => [r]
  | .text r n | .getStatic _ r n => [r, n]
  | .move _ r a | .neg _ r a | .inv _ r a | .not r a | .arrayLength r a | .nullCheck r a => [r, a]
  | .convert _ r a => [r, 2, a]
  | .arith _ _ r a b | .real _ _ r a b | .test _ r a b | .order _ r a b | .same _ r a b => [r, a, b]
  | .arrayGet _ r a b | .arraySet _ r a b | .getField _ r a b | .cast r a b | .instanceOf r a b => [r, a, b]
  | .lowerBound n | .call n | .goto (.address n) | .jumpIf _ n .pending => [n]
  | .upperBound a b | .jumpIf _ a (.address b) => [a, b]
  | .goto .pending | .unreachable | .nop | .stop => []

/-- The instruction of the same form with other numbers; those that are not given are zero. -/
def withNumbers (i : Instruction) (ns : List Int) : Instruction :=
  let n (k : Nat) : Nat := (ns.getD k 0).toNat
  match i with
  | .const _ (.int _) => .const (n 0) (.int (.ofInt (ns.getD 1 0)))
  | .const _ (.long _) => .const (n 0) (.long (.ofInt (ns.getD 1 0)))
  | .const _ value => .const (n 0) value
  | .text _ _ => .text (n 0) (n 1)
  | .null _ => .null (n 0)
  | .move kind _ _ => .move kind (n 0) (n 1)
  | .arith w op _ _ _ => .arith w op (n 0) (n 1) (n 2)
  | .real p op _ _ _ => .real p op (n 0) (n 1) (n 2)
  | .neg kind _ _ => .neg kind (n 0) (n 1)
  | .inv kind _ _ => .inv kind (n 0) (n 1)
  | .not _ _ => .not (n 0) (n 1)
  | .convert c _ _ => .convert c (n 0) (n 2)
  | .test op _ _ _ => .test op (n 0) (n 1) (n 2)
  | .order kind _ _ _ => .order kind (n 0) (n 1) (n 2)
  | .same op _ _ _ => .same op (n 0) (n 1) (n 2)
  | .arrayLength _ _ => .arrayLength (n 0) (n 1)
  | .nullCheck _ _ => .nullCheck (n 0) (n 1)
  | .arrayGet kind _ _ _ => .arrayGet kind (n 0) (n 1) (n 2)
  | .arraySet kind _ _ _ => .arraySet kind (n 0) (n 1) (n 2)
  | .getField kind _ _ _ => .getField kind (n 0) (n 1) (n 2)
  | .getStatic kind _ _ => .getStatic kind (n 0) (n 1)
  | .cast _ _ _ => .cast (n 0) (n 1) (n 2)
  | .instanceOf _ _ _ => .instanceOf (n 0) (n 1) (n 2)
  | .lowerBound _ => .lowerBound (n 0)
  | .upperBound _ _ => .upperBound (n 0) (n 1)
  | .call _ => .call (n 0)
  | .goto .pending => .goto .pending
  | .goto (.address _) => .goto (.address (n 0))
  | .jumpIf polarity _ .pending => .jumpIf polarity (n 0) .pending
  | .jumpIf polarity _ (.address _) => .jumpIf polarity (n 0) (.address (n 1))
  | .unreachable => .unreachable
  | .nop => .nop
  | .stop => .stop

theorem withNumbers_numbers (i : Instruction) : i.withNumbers i.numbers = i := by
  cases i with
  | const r value =>
    cases value with
    | int v => exact congrArg (fun v => const r (.int v)) (Int32.ofInt_toInt v)
    | long v => exact congrArg (fun v => const r (.long v)) (Int64.ofInt_toInt v)
    | float v => rfl
    | double v => rfl
  | goto target => cases target <;> rfl
  | jumpIf polarity cond target => cases target <;> rfl
  | _ => rfl

/-- The letters of a line do not depend on its numbers. -/
theorem letters_withNumbers (i : Instruction) (ns : List Int) : letters (i.withNumbers ns).display = letters i.display := by
  cases i with
  | const r value =>
    cases value <;>
      simp only [withNumbers, display, Printer.line, Scalar.kind, Printer.letters_assign, Printer.scalar, letters_append,
        letters_toString]
  | arith w op r a b =>
    cases w <;> simp only [withNumbers, display, Printer.line, Printer.letters_assign, Printer.letters_onKind,
      List.isEmpty_cons, List.map_cons, List.map_nil]
  | text r n =>
    simp only [withNumbers, display, Printer.line_text, Printer.letters_assign, letters_append, letters_repr]
  | call n => simp only [withNumbers, display, Printer.line_call, letters_append, letters_repr]
  | goto target =>
    cases target <;> simp only [withNumbers, display, Printer.line, Printer.target_standalone, Label.text, letters_append,
      letters_repr]
  | jumpIf polarity cond target =>
    cases polarity <;> cases target <;> simp only [withNumbers, display, Printer.line, Printer.target_standalone, Label.text,
      letters_append, letters_repr, Printer.letters_slot]
  | _ =>
    simp only [withNumbers, display, Printer.line, Printer.letters_assign, Printer.letters_onKind, Printer.letters_operation,
      Printer.letters_slot, letters_append, letters_repr, List.isEmpty_cons, List.map_cons, List.map_nil]

theorem numerals_display {i : Instruction} (h : i.loadsReal = false) : numerals i.display = i.numbers.map numeral := by
  cases i with
  | const r value =>
    cases value with
    | int v => exact Printer.numerals_assign_number (by decide) _ _ _
    | long v => exact Printer.numerals_assign_number (by decide) _ _ _
    | float v => cases h
    | double v => cases h
  | text r n =>
    rw [display, Printer.line_text, Printer.numerals_assign, numerals_after (by decide), Printer.numerals_marked (by decide)]
    rfl
  | null r => exact Printer.numerals_assign _ _ _
  | move kind r a => exact Printer.numerals_assign_onKind (by decide) _ _ _ _
  | arith w op r a b =>
    have hop : Plain op.mnemonic := by cases op <;> decide
    cases w <;> exact Printer.numerals_assign_onKind hop _ _ _ _
  | real p op r a b => exact Printer.numerals_assign_onKind (by cases op <;> decide) _ _ _ _
  | neg kind r a => exact Printer.numerals_assign_onKind (by decide) _ _ _ _
  | inv kind r a => exact Printer.numerals_assign_onKind (by decide) _ _ _ _
  | not r a => exact Printer.numerals_assign_slots (by decide) _ _ [_]
  | convert c r a =>
    have hc : numerals c.mnemonic = [numeral 2] := by cases c <;> decide +kernel
    rw [display, Printer.line, Printer.numerals_assign, Printer.numerals_operation, hc, List.flatMap_singleton,
      Printer.numerals_slot]
    rfl
  | test op r a b => exact Printer.numerals_assign_onKind (by cases op <;> decide) _ _ _ _
  | order kind r a b => exact Printer.numerals_assign_onKind (by decide) _ _ _ _
  | same op r a b => exact Printer.numerals_assign_onKind (by cases op <;> decide) _ _ _ _
  | arrayLength r a => exact Printer.numerals_assign_slots (by decide) _ _ [_]
  | nullCheck r a => exact Printer.numerals_assign_slots (by decide) _ _ [_]
  | arrayGet kind r array index => exact Printer.numerals_assign_onKind (by decide) _ _ _ _
  | arraySet kind array index value => exact Printer.numerals_onKind (by decide) _ _
  | getField kind r object field => exact Printer.numerals_assign_marked (by decide) (by decide) _ _ [_] _
  | getStatic kind r field => exact Printer.numerals_assign_marked (by decide) (by decide) _ _ [] _
  | cast r a target => exact Printer.numerals_assign_marked (by decide) (by decide) _ _ [_] _
  | instanceOf r a target => exact Printer.numerals_assign_marked (by decide) (by decide) _ _ [_] _
  | lowerBound index => exact Printer.numerals_slots (by decide) [_]
  | upperBound index array => exact Printer.numerals_slots (by decide) [_, _]
  | call site => exact Printer.numerals_marked (by decide) _
  | goto target =>
    rw [display, Printer.line, Printer.target_standalone, numerals_after (by decide), Printer.numerals_target]
    cases target <;> rfl
  | jumpIf polarity cond target =>
    rw [display, Printer.numerals_jumpIf, Printer.numerals_target]
    cases target <;> rfl
  | unreachable => exact numerals_plain (by decide)
  | nop => exact numerals_plain (by decide)
  | stop => exact numerals_plain (by decide)

/-- Every form once, with zeros for its numbers. -/
def forms : List Instruction := List.flatten [
  [.const 0 (.int 0), .const 0 (.long 0), .text 0 0, .null 0, .not 0 0, .arrayLength 0 0, .nullCheck 0 0, .cast 0 0 0,
    .instanceOf 0 0 0, .lowerBound 0, .upperBound 0 0, .call 0, .unreachable, .nop, .stop],
  Kind.all.flatMap fun k => [.move k 0 0, .neg k 0 0, .inv k 0 0, .order k 0 0 0, .arrayGet k 0 0 0, .arraySet k 0 0 0,
    .getField k 0 0 0, .getStatic k 0 0],
  IntOp.all.flatMap fun op => [.arith .int op 0 0 0, .arith .long op 0 0 0],
  FloatOp.all.flatMap fun op => [.real .float op 0 0 0, .real .double op 0 0 0],
  CmpOp.all.flatMap fun op => [.test op 0 0 0, .same op 0 0 0],
  Conversion.all.map fun c => .convert c 0 0,
  [Label.pending, .address 0].flatMap fun l => [.goto l, .jumpIf true 0 l, .jumpIf false 0 l]]

theorem mem_forms {i : Instruction} (h : i.loadsReal = false) : i.withNumbers [] ∈ forms := by
  have hkind : ∀ k : Kind, k ∈ Kind.all := by intro k; cases k <;> decide
  have hint : ∀ op : IntOp, op ∈ IntOp.all := by intro op; cases op <;> decide
  have hfloat : ∀ op : FloatOp, op ∈ FloatOp.all := by intro op; cases op <;> decide
  have hcmp : ∀ op : CmpOp, op ∈ CmpOp.all := by intro op; cases op <;> decide
  have hconversion : ∀ c : Conversion, c ∈ Conversion.all := by intro c; cases c <;> decide
  cases i with
  | const r value =>
    cases value with
    | int v => simp [forms, withNumbers]
    | long v => simp [forms, withNumbers]
    | float v => cases h
    | double v => cases h
  | arith w op r a b => cases w <;> simp [forms, withNumbers, hint]
  | real p op r a b => cases p <;> simp [forms, withNumbers, hfloat]
  | goto target => cases target <;> simp [forms, withNumbers]
  | jumpIf polarity cond target => cases polarity <;> cases target <;> simp [forms, withNumbers]
  | _ => simp [forms, withNumbers, hkind, hcmp, hconversion]

/-- No two forms have the same letters. -/
theorem forms_nodup : (forms.map fun i => letters i.display).Nodup := by
  -- The numerals are taken out of each part beforehand, so that only short rows are left to compare.
  simp only [forms, Kind.all, IntOp.all, FloatOp.all, CmpOp.all, Conversion.all, List.flatten_cons, List.flatten_nil,
    List.flatMap_cons, List.flatMap_nil, List.map_cons, List.map_nil, List.cons_append, List.nil_append, List.append_nil,
    display, Printer.line, Printer.letters_assign, Printer.letters_operation, Printer.letters_onKind, List.isEmpty,
    letters_append, Printer.letters_slot, letters_repr, Printer.scalar, Bool.false_eq_true, if_false]
  decide +kernel

theorem withNumbers_withNumbers (i : Instruction) (ms ns : List Int) : (i.withNumbers ms).withNumbers ns = i.withNumbers ns := by
  cases i with
  | const r value => cases value <;> rfl
  | goto target => cases target <;> rfl
  | jumpIf polarity cond target => cases target <;> rfl
  | _ => rfl

/-- Equal letters, equal form. -/
theorem form_of_letters {i j : Instruction} (hi : i.loadsReal = false) (hj : j.loadsReal = false)
    (h : letters i.display = letters j.display) : i.withNumbers [] = j.withNumbers [] := by
  refine List.inj_on_of_nodup_map forms_nodup (mem_forms hi) (mem_forms hj) ?_
  rw [letters_withNumbers, letters_withNumbers, h]

/-- Equal numerals, equal numbers. -/
theorem numbers_of_numerals {i j : Instruction} (hi : i.loadsReal = false) (hj : j.loadsReal = false)
    (h : numerals i.display = numerals j.display) : i.numbers = j.numbers := by
  rw [numerals_display hi, numerals_display hj] at h
  exact List.map_injective_iff.2 (fun n m => numeral_injective) h

/-- The line of an instruction, printed without a program around it, is the line of no other: floating-point constants
    apart, two instructions that print the same are the same. -/
theorem display_tells_apart {i j : Instruction} (hi : i.loadsReal = false) (hj : j.loadsReal = false)
    (h : i.display = j.display) : i = j := by
  have hform := form_of_letters hi hj (congrArg letters h)
  have hnumbers := numbers_of_numerals hi hj (congrArg numerals h)
  calc i = (i.withNumbers []).withNumbers i.numbers := by rw [withNumbers_withNumbers, withNumbers_numbers]
    _ = (j.withNumbers []).withNumbers j.numbers := by rw [hform, hnumbers]
    _ = j := by rw [withNumbers_withNumbers, withNumbers_numbers]

/-- A patched branch prints as the branch to that address, so it is that branch. -/
theorem patched_branch_told : ((jumpIf true 3 .pending).retarget (.ofIndex 7)).display = "if-true i3 goto @7" ∧
    (jumpIf true 3 .pending).retarget (.ofIndex 7) = jumpIf true 3 (.address 7) :=
  ⟨by decide +kernel, display_tells_apart (by decide) (by decide) (by decide +kernel)⟩

end Instruction

end SlotCode
