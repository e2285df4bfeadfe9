/-
  SlotCode.Proofs.MachineSteps — what single instructions do, said with values instead of registers.

  An instruction reads registers, applies an operation on values and then changes the
  machine, or fails as the operation does. `Image.Does` says this of the next step of a
  machine, and `Image.Performs` of a step that writes the operation's value into a slot.

  Proved: reading and writing registers, and for each instruction other than jumps and
  calls which operation it applies.
-/

import SlotCode.Proofs.Contract
import SlotCode.Proofs.Effects
import SlotCode.Proofs.Meaning

namespace SlotCode

open SlotCode.Arith

/-! ## Registers -/

namespace Registers

variable {r : Registers} {t : TypedSlot} {s : Slot} {v : Value}

theorem get?_put_ne (h : t ≠ ⟨v.kind, s⟩) : (r.put s v).get? t = r.get? t := by
  obtain ⟨k, i⟩ := t
  have hi : k = v.kind → s ≠ i := fun hk he => h (by rw [hk, he])
  cases v <;> cases k <;> simp_all [put, get?, Value.kind]

theorem get?_put_self (h : r.has ⟨v.kind, s⟩ = true) : (r.put s v).get? ⟨v.kind, s⟩ = some v := by
  cases v <;> simp_all [put, get?, has, Value.kind]

theorem isSome_set {α : Type} (a : Array α) (s i : Nat) (v : α) : (a.setIfInBounds s v)[i]?.isSome = a[i]?.isSome := by
  rw [Array.getElem?_setIfInBounds]
  by_cases h : s = i <;> by_cases hi : i < a.size <;> simp [h, hi]

theorem has_put : (r.put s v).has t = r.has t := by
  obtain ⟨k, i⟩ := t
  cases v <;> cases k <;> simp [put, get?, has, isSome_set]

theorem has_of_get? (h : r.get? t = some v) : r.has t = true := by simp [has, h]

theorem get_of_get? (h : r.get? t = some v) : r.get t = .ok v := by simp [get, found, h]

/-! What a register of each kind holds. -/

theorem int_of_get? (h : r.get? ⟨.int, s⟩ = some v) : ∃ a, v = .int a ∧ r.int s = .ok a := by
  obtain ⟨a, ha, rfl⟩ := Option.map_eq_some_iff.1 (show r.ints[s]?.map Value.int = some v from h)
  exact ⟨a, rfl, by simp [int, found, ha]⟩

theorem long_of_get? (h : r.get? ⟨.long, s⟩ = some v) : ∃ a, v = .long a ∧ r.long s = .ok a := by
  obtain ⟨a, ha, rfl⟩ := Option.map_eq_some_iff.1 (show r.longs[s]?.map Value.long = some v from h)
  exact ⟨a, rfl, by simp [long, found, ha]⟩

theorem float_of_get? (h : r.get? ⟨.float, s⟩ = some v) : ∃ a, v = .float a ∧ r.float s = .ok a := by
  obtain ⟨a, ha, rfl⟩ := Option.map_eq_some_iff.1 (show r.floats[s]?.map Value.float = some v from h)
  exact ⟨a, rfl, by simp [float, found, ha]⟩

theorem double_of_get? (h : r.get? ⟨.double, s⟩ = some v) : ∃ a, v = .double a ∧ r.double s = .ok a := by
  obtain ⟨a, ha, rfl⟩ := Option.map_eq_some_iff.1 (show r.doubles[s]?.map Value.double = some v from h)
  exact ⟨a, rfl, by simp [double, found, ha]⟩

theorem ref_of_get? (h : r.get? ⟨.object, s⟩ = some v) : ∃ a, v = .ref a ∧ r.ref s = .ok a := by
  obtain ⟨a, ha, rfl⟩ := Option.map_eq_some_iff.1 (show r.refs[s]?.map Value.ref = some v from h)
  exact ⟨a, rfl, by simp [ref, found, ha]⟩

end Registers

/-! ## The checks of the machine are the faults of operations -/

namespace Fault

variable {α β : Type} (pc : Nat)

/-- The fault of an instruction at `pc`. -/
def place : Except Fault α → Except RuntimeError α
  | .ok a => .ok a
  | .error e => .error (e.at pc)

theorem place_pure (a : α) : place pc (pure a) = pure a := rfl

theorem place_bind (x : Except Fault α) (f : α → Except Fault β) :
    place pc (x >>= f) = place pc x >>= fun a => place pc (f a) := by
  cases x <;> rfl

theorem place_object (r : Option Ref) : place pc (object (.ref r)) = nonNull pc r := by
  cases r <;> rfl

theorem place_elements (o : Object) : place pc (elements o) = o.elements pc := by
  cases o <;> rfl

theorem place_position (index : Int32) (length : Nat) :
    place pc (position index length) = elementIndex pc index length := by
  unfold position elementIndex
  split <;> rfl

theorem place_expect (o : Option α) : place pc (expect o) = expectSome pc o := by
  cases o <;> rfl

theorem place_found (x : Except Missing α) : place pc (found x) = liftM x := by
  cases x <;> rfl

theorem lift_ok (a : α) : (liftM (Except.ok a : Except Missing α) : Except RuntimeError α) = pure a := rfl

theorem ok_bind {ε : Type} (a : α) (f : α → Except ε β) : (Except.ok a >>= f) = f a := rfl

end Fault

/-! ## What the next step does -/

namespace Machine

/-- The machine after an instruction that wrote `v`. -/
def wrote (m : Machine) (x : TypedSlot) (v : Value) : Machine :=
  { m with registers := m.registers.put x.slot v, pc := m.pc + 1 }

/-- The machine after an instruction that changed the world. -/
def moved (m : Machine) (w : World) : Machine := { m with world := w, pc := m.pc + 1 }

end Machine

namespace Image

variable {α : Type} {im : Image} {m : Machine} {x a b : TypedSlot} {v w : Value} {ins : Instruction}

/-! Jumps inside the code. -/

theorem step_goto {target : Nat} (hc : im.program.code[m.pc]? = some (.goto (.address target)))
    (ht : target < im.program.code.size) : im.step m = .ok { m with pc := target } := by
  simp only [step_eq, hc, effect, Program.jumpTo, Label.index, ht, if_true, commit]

theorem step_jumpIf {polarity : Bool} {cond : Slot} {target : Nat} {i : Int32}
    (hc : im.program.code[m.pc]? = some (.jumpIf polarity cond (.address target))) (ht : target < im.program.code.size)
    (hv : m.registers.get? ⟨.int, cond⟩ = some (.int i)) :
    im.step m = .ok { m with pc := if (i != 0) == polarity then target else m.pc + 1 } := by
  obtain ⟨j, hj, hint⟩ := Registers.int_of_get? hv
  cases hj
  simp only [step_eq, hc, effect, hint, Fault.lift_ok, pure_bind, Program.jumpTo, Label.index, ht, if_true]
  cases (i != 0) == polarity <;> rfl

/-! Operations. -/

/-- The next step applies an operation: it ends as `after` says, or fails as the operation does. -/
def Does (im : Image) (m : Machine) (result : Except Fault α) (after : α → Machine) : Prop :=
  im.step m = match result with
    | .ok a => .ok (after a)
    | .error e => .failed (e.at m.pc) m

/-- The next step writes the value of an operation into `x`, or fails as the operation does. -/
structure Performs (im : Image) (m : Machine) (x : TypedSlot) (result : Except Fault Value) : Prop where
  does : im.Does m result (m.wrote x)
  kind : ∀ v, result = .ok v → v.kind = x.kind

theorem does_of_effect {result : Except Fault α} {after : α → Machine} (effect : α → Effect)
    (hc : im.program.code[m.pc]? = some ins) (he : im.effect m ins = Fault.place m.pc (effect <$> result))
    (ha : ∀ a, im.commit m (effect a) = .ok (after a)) : im.Does m result after := by
  simp only [Does, step_eq, hc, he]
  cases result with
  | error e => rfl
  | ok a => exact ha a

theorem Does.map {β : Type} {result : Except Fault α} {after : β → Machine} {f : α → β}
    (h : im.Does m result fun a => after (f a)) : im.Does m (f <$> result) after := by
  cases result <;> exact h

namespace Performs

variable {result : Except Fault Value}

theorem of_effect (hc : im.program.code[m.pc]? = some ins) (hx : m.registers.has x = true)
    (hk : ∀ v, result = .ok v → v.kind = x.kind)
    (he : im.effect m ins = Fault.place m.pc (Effect.write x <$> result)) : im.Performs m x result := by
  refine ⟨?_, hk⟩
  simp only [Does, step_eq, hc, he]
  cases result with
  | error e => rfl
  | ok v => simp [Fault.place, Functor.map, Except.map, commit, Machine.write, Registers.set, hk v rfl, hx, Machine.next,
      Machine.wrote]

/-- A value that comes from the heap is checked when it is written. -/
theorem checked (hc : im.program.code[m.pc]? = some ins) (hx : m.registers.has x = true)
    (he : im.effect m ins = Fault.place m.pc (Effect.write x <$> result)) :
    im.Performs m x (result >>= Fault.ofKind (some x.kind)) := by
  cases result with
  | error e => exact of_effect hc hx (fun v hv => by cases hv) he
  | ok v =>
    by_cases hk : v.kind = x.kind
    · have hv : (Except.ok v >>= Fault.ofKind (some x.kind)) = .ok v := by
        simp [bind, Except.bind, Fault.ofKind, hk]
      rw [hv]
      exact of_effect hc hx (fun w hw => by cases hw; exact hk) he
    · have hv : (Except.ok v >>= Fault.ofKind (some x.kind)) = .error .invalidInstruction := by
        simp [bind, Except.bind, Fault.ofKind, hk]
      rw [hv]
      refine ⟨?_, fun w hw => by cases hw⟩
      simp [Does, step_eq, hc, he, Fault.place, Functor.map, Except.map, commit, Machine.write, Registers.set, hk, Fault.at]

end Performs

end Image

/-! ## Operators -/

theorem Arith.Conversion.kinds (c : Conversion) :
    c.signature.1.kind? = some c.source ∧ c.signature.2.kind? = some c.target := by
  cases c <;> exact ⟨rfl, rfl⟩

theorem UnaryOp.kind_apply {h : Heap} {op : UnaryOp} {v w : Value} (he : op.apply h v = .ok w) :
    op.resultType.kind? = some w.kind := by
  unfold UnaryOp.apply at he
  split at he
  case h_8 _ c =>
    cases hs : v.scalar?.bind c.apply? with
    | none => rw [hs] at he; cases he
    | some s =>
      rw [hs] at he
      cases he
      obtain ⟨t, -, ht⟩ := Option.bind_eq_some_iff.1 hs
      rw [Value.kind_ofScalar, Conversion.kind_apply? ht]
      exact c.kinds.2
  case h_9 =>
    obtain ⟨r, -, he⟩ := bind_eq_ok he
    obtain ⟨elements, -, he⟩ := bind_eq_ok he
    cases he
    rfl
  case h_10 =>
    obtain ⟨r, -, he⟩ := bind_eq_ok he
    cases he
    rfl
  case h_11 => cases he
  all_goals cases he; rfl

/-- A null check hands its operand on. -/
theorem UnaryOp.eq_of_nullCheck {h : Heap} {v w : Value} (he : UnaryOp.nullCheck.apply h v = .ok w) : w = v := by
  obtain ⟨r, hr, he⟩ := bind_eq_ok (show (Fault.object v >>= fun r => pure (.ref (some r))) = .ok w from he)
  cases he
  unfold Fault.object at hr
  split at hr <;> cases hr
  rfl

theorem BinaryOp.kind_apply {op : BinaryOp} {v w x : Value} (he : op.apply v w = .ok x) :
    op.resultType.kind? = some x.kind := by
  unfold BinaryOp.apply at he
  split at he
  case h_1 =>
    split at he
    · cases he; rfl
    · cases he
  case h_2 =>
    obtain ⟨distance, -, he⟩ := bind_eq_ok he
    split at he
    · cases he; rfl
    · cases he
  case h_11 => cases he
  all_goals cases he; rfl

namespace Image

variable {im : Image} {m : Machine} {x a b : TypedSlot} {v w : Value}

theorem effect_unary {op : UnaryOp} (ha : m.registers.get? a = some v) (hka : op.operandType.kind? = some a.kind)
    (hkx : op.resultType.kind? = some x.kind) :
    im.effect m (op.instruction x.slot a.slot) = Fault.place m.pc (Effect.write x <$> op.apply m.world.heap v) := by
  obtain ⟨kx, x⟩ := x
  obtain ⟨ka, a⟩ := a
  cases op with
  | not =>
    cases hka; cases hkx
    obtain ⟨i, rfl, hi⟩ := Registers.int_of_get? ha
    simp only [Image.effect, UnaryOp.instruction, hi]
    rfl
  | invert w =>
    cases w with
    | int =>
      cases hka; cases hkx
      obtain ⟨i, rfl, hi⟩ := Registers.int_of_get? ha
      simp only [Image.effect, UnaryOp.instruction, Width.kind, hi]
      rfl
    | long =>
      cases hka; cases hkx
      obtain ⟨i, rfl, hi⟩ := Registers.long_of_get? ha
      simp only [Image.effect, UnaryOp.instruction, Width.kind, hi]
      rfl
  | negate w =>
    cases w with
    | int =>
      cases hka; cases hkx
      obtain ⟨i, rfl, hi⟩ := Registers.int_of_get? ha
      simp only [Image.effect, UnaryOp.instruction, Width.kind, hi]
      rfl
    | long =>
      cases hka; cases hkx
      obtain ⟨i, rfl, hi⟩ := Registers.long_of_get? ha
      simp only [Image.effect, UnaryOp.instruction, Width.kind, hi]
      rfl
  | negateFloat p =>
    cases p with
    | float =>
      cases hka; cases hkx
      obtain ⟨i, rfl, hi⟩ := Registers.float_of_get? ha
      simp only [Image.effect, UnaryOp.instruction, Precision.kind, hi]
      rfl
    | double =>
      cases hka; cases hkx
      obtain ⟨i, rfl, hi⟩ := Registers.double_of_get? ha
      simp only [Image.effect, UnaryOp.instruction, Precision.kind, hi]
      rfl
  | convert c =>
    obtain rfl : c.source = ka := Option.some.inj (c.kinds.1.symm.trans hka)
    obtain rfl : c.target = kx := Option.some.inj (c.kinds.2.symm.trans hkx)
    simp only [Image.effect, UnaryOp.instruction, UnaryOp.apply, Registers.get_of_get? ha, Fault.lift_ok, pure_bind]
    cases v.scalar?.bind c.apply? <;> rfl
  | arrayLength =>
    cases hka; cases hkx
    obtain ⟨i, rfl, hi⟩ := Registers.ref_of_get? ha
    simp only [Image.effect, UnaryOp.instruction, hi, UnaryOp.apply, Fault.lift_ok, pure_bind, map_eq_pure_bind, bind_assoc,
      Fault.place_bind, Fault.place_pure, Fault.place_object, Fault.place_elements]
  | nullCheck =>
    cases hka; cases hkx
    obtain ⟨i, rfl, hi⟩ := Registers.ref_of_get? ha
    simp only [Image.effect, UnaryOp.instruction, hi, UnaryOp.apply, Fault.lift_ok, pure_bind, map_eq_pure_bind, bind_assoc,
      Fault.place_bind, Fault.place_pure, Fault.place_object]

theorem effect_binary {op : BinaryOp} {make : Slot → Slot → Slot → Instruction} (hop : op.form = .instruction make)
    (ha : m.registers.get? a = some v) (hb : m.registers.get? b = some w) (hka : op.firstType.kind? = some a.kind)
    (hkb : op.secondType.kind? = some b.kind) (hkx : op.resultType.kind? = some x.kind) :
    im.effect m (make x.slot a.slot b.slot) = Fault.place m.pc (Effect.write x <$> op.apply v w) := by
  obtain ⟨kx, x⟩ := x
  obtain ⟨ka, a⟩ := a
  obtain ⟨kb, b⟩ := b
  cases op with
  | arith width op =>
    cases hop
    cases width with
    | int =>
      cases hka; cases hkb; cases hkx
      obtain ⟨i, rfl, hi⟩ := Registers.int_of_get? ha
      obtain ⟨j, rfl, hj⟩ := Registers.int_of_get? hb
      simp only [Image.effect, hi, hj, Fault.lift_ok, pure_bind, BinaryOp.apply]
      cases op.onInt i j <;> rfl
    | long =>
      cases hka; cases hkx
      obtain ⟨i, rfl, hi⟩ := Registers.long_of_get? ha
      cases hs : op.isShift with
      | false =>
        obtain rfl : kb = .long := by simpa [BinaryOp.secondType, BinaryOp.signature, hs, ValueType.kind?, eq_comm] using hkb
        obtain ⟨j, rfl, hj⟩ := Registers.long_of_get? hb
        simp only [Image.effect, hi, hj, hs, Fault.lift_ok, pure_bind, BinaryOp.apply, Fault.longOperand, if_false,
          Bool.false_eq_true]
        cases hv : op.onLong i j <;> simp [bind, Except.bind, hv] <;> rfl
      | true =>
        obtain rfl : kb = .int := by simpa [BinaryOp.secondType, BinaryOp.signature, hs, ValueType.kind?, eq_comm] using hkb
        obtain ⟨j, rfl, hj⟩ := Registers.int_of_get? hb
        simp only [Image.effect, hi, hj, hs, Fault.lift_ok, pure_bind, BinaryOp.apply, Fault.longOperand, if_true, map_pure]
        cases hv : op.onLong i j.toInt64 <;> simp [bind, Except.bind, hv] <;> rfl
  | real p op =>
    cases hop
    cases p with
    | float =>
      cases hka; cases hkb; cases hkx
      obtain ⟨i, rfl, hi⟩ := Registers.float_of_get? ha
      obtain ⟨j, rfl, hj⟩ := Registers.float_of_get? hb
      simp only [Image.effect, hi, hj]
      rfl
    | double =>
      cases hka; cases hkb; cases hkx
      obtain ⟨i, rfl, hi⟩ := Registers.double_of_get? ha
      obtain ⟨j, rfl, hj⟩ := Registers.double_of_get? hb
      simp only [Image.effect, hi, hj]
      rfl
  | orderLong =>
    cases hop; cases hka; cases hkb; cases hkx
    obtain ⟨i, rfl, hi⟩ := Registers.long_of_get? ha
    obtain ⟨j, rfl, hj⟩ := Registers.long_of_get? hb
    simp only [Image.effect, hi, hj]
    rfl
  | orderFloat p =>
    cases hop
    cases p with
    | float =>
      cases hka; cases hkb; cases hkx
      obtain ⟨i, rfl, hi⟩ := Registers.float_of_get? ha
      obtain ⟨j, rfl, hj⟩ := Registers.float_of_get? hb
      simp only [Image.effect, Precision.kind, hi, hj]
      rfl
    | double =>
      cases hka; cases hkb; cases hkx
      obtain ⟨i, rfl, hi⟩ := Registers.double_of_get? ha
      obtain ⟨j, rfl, hj⟩ := Registers.double_of_get? hb
      simp only [Image.effect, Precision.kind, hi, hj]
      rfl
  | test op =>
    cases hop; cases hka; cases hkb; cases hkx
    obtain ⟨i, rfl, hi⟩ := Registers.int_of_get? ha
    obtain ⟨j, rfl, hj⟩ := Registers.int_of_get? hb
    simp only [Image.effect, hi, hj]
    rfl
  | refEq =>
    cases hop; cases hka; cases hkb; cases hkx
    obtain ⟨i, rfl, hi⟩ := Registers.ref_of_get? ha
    obtain ⟨j, rfl, hj⟩ := Registers.ref_of_get? hb
    simp only [Image.effect, hi, hj]
    rfl
  | refNe =>
    cases hop; cases hka; cases hkb; cases hkx
    obtain ⟨i, rfl, hi⟩ := Registers.ref_of_get? ha
    obtain ⟨j, rfl, hj⟩ := Registers.ref_of_get? hb
    simp only [Image.effect, hi, hj]
    rfl
  | and => cases hop
  | or => cases hop

/-! ## Which operation each instruction applies -/

theorem performs_unary {op : UnaryOp} (hc : im.program.code[m.pc]? = some (op.instruction x.slot a.slot))
    (hx : m.registers.has x = true) (ha : m.registers.get? a = some v) (hka : op.operandType.kind? = some a.kind)
    (hkx : op.resultType.kind? = some x.kind) : im.Performs m x (op.apply m.world.heap v) :=
  .of_effect hc hx (fun _ hw => Option.some.inj ((UnaryOp.kind_apply hw).symm.trans hkx)) (effect_unary ha hka hkx)

theorem performs_binary {op : BinaryOp} {make : Slot → Slot → Slot → Instruction} (hop : op.form = .instruction make)
    (hc : im.program.code[m.pc]? = some (make x.slot a.slot b.slot)) (hx : m.registers.has x = true)
    (ha : m.registers.get? a = some v) (hb : m.registers.get? b = some w) (hka : op.firstType.kind? = some a.kind)
    (hkb : op.secondType.kind? = some b.kind) (hkx : op.resultType.kind? = some x.kind) :
    im.Performs m x (op.apply v w) :=
  .of_effect hc hx (fun _ hw => Option.some.inj ((BinaryOp.kind_apply hw).symm.trans hkx))
    (effect_binary hop ha hb hka hkb hkx)

theorem performs_const {value : Scalar} (hc : im.program.code[m.pc]? = some (.const x.slot value))
    (hx : m.registers.has x = true) (hkx : value.kind = x.kind) : im.Performs m x (.ok (.ofScalar value)) := by
  refine .of_effect hc hx (fun v hv => ?_) ?_
  · cases hv
    rw [Value.kind_ofScalar, hkx]
  · obtain ⟨kx, x⟩ := x
    cases hkx
    rfl

theorem performs_null (hc : im.program.code[m.pc]? = some (.null x.slot)) (hx : m.registers.has x = true)
    (hkx : x.kind = .object) : im.Performs m x (.ok .null) := by
  obtain ⟨kx, x⟩ := x
  cases hkx
  exact .of_effect hc hx (fun v hv => by cases hv; rfl) rfl

theorem performs_text {index : Nat} (hc : im.program.code[m.pc]? = some (.text x.slot index))
    (hx : m.registers.has x = true) (hkx : x.kind = .object) :
    im.Performs m x ((fun r => .ref (some r)) <$> Fault.expect im.texts[index]?) := by
  obtain ⟨kx, x⟩ := x
  cases hkx
  refine .of_effect hc hx (fun v hv => ?_) ?_
  · cases ht : im.texts[index]? with
    | none => rw [ht] at hv; cases hv
    | some r => rw [ht] at hv; cases hv; rfl
  · simp only [effect, map_eq_pure_bind, bind_assoc, pure_bind, Fault.place_bind, Fault.place_pure, Fault.place_expect]

theorem performs_move (hc : im.program.code[m.pc]? = some (.move x.kind x.slot a.slot)) (hx : m.registers.has x = true)
    (ha : m.registers.get? a = some v) (hka : a.kind = x.kind) : im.Performs m x (.ok v) := by
  refine .of_effect hc hx (fun w hw => ?_) ?_
  · cases hw
    rw [Registers.kind_of_get? ha, hka]
  · obtain ⟨ka, a⟩ := a
    obtain ⟨kx, x⟩ := x
    cases hka
    simp only [effect, Registers.get_of_get? ha]
    rfl

/-- What a record holds at an index. -/
def heldAt (w : World) (object : Value) (index : Nat) : Except Fault Value := do
  match w.heap.get (← Fault.object object) with
  | .record _ fields => Fault.expect fields[index]?
  | _ => .error .invalidInstruction

theorem performs_getField {field : FieldRef} {index : Nat} {type : ValueType}
    (hf : im.env.classes.resolveField field.owner field.name = .ok (some (index, type)))
    (hc : im.program.code[m.pc]? = some (.getField x.kind x.slot a.slot index)) (hx : m.registers.has x = true)
    (ha : m.registers.get? a = some v) (hka : a.kind = .object) :
    im.Performs m x (im.env.fieldOf field (some x.kind) m.world v) := by
  obtain ⟨ka, a⟩ := a
  cases hka
  obtain ⟨r, rfl, hr⟩ := Registers.ref_of_get? ha
  have heff : im.effect m (.getField x.kind x.slot a index) =
      Fault.place m.pc (Effect.write x <$> heldAt m.world (.ref r) index) := by
    simp only [effect, heldAt, hr, Fault.lift_ok, pure_bind, map_eq_pure_bind, bind_assoc, Fault.place_bind, Fault.place_object]
    cases r with
    | none => rfl
    | some r =>
      simp only [nonNull, bind, Except.bind]
      cases m.world.heap.get r with
      | record c fields => cases hi : fields[index]? <;> simp [hi, expectSome, Fault.expect] <;> rfl
      | text s => rfl
      | array e => rfl
  have := Performs.checked hc hx heff
  rw [Environment.fieldOf, hf]
  refine (congrArg (im.Performs m x) ?_).mp this
  cases r with
  | none => rfl
  | some r =>
    simp only [heldAt, Fault.object, bind, Except.bind, Except.toOption, Option.join_some, Fault.expect]
    cases m.world.heap.get r <;> rfl

theorem performs_getStatic {field : FieldRef} {index : StaticId} {type : ValueType}
    (hf : im.env.resolveStatic field.owner field.name = some (index, type))
    (hc : im.program.code[m.pc]? = some (.getStatic x.kind x.slot index)) (hx : m.registers.has x = true) :
    im.Performs m x (im.env.staticOf field (some x.kind) m.world) := by
  have heff : im.effect m (.getStatic x.kind x.slot index) =
      Fault.place m.pc (Effect.write x <$> Fault.found (im.env.staticValue m.world index)) := by
    simp only [effect, map_eq_pure_bind, Fault.place_bind, Fault.place_pure, Fault.place_found]
  rw [Environment.staticOf, hf]
  exact Performs.checked hc hx heff

theorem performs_arrayGet (hc : im.program.code[m.pc]? = some (.arrayGet x.kind x.slot a.slot b.slot))
    (hx : m.registers.has x = true) (ha : m.registers.get? a = some v) (hb : m.registers.get? b = some w)
    (hka : a.kind = .object) (hkb : b.kind = .int) : im.Performs m x (World.elementOf (some x.kind) m.world v w) := by
  obtain ⟨ka, a⟩ := a
  obtain ⟨kb, b⟩ := b
  cases hka
  cases hkb
  obtain ⟨r, rfl, hr⟩ := Registers.ref_of_get? ha
  obtain ⟨i, rfl, hi⟩ := Registers.int_of_get? hb
  have heff : im.effect m (.arrayGet x.kind x.slot a b) = Fault.place m.pc (Effect.write x <$> (do
      let elements ← Fault.elements (m.world.heap.get (← Fault.object (.ref r)))
      Fault.expect (elements.get? (← Fault.position i elements.size)))) := by
    simp only [effect, hr, hi, Fault.lift_ok, pure_bind, map_eq_pure_bind, bind_assoc, Fault.place_bind, Fault.place_pure,
      Fault.place_object, Fault.place_elements, Fault.place_position, Fault.place_expect]
  have := Performs.checked hc hx heff
  simp only [bind_assoc] at this
  exact this

theorem performs_cast {className : String} {target : ClassId} (hf : im.env.classes.find? className = some target)
    (hc : im.program.code[m.pc]? = some (.cast x.slot a.slot target)) (hx : m.registers.has x = true)
    (ha : m.registers.get? a = some v) (hka : a.kind = .object) (hkx : x.kind = .object) :
    im.Performs m x (im.env.castTo className m.world v) := by
  obtain ⟨ka, a⟩ := a
  obtain ⟨kx, x⟩ := x
  cases hka
  cases hkx
  obtain ⟨r, rfl, hr⟩ := Registers.ref_of_get? ha
  cases r with
  | none =>
    refine .of_effect hc hx (fun w hw => ?_) ?_
    · rw [Environment.castTo, hf] at hw
      cases hw
      rfl
    · simp only [effect, hr, Environment.castTo, hf]
      rfl
  | some r =>
    refine .of_effect hc hx (fun w hw => ?_) ?_
    · rw [Environment.castTo, hf] at hw
      obtain ⟨yes, -, hw⟩ := bind_eq_ok (show (Fault.found _ >>= _) = _ from hw)
      cases yes with
      | true => cases hw; rfl
      | false =>
        obtain ⟨info, -, hw⟩ := bind_eq_ok (show (Fault.found _ >>= _) = _ from hw)
        cases hw
    · simp only [effect, hr, Environment.castTo, hf, Fault.lift_ok, pure_bind, Fault.expect, Fault.ok_bind]
      cases im.env.classes.isInstance (m.world.heap.get r) target with
      | error e => rfl
      | ok yes =>
        cases yes with
        | true => rfl
        | false => cases im.env.classes.classInfo target <;> rfl

theorem performs_instanceOf {className : String} {target : ClassId} (hf : im.env.classes.find? className = some target)
    (hc : im.program.code[m.pc]? = some (.instanceOf x.slot a.slot target)) (hx : m.registers.has x = true)
    (ha : m.registers.get? a = some v) (hka : a.kind = .object) (hkx : x.kind = .int) :
    im.Performs m x (im.env.isA className m.world v) := by
  obtain ⟨ka, a⟩ := a
  obtain ⟨kx, x⟩ := x
  cases hka
  cases hkx
  obtain ⟨r, rfl, hr⟩ := Registers.ref_of_get? ha
  cases r with
  | none =>
    refine .of_effect hc hx (fun w hw => ?_) ?_
    · rw [Environment.isA, hf] at hw
      cases hw
      rfl
    · simp only [effect, hr, Environment.isA, hf]
      rfl
  | some r =>
    refine .of_effect hc hx (fun w hw => ?_) ?_
    · rw [Environment.isA, hf] at hw
      obtain ⟨yes, -, hw⟩ := bind_eq_ok (show (Fault.found _ >>= _) = _ from hw)
      cases hw
      rfl
    · simp only [effect, hr, Environment.isA, hf, Fault.lift_ok, pure_bind, Fault.expect, Fault.ok_bind]
      cases im.env.classes.isInstance (m.world.heap.get r) target <;> rfl

/-! Instructions without a result. -/

theorem does_arraySet {c : TypedSlot} {u : Value} (hc : im.program.code[m.pc]? = some (.arraySet c.kind a.slot b.slot c.slot))
    (ha : m.registers.get? a = some v) (hb : m.registers.get? b = some w) (hu : m.registers.get? c = some u)
    (hka : a.kind = .object) (hkb : b.kind = .int) : im.Does m (m.world.storing v w u) m.moved := by
  obtain ⟨ka, a⟩ := a
  obtain ⟨kb, b⟩ := b
  cases hka
  cases hkb
  obtain ⟨r, rfl, hr⟩ := Registers.ref_of_get? ha
  obtain ⟨i, rfl, hi⟩ := Registers.int_of_get? hb
  let cell : Except Fault (Ref × Object) := do
    let object ← Fault.object (.ref r)
    let elements ← Fault.elements (m.world.heap.get object)
    return (object, .array (← Fault.expect (elements.set? (← Fault.position i elements.size) u)))
  have heff : im.effect m (.arraySet c.kind a b c.slot) = Fault.place m.pc ((fun p => .store p.1 p.2) <$> cell) := by
    simp only [cell, effect, hr, hi, Registers.get_of_get? hu, Fault.lift_ok, pure_bind, map_eq_pure_bind, bind_assoc,
      Fault.place_bind, Fault.place_pure, Fault.place_object, Fault.place_elements, Fault.place_position,
      Fault.place_expect]
  have hstore : m.world.storing (.ref r) (.int i) u = (fun p => m.world.store p.1 p.2) <$> cell := by
    simp only [cell, World.storing, Fault.int, Fault.ok_bind, map_eq_pure_bind, bind_assoc, pure_bind]
  rw [hstore]
  refine Does.map ?_
  exact does_of_effect (fun p : Ref × Object => .store p.1 p.2) hc heff fun _ => rfl

theorem does_lowerBound (hc : im.program.code[m.pc]? = some (.lowerBound a.slot)) (ha : m.registers.get? a = some v)
    (hka : a.kind = .int) : im.Does m (World.checkLower v) fun _ => m.next := by
  obtain ⟨ka, a⟩ := a
  cases hka
  obtain ⟨i, rfl, hi⟩ := Registers.int_of_get? ha
  refine does_of_effect (fun _ => .next) hc ?_ (fun _ => rfl)
  simp only [effect, hi, Fault.lift_ok, pure_bind, World.checkLower, Fault.int]
  by_cases h : i.toInt < 0
  · simp only [h, if_true, bind, Except.bind]
    rfl
  · simp only [h, if_false, bind, Except.bind]
    rfl

theorem does_upperBound (hc : im.program.code[m.pc]? = some (.upperBound a.slot b.slot))
    (ha : m.registers.get? a = some v) (hb : m.registers.get? b = some w) (hka : a.kind = .int) (hkb : b.kind = .object) :
    im.Does m (m.world.checkUpper v w) fun _ => m.next := by
  obtain ⟨ka, a⟩ := a
  obtain ⟨kb, b⟩ := b
  cases hka
  cases hkb
  obtain ⟨i, rfl, hi⟩ := Registers.int_of_get? ha
  obtain ⟨r, rfl, hr⟩ := Registers.ref_of_get? hb
  refine does_of_effect (fun _ => .next) hc ?_ (fun _ => rfl)
  simp only [effect, hi, hr, Fault.lift_ok, pure_bind, World.checkUpper, Fault.int, map_eq_pure_bind, bind_assoc,
    Fault.ok_bind, Fault.place_bind, Fault.place_object, Fault.place_elements]
  congr 1
  funext o
  congr 1
  funext e
  by_cases h : (e.size : Int) ≤ i.toInt
  · simp only [h, if_true]
    rfl
  · simp only [h, if_false]
    rfl

end Image

end SlotCode
