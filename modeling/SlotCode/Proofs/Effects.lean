/-
  SlotCode.Proofs.Effects — a step in two halves.

  For proofs about all instructions a step is better cut in two. `effect` reads registers
  and heap, makes every check of the instruction and says what is to happen; it changes
  nothing. `commit` lets it happen: one register or one object is written, control moves,
  or a native is called. That a step can be cut so is a fact about the order in which the
  instructions check and write: an instruction that wrote before its last check would leave
  the written register behind where it fails, and `commit` would not.

  Proved: the step in place does what the two halves do, for every machine, also where it
  fails (`Image.step_eq`).
-/

import SlotCode.Machine.Step

namespace SlotCode

open SlotCode.Arith

/-- What an instruction does once its checks have passed. -/
inductive Effect where
  | next
  | write (r : TypedSlot) (v : Value)
  | store (r : Ref) (o : Object)
  | invoke (id : FunctionId) (f : NativeFunction) (args : List Value) (result : Option TypedSlot)
  | jump (target : Nat)
  | halt

/-- The address a jump goes to, if the program has it. -/
def Program.jumpTo (p : Program) (pc : Nat) (target : Label) : Except RuntimeError Effect :=
  if target.index < p.code.size then .ok (.jump target.index) else .error (.invalidJump target.index pc)

/-! ## The two halves -/

namespace Image

/-- What an instruction at the program counter does. -/
def effect (im : Image) (m : Machine) (i : Instruction) : Except RuntimeError Effect := do
  let pc := m.pc
  let regs := m.registers
  let heap := m.world.heap
  match i with
  | .const r value => pure (.write ⟨value.kind, r⟩ (.ofScalar value))
  | .text r index => pure (.write ⟨.object, r⟩ (.ref (some (← expectSome pc im.texts[index]?))))
  | .null r => pure (.write ⟨.object, r⟩ .null)
  | .move kind r a => pure (.write ⟨kind, r⟩ (← regs.get ⟨kind, a⟩))
  | .arith .int op r a b =>
    match op.onInt (← regs.int a) (← regs.int b) with
    | some v => pure (.write ⟨.int, r⟩ (.int v))
    | none => throw (.divisionByZero pc)
  | .arith .long op r a b =>
    let distance ← if op.isShift then (·.toInt64) <$> regs.int b else regs.long b
    match op.onLong (← regs.long a) distance with
    | some v => pure (.write ⟨.long, r⟩ (.long v))
    | none => throw (.divisionByZero pc)
  | .real .float op r a b => pure (.write ⟨.float, r⟩ (.float (op.onSingle (← regs.float a) (← regs.float b))))
  | .real .double op r a b => pure (.write ⟨.double, r⟩ (.double (op.onDouble (← regs.double a) (← regs.double b))))
  | .neg .int r a => pure (.write ⟨.int, r⟩ (.int (-(← regs.int a))))
  | .neg .long r a => pure (.write ⟨.long, r⟩ (.long (-(← regs.long a))))
  | .neg .float r a => pure (.write ⟨.float, r⟩ (.float (← regs.float a).neg))
  | .neg .double r a => pure (.write ⟨.double, r⟩ (.double (← regs.double a).neg))
  | .neg .object _ _ => throw (.invalidInstruction pc)
  | .inv .int r a => pure (.write ⟨.int, r⟩ (.int (~~~(← regs.int a))))
  | .inv .long r a => pure (.write ⟨.long, r⟩ (.long (~~~(← regs.long a))))
  | .inv _ _ _ => throw (.invalidInstruction pc)
  | .not r a => pure (.write ⟨.int, r⟩ (.ofBool ((← regs.int a) == 0)))
  | .convert c r a =>
    let v ← expectSome pc ((← regs.get ⟨c.source, a⟩).scalar?.bind c.apply?)
    pure (.write ⟨c.target, r⟩ (.ofScalar v))
  | .test op r a b => pure (.write ⟨.int, r⟩ (.ofBool (op.holds (some (compare (← regs.int a) (← regs.int b))))))
  | .order kind r a b =>
    let order ← match kind with
      | .int => pure (compare (← regs.int a) (← regs.int b))
      | .long => pure (compare (← regs.long a) (← regs.long b))
      | .float => pure ((← regs.float a).totalCompare (← regs.float b))
      | .double => pure ((← regs.double a).totalCompare (← regs.double b))
      | .object => throw (.invalidInstruction pc)
    pure (.write ⟨.int, r⟩ (.int (orderNumber order)))
  | .same op r a b =>
    let same := (← regs.ref a) == (← regs.ref b)
    match op with
    | .eq => pure (.write ⟨.int, r⟩ (.ofBool same))
    | .ne => pure (.write ⟨.int, r⟩ (.ofBool !same))
    | _ => throw (.invalidInstruction pc)
  | .arrayLength r a =>
    let elements ← (heap.get (← nonNull pc (← regs.ref a))).elements pc
    pure (.write ⟨.int, r⟩ (.int (Int32.ofNat elements.size)))
  | .nullCheck r a => pure (.write ⟨.object, r⟩ (.ref (some (← nonNull pc (← regs.ref a)))))
  | .arrayGet kind r array index =>
    let object ← nonNull pc (← regs.ref array)
    let index ← regs.int index
    let elements ← (heap.get object).elements pc
    let v ← expectSome pc (elements.get? (← elementIndex pc index elements.size))
    pure (.write ⟨kind, r⟩ v)
  | .arraySet kind array index value =>
    let object ← nonNull pc (← regs.ref array)
    let index ← regs.int index
    let v ← regs.get ⟨kind, value⟩
    let elements ← (heap.get object).elements pc
    let elements ← expectSome pc (elements.set? (← elementIndex pc index elements.size) v)
    pure (.store object (.array elements))
  | .getField kind r object field =>
    match heap.get (← nonNull pc (← regs.ref object)) with
    | .record _ fields => pure (.write ⟨kind, r⟩ (← expectSome pc fields[field]?))
    | _ => throw (.invalidInstruction pc)
  | .getStatic kind r field => pure (.write ⟨kind, r⟩ (← im.env.staticValue m.world field))
  | .cast r a target =>
    let value ← regs.ref a
    if let some object := value then
      unless ← im.env.classes.isInstance (heap.get object) target do
        throw (.classCast (← im.env.classes.classInfo target).name pc)
    pure (.write ⟨.object, r⟩ (.ref value))
  | .instanceOf r a target =>
    match ← regs.ref a with
    | some object => pure (.write ⟨.int, r⟩ (.ofBool (← im.env.classes.isInstance (heap.get object) target)))
    | none => pure (.write ⟨.int, r⟩ (.ofBool false))
  | .lowerBound index =>
    let index ← regs.int index
    if index.toInt < 0 then throw (.indexOutOfBounds index none pc)
    pure .next
  | .upperBound index array =>
    let elements ← (heap.get (← nonNull pc (← regs.ref array))).elements pc
    let index ← regs.int index
    if (elements.size : Int) ≤ index.toInt then throw (.indexOutOfBounds index (some elements.size) pc)
    pure .next
  | .call site =>
    let site ← expectSome pc im.program.sites[site]?
    let f ← im.env.function site.function
    let receiver ← match site.receiver with
      | some slot => pure [Value.ref (some (← nonNull pc (← regs.ref slot)))]
      | none => pure []
    let args ← site.args.mapM fun slot => regs.get slot
    pure (.invoke site.function f (receiver ++ args) site.result)
  | .goto target => im.program.jumpTo pc target
  | .jumpIf polarity cond target =>
    if ((← regs.int cond) != 0) == polarity then im.program.jumpTo pc target else pure .next
  | .unreachable => throw (.unreachable pc)
  | .nop => throw (.invalidInstruction pc)
  | .stop => pure .halt

end Image

namespace Machine

def next (m : Machine) : Machine := { m with pc := m.pc + 1 }

/-- Writes a register and goes on; `refused` is the error for a value of another kind. -/
def write (m : Machine) (s : TypedSlot) (v : Value) (refused : RuntimeError) : StepResult :=
  match m.registers.set s v with
  | .ok (some registers) => .ok { m with registers }.next
  | .ok none => .failed refused m
  | .error what => .failed (.missing what) m

end Machine

namespace Image

def commit (im : Image) (m : Machine) : Effect → StepResult
  | .next => .ok m.next
  | .write s v => m.write s v (.invalidInstruction m.pc)
  | .store r o => .ok { m with world := m.world.store r o }.next
  | .jump target => .ok { m with pc := target }
  | .halt => .ok { m with stopped := true }
  | .invoke id f args result =>
    let (outcome, world) := im.env.invoke id f args m.world
    let m := { m with world }
    match outcome with
    | .error (.missing what) => .failed (.missing what) m
    | .error (.failed message) => .failed (.native f.qualifiedName m.pc (.failed message)) m
    | .ok v =>
      match result with
      | some s => m.write s v (.native f.qualifiedName m.pc (.wrongKind s.kind))
      | none => .ok m.next

end Image

/-! ## Kinds of values -/

theorem Registers.kind_of_get? {r : Registers} {t : TypedSlot} {v : Value} (h : r.get? t = some v) : v.kind = t.kind := by
  obtain ⟨k, s⟩ := t
  cases k <;> simp only [get?, Option.map_eq_some_iff] at h <;> obtain ⟨a, -, rfl⟩ := h <;> rfl

theorem Registers.get?_of_get {r : Registers} {x : TypedSlot} {v : Value} (h : r.get x = .ok v) : r.get? x = some v := by
  unfold Registers.get Registers.found at h
  split at h
  · rename_i hv
    cases h
    exact hv
  · cases h

theorem Arith.Conversion.kind_apply? {c : Conversion} {s t : Scalar} (h : c.apply? s = some t) : t.kind = c.target := by
  cases c <;> cases s <;> simp [ Conversion.apply?] at h <;> subst h <;> rfl

/-! ## The halves make the step -/

theorem lift_eq_ok {α : Type} {x : Except Missing α} {a : α} (h : (liftM x : Except RuntimeError α) = .ok a) : x = .ok a := by
  cases x with
  | error what => cases h
  | ok b => cases h; rfl

theorem eq_some_of_expectSome {α : Type} {pc : Nat} {o : Option α} {a : α} (h : expectSome pc o = .ok a) : o = some a := by
  cases o with
  | none => cases h
  | some b => cases h; rfl

/-- Where the work leaves the machine. -/
def Act.result (x : Act Unit) (m : Machine) : StepResult :=
  match x m with
  | .ok _ m => .ok m
  | .error e m => .failed e m

/-- What becomes of the machine after the first half. -/
def Image.settle (im : Image) (m : Machine) : Except RuntimeError Effect → StepResult
  | .ok e => im.commit m e
  | .error e => .failed e m

/-- The work only reads: it gives what `y` gives, and the machine stays as it is. -/
def Reads {α : Type} (m : Machine) (x : Act α) (y : Except RuntimeError α) : Prop :=
  x m = match y with
    | .ok a => .ok a m
    | .error e => .error e m

/-- The work does to the machine what the two halves do. -/
def Settles (im : Image) (m : Machine) (x : Act Unit) (y : Except RuntimeError Effect) : Prop :=
  x.result m = im.settle m y

section

variable {α β : Type} {im : Image} {m : Machine}

theorem Act.run_bind (x : Act α) (f : α → Act β) (m : Machine) : (x >>= f) m =
    match x m with
    | .ok a m => f a m
    | .error e m => .error e m := by
  show EStateM.bind x f m = _
  unfold EStateM.bind
  cases x m <;> rfl

namespace Reads

theorem pure (a : α) : Reads m (Pure.pure a) (Pure.pure a) := rfl

theorem bind {x : Act α} {y : Except RuntimeError α} {f : α → Act β} {g : α → Except RuntimeError β} (hx : Reads m x y)
    (hf : ∀ a, Reads m (f a) (g a)) : Reads m (x >>= f) (y >>= g) := by
  unfold Reads at hx ⊢
  rw [Act.run_bind, hx]
  cases y with
  | error e => rfl
  | ok a => exact hf a

theorem map {x : Act α} {y : Except RuntimeError α} (f : α → β) (hx : Reads m x y) : Reads m (f <$> x) (f <$> y) := by
  unfold Reads at hx
  show EStateM.map f x m = _
  cases y <;> simp only [EStateM.map, hx] <;> rfl

theorem lift (y : Except RuntimeError α) : Reads m (liftM y) y := by
  cases y <;> rfl

theorem register (f : Registers → Except Missing α) :
    Reads m (get >>= fun m : Machine => (liftM (f m.registers) : Act α)) (liftM (f m.registers)) := by
  unfold Reads
  rw [Act.run_bind]
  exact lift (liftM (f m.registers))

theorem int (s : Slot) : Reads m (Act.int s) (liftM (m.registers.int s)) := register (·.int s)

theorem long (s : Slot) : Reads m (Act.long s) (liftM (m.registers.long s)) := register (·.long s)

theorem float (s : Slot) : Reads m (Act.float s) (liftM (m.registers.float s)) := register (·.float s)

theorem double (s : Slot) : Reads m (Act.double s) (liftM (m.registers.double s)) := register (·.double s)

theorem ref (s : Slot) : Reads m (Act.ref s) (liftM (m.registers.ref s)) := register (·.ref s)

theorem value (s : TypedSlot) : Reads m (Act.value s) (liftM (m.registers.get s)) := register (·.get s)

theorem values (xs : List TypedSlot) :
    Reads m (xs.mapM Act.value) (xs.mapM fun x => (liftM (m.registers.get x) : Except RuntimeError Value)) := by
  induction xs with
  | nil => exact .pure _
  | cons x xs ih =>
    rw [List.mapM_cons, List.mapM_cons]
    exact (value x).bind fun _ => ih.bind fun _ => .pure _

end Reads

namespace Settles

variable {e : RuntimeError} {s : Slot} {x : TypedSlot} {v : Value}

theorem fail {f : α → Act Unit} : Settles im m (throw e >>= f) (throw e) := rfl

/-- Both read the same first. -/
theorem bind {x : Act α} {y : Except RuntimeError α} {f : α → Act Unit} {g : α → Except RuntimeError Effect}
    (hx : Reads m x y) (hf : ∀ a, y = .ok a → Settles im m (f a) (g a)) : Settles im m (x >>= f) (y >>= g) := by
  unfold Reads at hx
  unfold Settles Act.result
  rw [Act.run_bind, hx]
  cases y with
  | error e => rfl
  | ok a => exact hf a rfl

theorem object {r : Ref} {f : Object → Act Unit} {y : Except RuntimeError Effect}
    (h : Settles im m (f (m.world.heap.get r)) y) : Settles im m (Act.object r >>= f) y := h

theorem next : Settles im m (Act.goTo (m.pc + 1)) (pure .next) := rfl

/-- A write into the partition of the value meets no check of kinds. -/
theorem assign (hk : v.kind = x.kind) :
    Settles im m (Act.assign x.slot v >>= fun _ => Act.goTo (m.pc + 1)) (pure (.write x v)) := by
  obtain ⟨k, s⟩ := x
  obtain rfl : v.kind = k := hk
  have hrun : Act.assign s v m = if m.registers.has ⟨v.kind, s⟩ then .ok () { m with registers := m.registers.put s v }
      else .error (.missing (.register ⟨v.kind, s⟩)) m := by
    show (ite _ _ _ : Act Unit) m = _
    split <;> rfl
  have hcommit : im.settle m (pure (.write ⟨v.kind, s⟩ v)) = m.write ⟨v.kind, s⟩ v (.invalidInstruction m.pc) := rfl
  unfold Settles Act.result
  rw [Act.run_bind, hrun, hcommit, Machine.write, Registers.set]
  by_cases hhas : m.registers.has ⟨v.kind, s⟩ = true
  · simp [hhas, Act.goTo]
    rfl
  · simp [hhas]

/-- A write that looks at the kind of the value first. -/
theorem result_offer (refused : RuntimeError) :
    (Act.offer x v >>= fun fits =>
      if fits = true then Act.goTo (m.pc + 1) else throw refused >>= fun _ : Unit => Act.goTo (m.pc + 1)).result m =
      m.write x v refused := by
  have hrun : Act.offer x v m = match m.registers.set x v with
      | .ok (some registers) => .ok true { m with registers }
      | .ok none => .ok false m
      | .error what => .error (.missing what) m := by
    unfold Act.offer
    rw [Act.run_bind]
    show ((liftM (m.registers.set x v) : Act (Option Registers)) >>= _) m = _
    rw [Act.run_bind]
    cases m.registers.set x v with
    | error what => rfl
    | ok r => cases r <;> rfl
  unfold Act.result
  rw [Act.run_bind, hrun, Machine.write]
  cases m.registers.set x v with
  | error what => rfl
  | ok r => cases r <;> rfl

theorem offer : Settles im m (Act.offer x v >>= fun fits =>
    if fits = true then Act.goTo (m.pc + 1) else throw (.invalidInstruction m.pc) >>= fun _ : Unit => Act.goTo (m.pc + 1))
    (pure (.write x v)) := result_offer _

theorem offerElement {r : Ref} {elements : Elements} {i : Nat} : Settles im m (Act.offerElement r elements i v >>= fun fits =>
    if fits = true then Act.goTo (m.pc + 1) else throw (.invalidInstruction m.pc) >>= fun _ : Unit => Act.goTo (m.pc + 1))
    (expectSome m.pc (elements.set? i v) >>= fun elements => pure (.store r (.array elements))) := by
  unfold Act.offerElement
  cases elements.set? i v <;> rfl

/-- The native runs before the kind of its value is looked at. -/
theorem invoke {id : FunctionId} {f : NativeFunction} {args : List Value} {result : Option TypedSlot} :
    Settles im m (Act.invoke im m.pc id f args >>= fun v => match result with
      | some x => Act.offer x v >>= fun fits =>
        if fits = true then Act.goTo (m.pc + 1)
        else throw (.native f.qualifiedName m.pc (.wrongKind x.kind)) >>= fun _ : Unit => Act.goTo (m.pc + 1)
      | _ => Act.goTo (m.pc + 1)) (pure (.invoke id f args result)) := by
  have hrun : Act.invoke im m.pc id f args m = match im.env.invoke id f args m.world with
      | (.ok v, world) => .ok v { m with world }
      | (.error (.missing what), world) => .error (.missing what) { m with world }
      | (.error (.failed message), world) => .error (.native f.qualifiedName m.pc (.failed message)) { m with world } := by
    have hget : (get : Act Machine) m = .ok m m := rfl
    unfold Act.invoke
    rw [Act.run_bind, hget]
    dsimp only
    rcases im.env.invoke id f args m.world with ⟨(message | what) | v, world⟩ <;> rfl
  unfold Settles Act.result
  rw [Act.run_bind, hrun]
  show _ = im.commit m (.invoke id f args result)
  simp only [Image.commit]
  rcases im.env.invoke id f args m.world with ⟨(message | what) | v, world⟩
  · rfl
  · rfl
  · cases result with
    | none => rfl
    | some x => exact result_offer (m := { m with world }) _

theorem jump {target : Label} {f : Nat → Act Unit} (hf : ∀ address, f address = Act.goTo address) :
    Settles im m (liftM (im.program.address m.pc target) >>= f) (im.program.jumpTo m.pc target) := by
  unfold Program.address Program.jumpTo
  split
  · show (f target.index).result m = _
    rw [hf]
    rfl
  · rfl

end Settles

/-- What an operation on longs does, its second operand being there. -/
def Machine.onLong (m : Machine) (op : IntOp) (r a : Slot) (distance : Int64) : Except RuntimeError Effect := do
  match op.onLong (← m.registers.long a) distance with
  | some v => pure (.write ⟨.long, r⟩ (.long v))
  | none => throw (.divisionByZero m.pc)

/-- An instruction in place does what its two halves do. -/
theorem Image.execute_settles (im : Image) (m : Machine) (i : Instruction) :
    Settles im m (im.execute m.pc i) (im.effect m i) := by
  cases i with
  | const r value => exact .assign (x := ⟨_, r⟩) (Value.kind_ofScalar value)
  | text r index => exact .bind (.lift _) fun _ _ => .assign (x := ⟨_, r⟩) rfl
  | null r => exact .assign (x := ⟨_, r⟩) rfl
  | move kind r a =>
    refine .bind (.value _) fun v hv => .assign (x := ⟨kind, r⟩) ?_
    exact Registers.kind_of_get? (t := ⟨kind, a⟩) (Registers.get?_of_get (lift_eq_ok hv))
  | arith w op r a b =>
    cases w with
    | int =>
      refine .bind (.int a) fun x _ => .bind (.int b) fun y _ => ?_
      cases op.onInt x y with
      | some v => exact .assign (x := ⟨_, r⟩) rfl
      | none => exact .fail
    | long =>
      have hdone : ∀ distance, Settles im m (Act.long a >>= fun x => match op.onLong x distance with
          | some v => Act.assign r (.long v) >>= fun _ => Act.goTo (m.pc + 1)
          | none => throw (.divisionByZero m.pc) >>= fun _ : Unit => Act.goTo (m.pc + 1)) (m.onLong op r a distance) := by
        refine fun distance => .bind (.long a) fun x _ => ?_
        cases op.onLong x distance with
        | some v => exact .assign (x := ⟨_, r⟩) rfl
        | none => exact .fail
      unfold Image.execute Image.effect
      dsimp only
      split
      · exact .bind (.map _ (.int b)) fun distance _ => hdone distance
      · exact .bind (.long b) fun distance _ => hdone distance
  | real p op r a b =>
    cases p with
    | float => exact .bind (.float a) fun _ _ => .bind (.float b) fun _ _ => .assign (x := ⟨_, r⟩) rfl
    | double => exact .bind (.double a) fun _ _ => .bind (.double b) fun _ _ => .assign (x := ⟨_, r⟩) rfl
  | neg kind r a =>
    cases kind with
    | int => exact .bind (.int a) fun _ _ => .assign (x := ⟨_, r⟩) rfl
    | long => exact .bind (.long a) fun _ _ => .assign (x := ⟨_, r⟩) rfl
    | float => exact .bind (.float a) fun _ _ => .assign (x := ⟨_, r⟩) rfl
    | double => exact .bind (.double a) fun _ _ => .assign (x := ⟨_, r⟩) rfl
    | object => exact .fail
  | inv kind r a =>
    cases kind with
    | int => exact .bind (.int a) fun _ _ => .assign (x := ⟨_, r⟩) rfl
    | long => exact .bind (.long a) fun _ _ => .assign (x := ⟨_, r⟩) rfl
    | _ => exact .fail
  | not r a => exact .bind (.int a) fun _ _ => .assign (x := ⟨_, r⟩) rfl
  | convert c r a =>
    refine .bind (.value _) fun v _ => .bind (.lift _) fun s hs => .assign (x := ⟨c.target, r⟩) ?_
    obtain ⟨t, -, ht⟩ := Option.bind_eq_some_iff.1 (eq_some_of_expectSome hs)
    exact (Value.kind_ofScalar s).trans (Conversion.kind_apply? ht)
  | test op r a b => exact .bind (.int a) fun _ _ => .bind (.int b) fun _ _ => .assign (x := ⟨_, r⟩) rfl
  | order kind r a b =>
    cases kind with
    | int => exact .bind (.int a) fun _ _ => .bind (.int b) fun _ _ => .assign (x := ⟨_, r⟩) rfl
    | long => exact .bind (.long a) fun _ _ => .bind (.long b) fun _ _ => .assign (x := ⟨_, r⟩) rfl
    | float => exact .bind (.float a) fun _ _ => .bind (.float b) fun _ _ => .assign (x := ⟨_, r⟩) rfl
    | double => exact .bind (.double a) fun _ _ => .bind (.double b) fun _ _ => .assign (x := ⟨_, r⟩) rfl
    | object => exact .fail
  | same op r a b =>
    refine .bind (.ref a) fun _ _ => .bind (.ref b) fun _ _ => ?_
    cases op with
    | eq => exact .assign (x := ⟨_, r⟩) rfl
    | ne => exact .assign (x := ⟨_, r⟩) rfl
    | _ => exact .fail
  | arrayLength r a =>
    refine .bind (.ref a) fun _ _ => .bind (.lift _) fun _ _ => .object (.bind (.lift _) fun _ _ => ?_)
    exact .assign (x := ⟨_, r⟩) rfl
  | nullCheck r a => exact .bind (.ref a) fun _ _ => .bind (.lift _) fun _ _ => .assign (x := ⟨_, r⟩) rfl
  | arrayGet kind r array index =>
    refine .bind (.ref array) fun _ _ => .bind (.lift _) fun _ _ => .bind (.int index) fun _ _ => .object ?_
    exact .bind (.lift _) fun _ _ => .bind (.lift _) fun _ _ => .bind (.lift _) fun _ _ => .offer
  | arraySet kind array index value =>
    refine .bind (.ref array) fun _ _ => .bind (.lift _) fun _ _ => .bind (.int index) fun _ _ => ?_
    refine .bind (.value _) fun _ _ => .object (.bind (.lift _) fun _ _ => .bind (.lift _) fun _ _ => .offerElement)
  | getField kind r object field =>
    refine .bind (.ref object) fun _ _ => .bind (.lift _) fun o _ => .object ?_
    cases m.world.heap.get o with
    | record classId fields => exact .bind (.lift _) fun _ _ => .offer
    | text s => exact .fail
    | array elements => exact .fail
  | getStatic kind r field => exact .bind (.lift (liftM (im.env.staticValue m.world field))) fun _ _ => .offer
  | cast r a target =>
    refine .bind (.ref a) fun value _ => ?_
    cases value with
    | none => exact .assign (x := ⟨_, r⟩) rfl
    | some o =>
      refine .object (.bind (.lift (liftM (im.env.classes.isInstance _ target))) fun fits _ => ?_)
      cases fits with
      | true => exact .assign (x := ⟨_, r⟩) rfl
      | false => exact .bind (.lift (liftM (im.env.classes.classInfo target))) fun _ _ => .fail
  | instanceOf r a target =>
    refine .bind (.ref a) fun value _ => ?_
    cases value with
    | none => exact .assign (x := ⟨_, r⟩) rfl
    | some o =>
      exact .object (.bind (.lift (liftM (im.env.classes.isInstance _ target))) fun _ _ => .assign (x := ⟨_, r⟩) rfl)
  | lowerBound index =>
    refine .bind (.int index) fun x _ => ?_
    dsimp only
    split
    · exact .fail
    · exact .next
  | upperBound index array =>
    refine .bind (.ref array) fun _ _ => .bind (.lift _) fun _ _ => .object (.bind (.lift _) fun _ _ => ?_)
    refine .bind (.int index) fun _ _ => ?_
    dsimp only
    split
    · exact .fail
    · exact .next
  | call site =>
    refine .bind (.lift _) fun c _ => .bind (.lift (liftM (im.env.function c.function))) fun f _ => ?_
    have hdone : ∀ receiver, Settles im m (c.args.mapM Act.value >>= fun args =>
        Act.invoke im m.pc c.function f (receiver ++ args) >>= fun v => match c.result with
          | some x => Act.offer x v >>= fun fits =>
            if fits = true then Act.goTo (m.pc + 1)
            else throw (.native f.qualifiedName m.pc (.wrongKind x.kind)) >>= fun _ : Unit => Act.goTo (m.pc + 1)
          | _ => Act.goTo (m.pc + 1)) (do
            let args ← c.args.mapM fun slot => m.registers.get slot
            pure (.invoke c.function f (receiver ++ args) c.result)) :=
      fun receiver => .bind (.values _) fun args _ => .invoke
    dsimp only
    cases c.receiver with
    | none => exact hdone []
    | some slot => exact .bind (.ref slot) fun _ _ => .bind (.lift _) fun o _ => hdone [.ref (some o)]
  | goto target => exact .jump fun _ => rfl
  | jumpIf polarity cond target =>
    refine .bind (.int cond) fun c _ => ?_
    dsimp only
    split
    · exact .jump fun _ => rfl
    · exact .next
  | unreachable => exact .fail
  | nop => exact .fail
  | stop => rfl

/-- A step makes the checks of its instruction and then lets its effect happen. -/
theorem Image.step_eq (im : Image) (m : Machine) : im.step m =
    match im.program.code[m.pc]? with
    | none => .failed (.invalidJump m.pc m.pc) m
    | some i =>
      match im.effect m i with
      | .ok e => im.commit m e
      | .error e => .failed e m := by
  have hstep : im.step m = im.dispatch.result m := rfl
  have hget : ∀ f : Machine → Act Unit, (get >>= f) m = f m m := fun _ => rfl
  rw [hstep, Act.result, Image.dispatch, hget]
  cases im.program.code[m.pc]? with
  | none => rfl
  | some i =>
    refine (im.execute_settles m i).trans ?_
    dsimp only
    cases im.effect m i <;> rfl

end

end SlotCode
