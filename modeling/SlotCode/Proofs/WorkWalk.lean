/-
  SlotCode.Proofs.WorkWalk — the walk does the work of each node that it builds, once.

  One lemma for each way of lowering a node: its children add nothing, since each of them
  is built when it is left, and its own instructions add the work that the node has. Then
  the walk, by induction on its room. Every nested call goes one node further down a way
  without repetition, so with as much room as the arena has nodes, and one more, the walk
  never comes to the point where there is none (`walkOver`).
-/

import SlotCode.Proofs.Nesting
import SlotCode.Proofs.Operands

namespace SlotCode

theorem Expr.operation?_connective {e : Expr} {k : Connective} (h : e.connective? = some k) (env : Environment)
    (kind : Option Kind) : e.operation? env kind = none ∧ e.callee? env = none := by
  unfold Expr.connective? at h
  split at h <;> cases h <;> exact ⟨rfl, rfl⟩

namespace Lowering

/-- Two walks do the same for the children of the node at hand, whose work is done with them. -/
structure Walk.Works (ctx : Context) (path : List NodeId) (w' w : Walk) : Prop where
  build : ∀ c, ctx.function.Leads path c → ∀ u hint offer,
    Adds ctx path 0 (w'.build c u hint offer) (w.build c u hint offer)
  condition : ∀ c, ctx.function.Leads path c → Adds ctx path 0 (w'.condition c) (w.condition c)

variable {α : Type} {ctx : Context} {base : Draft} {path : List NodeId} {w' w : Walk} {id c first second : NodeId}
  {hint target : Option TypedSlot}

/-- The operation of a node that works only when its value is read. -/
def Context.whenRead (ctx : Context) (id : NodeId) (o : Option Operation) : Work :=
  .of (if (tallyAt ctx.function.tallies id).demanded then o else none)

/-! ## Nodes without children -/

theorem idle_constant {make : Slot → Instruction} (h : ∀ r, (make r).operation? = none) :
    Idle ctx (constant ctx id hint make) fun _ => True := by
  refine (idle_demandedSlot hint).bind fun r _ => ?_
  cases r with
  | none => exact .pure trivial
  | some r => exact (idle_emit (h r.slot)).bind fun _ _ => .pure trivial

theorem idle_text (value : String) : Idle ctx (text ctx id value hint) fun _ => True :=
  idle_isDemanded.bind fun _ _ => .ite (fun _ => (idle_intern value).bind fun _ _ => idle_constant fun _ => rfl)
    fun _ => .pure trivial

theorem idle_nullary (op : NullaryOp) : Idle ctx (nullary ctx id hint op) fun _ => True := by
  cases op with
  | void => exact .pure trivial
  | null => exact idle_constant fun _ => rfl
  | unreachable => exact (idle_emit rfl).bind fun _ _ => .pure trivial

/-- The slot of a demanded node, and its instruction. -/
theorem adds_result {make : TypedSlot → Instruction} {o : Option Operation} (hsite : ∀ r, (make r).site? = none)
    (ho : ∀ r, ctx.function.kind? id = some r.kind → (make r).operation? = o) :
    Adds ctx path (.of o) (do let r ← ctx.resultSlot id hint; emit (make r); return { slot := some r } : Lower Visited)
      (do let r ← ctx.resultSlot id hint; emit (make r); return { slot := some r }) := by
  refine .past (routine_resultSlot hint).idle fun r hr => ?_
  rw [← ho r hr]
  exact (adds_emit (hsite r)).first fun _ => .pure

theorem adds_getStatic (field : FieldRef) :
    Adds ctx path (ctx.whenRead id (Expr.operation? ctx.env (ctx.function.kind? id) (.getStatic field)))
      (getStatic ctx id field hint) (getStatic ctx id field hint) := by
  unfold getStatic
  cases hfield : ctx.env.resolveStatic field.owner field.name with
  | none => exact .fail trivial
  | some r =>
    obtain ⟨index, declared⟩ := r
    refine .past (routine_checkField field declared).idle fun _ _ => .past (idle_demandedSlot hint) fun r hr => ?_
    obtain ⟨hread, hkind⟩ := hr
    cases r with
    | none =>
      rw [Context.whenRead, ← hread]
      exact .pure
    | some x =>
      have ho : Expr.operation? ctx.env (ctx.function.kind? id) (.getStatic field) =
          some (.getStatic (some x.kind) (some index)) := by
        simp [Expr.operation?, hfield, hkind x rfl]
      rw [Context.whenRead, ← hread, ho]
      exact (adds_emit rfl).first fun _ => .pure

/-! ## Asking for children -/

theorem adds_value {offer : Option Offer}
    (h : Adds ctx path 0 (w'.build c .value hint offer) (w.build c .value hint offer)) :
    Adds ctx path 0 (w'.value c hint offer) (w.value c hint offer) := by
  refine .past routine_alloc.idle fun _ _ => h.after fun v => ?_
  obtain ⟨slot, taken⟩ := v
  cases slot with
  | none => exact .fail trivial
  | some x => exact .pure

theorem adds_branchOn (h : Adds ctx path 0 (w'.build c .value none none) (w.build c .value none none)) :
    Adds ctx path 0 (branchOn w' c) (branchOn w c) :=
  ((adds_value h).after fun _ => .pure).after fun _ => .past (routine_drafting (.onSlot _)).idle fun _ _ =>
    .past routine_release.idle fun _ _ => .pure

namespace Walk.Works

variable (hw : w'.Works ctx path w)
include hw

theorem effect (hc : ctx.function.Leads path c) (offer : Option Offer) :
    Adds ctx path 0 (w'.effect c offer) (w.effect c offer) :=
  (hw.build c hc .ignore none offer).after fun _ => .pure

theorem value (hc : ctx.function.Leads path c) (hint : Option TypedSlot) (offer : Option Offer) :
    Adds ctx path 0 (w'.value c hint offer) (w.value c hint offer) := adds_value (hw.build c hc .value hint offer)

theorem operand (hc : ctx.function.Leads path c) : Adds ctx path 0 (w'.operand c) (w.operand c) :=
  (hw.value hc none none).after fun _ => .pure

theorem operands {args : List NodeId} (h : ∀ c ∈ args, ctx.function.Leads path c) :
    Adds ctx path 0 (args.mapM w'.operand) (args.mapM w.operand) := by
  induction args with
  | nil => exact .pure
  | cons a args ih =>
    obtain ⟨ha, hargs⟩ := List.forall_mem_cons.1 h
    rw [List.mapM_cons, List.mapM_cons]
    exact (hw.operand ha).after fun _ => (ih hargs).after fun _ => .pure

theorem valueInto (hc : ctx.function.Leads path c) (target : TypedSlot) (offer : Option Offer) :
    Adds ctx path 0 (w'.valueInto ctx c target offer) (w.valueInto ctx c target offer) := by
  unfold Walk.valueInto
  split
  · exact hw.effect hc offer
  · refine .ite (fun _ => .fail trivial) fun _ => (hw.value hc (some target) offer).after fun r => ?_
    have done : Adds ctx path 0 (do release c; return r.2) (do release c; return r.2) :=
      .past routine_release.idle fun _ _ => .pure
    exact .ite (fun _ => .past (idle_emit rfl) fun _ _ => done) fun _ => done

theorem forward (hc : ctx.function.Leads path c) (offer : Option Offer) :
    Adds ctx path 0 (w'.forward ctx c target offer) (w.forward ctx c target offer) := by
  cases target with
  | none => exact hw.effect hc offer
  | some x => exact hw.valueInto hc x offer

/-! ## Operators and data -/

theorem onOperand (hc : ctx.function.Leads path c) {make : TypedSlot → Slot → Instruction} {o : Option Operation}
    (hsite : ∀ r a, (make r a).site? = none)
    (ho : ∀ r a, ctx.function.kind? id = some r.kind → (make r a).operation? = o) :
    Adds ctx path (ctx.whenRead id o) (onOperand ctx w' id c hint make) (onOperand ctx w id c hint make) := by
  refine .past idle_isDemanded fun b hb => ?_
  rw [Context.whenRead, ← hb]
  refine .ite (fun hd => ?_) fun hd => ?_
  · rw [if_pos hd]
    refine (hw.operand hc).after fun a => .past routine_release.idle fun _ _ => ?_
    exact adds_result (fun r => hsite r a.slot) fun r => ho r a.slot
  · rw [if_neg hd]
    exact (hw.effect hc none).after fun _ => .pure

theorem onOperands (hfirst : ctx.function.Leads path first) (hsecond : ctx.function.Leads path second)
    {make : TypedSlot → Slot → Slot → Instruction} {o : Option Operation} (hsite : ∀ r a b, (make r a b).site? = none)
    (ho : ∀ r a b, ctx.function.kind? id = some r.kind → (make r a b).operation? = o) :
    Adds ctx path (ctx.whenRead id o) (onOperands ctx w' id first second hint make)
      (onOperands ctx w id first second hint make) := by
  refine .past idle_isDemanded fun b hb => ?_
  rw [Context.whenRead, ← hb]
  refine .ite (fun hd => ?_) fun hd => ?_
  · rw [if_pos hd]
    refine (hw.operand hfirst).after fun a => (hw.operand hsecond).after fun b => ?_
    refine .past routine_release.idle fun _ _ => .past routine_release.idle fun _ _ => ?_
    exact adds_result (fun r => hsite r a.slot b.slot) fun r => ho r a.slot b.slot
  · rw [if_neg hd]
    exact (hw.effect hfirst none).after fun _ => (hw.effect hsecond none).after fun _ => .pure

theorem nullCheck (hc : ctx.function.Leads path c) :
    Adds ctx path (.of (some .nullCheck)) (nullCheck ctx w' id c hint) (nullCheck ctx w id c hint) :=
  (hw.operand hc).after fun a => .past routine_release.idle fun _ _ => .past (idle_demandedSlot hint) fun r _ =>
    (adds_emit (i := .nullCheck (r.getD a).slot a.slot) rfl).first fun _ => .pure

theorem unary (hc : ctx.function.Leads path c) (op : UnaryOp) :
    Adds ctx path (if op = .nullCheck then .of (some .nullCheck) else ctx.whenRead id op.operation?)
      (unary ctx w' id op c hint) (unary ctx w id op c hint) := by
  refine .past (idle_expectType hc.reachable _) fun _ _ => ?_
  have hmake : ∀ r : TypedSlot, ∀ a, (op.instruction r.slot a).site? = none ∧
      (op.instruction r.slot a).operation? = op.operation? :=
    fun r a => ⟨by cases op <;> rfl, op.operation?_instruction r.slot a⟩
  cases op with
  | nullCheck => exact hw.nullCheck hc
  | _ => exact hw.onOperand hc (fun r a => (hmake r a).1) fun r a _ => (hmake r a).2

theorem setVar (hc : ctx.function.Leads path c) (index : VarId) :
    Adds ctx path 0 (setVar ctx w' id index c) (setVar ctx w id index c) :=
  .past (routine_varSlot index).idle fun target _ => (hw.valueInto hc target none).after fun _ => .pure

theorem getField {field : FieldRef} {type : ValueType} (hid : ctx.function.Reachable id)
    (hn : ctx.function.node? id = some ⟨.getField field c, type⟩) (hc : ctx.function.Leads path c) :
    Adds ctx path (ctx.whenRead id (Expr.operation? ctx.env (ctx.function.kind? id) (.getField field c)))
      (getField ctx w' id field c hint) (getField ctx w id field c hint) := by
  refine .past (idle_lookup fun what hwhat => ⟨id, field, c, type, hid, hn, hwhat⟩) fun r hr => ?_
  cases r with
  | none => exact .fail trivial
  | some r =>
    obtain ⟨index, declared⟩ := r
    refine .past (routine_checkField field declared).idle fun _ _ => .past (idle_expectType hc.reachable _) fun _ _ => ?_
    refine hw.onOperand hc (fun _ _ => rfl) fun r a hk => ?_
    simp [Instruction.operation?, Expr.operation?, hr, hk]

theorem arrayElement (harray : ctx.function.Leads path first) (hindex : ctx.function.Leads path second) :
    Adds ctx path (ctx.whenRead id (Expr.operation? ctx.env (ctx.function.kind? id) (.arrayElement first second)))
      (arrayElement ctx w' id first second hint) (arrayElement ctx w id first second hint) := by
  refine .past (idle_expectType harray.reachable _) fun _ _ => .past (idle_expectType hindex.reachable _) fun _ _ => ?_
  refine hw.onOperands harray hindex (fun _ _ _ => rfl) fun r a i hk => ?_
  simp [Instruction.operation?, Expr.operation?, hk]

theorem cast (hc : ctx.function.Leads path c) (className : String) :
    Adds ctx path (ctx.whenRead id (Expr.operation? ctx.env (ctx.function.kind? id) (.cast c className)))
      (cast ctx w' id c className hint) (cast ctx w id c className hint) := by
  refine .past (routine_classId className).idle fun target htarget => .past (idle_expectType hc.reachable _) fun _ _ => ?_
  refine hw.onOperand hc (fun _ _ => rfl) fun r a _ => ?_
  simp [Instruction.operation?, Expr.operation?, htarget]

theorem instanceOf (hc : ctx.function.Leads path c) (className : String) :
    Adds ctx path (ctx.whenRead id (Expr.operation? ctx.env (ctx.function.kind? id) (.instanceOf c className)))
      (instanceOf ctx w' id c className hint) (instanceOf ctx w id c className hint) := by
  refine .past (routine_classId className).idle fun target htarget => .past (idle_expectType hc.reachable _) fun _ _ => ?_
  refine hw.onOperand hc (fun _ _ => rfl) fun r a _ => ?_
  simp [Instruction.operation?, Expr.operation?, htarget]

theorem setArrayElement {array index value : NodeId} (harray : ctx.function.Leads path array)
    (hindex : ctx.function.Leads path index) (hvalue : ctx.function.Leads path value) :
    Adds ctx path (.of (some .arraySet)) (setArrayElement ctx w' array index value)
      (setArrayElement ctx w array index value) := by
  refine .past (idle_expectType harray.reachable _) fun _ _ => .past (idle_expectType hindex.reachable _) fun _ _ => ?_
  refine (hw.operand harray).after fun a => (hw.operand hindex).after fun i => (hw.operand hvalue).after fun v => ?_
  refine .past routine_release.idle fun _ _ => .past routine_release.idle fun _ _ => .past routine_release.idle fun _ _ => ?_
  exact (adds_emit (i := .arraySet v.kind a.slot i.slot v.slot) rfl).first fun _ => .pure

theorem upperBound (hc : ctx.function.Leads path c) (index : TypedSlot) (lower : Bool) :
    Adds ctx path 0 (upperBound ctx w' index lower c) (upperBound ctx w index lower c) := by
  refine .past (idle_expectType hc.reachable _) fun _ _ => (hw.operand hc).after fun a => ?_
  have rest : Adds ctx path 0 (do emit (.upperBound index.slot a.slot); release c)
      (do emit (.upperBound index.slot a.slot); release c) := .past (idle_emit rfl) fun _ _ => routine_release.idle.adds
  exact .ite (fun _ => .past (idle_emit rfl) fun _ _ => rest) fun _ => rest

theorem boundsCheck {index : NodeId} {array : Option NodeId} (hindex : ctx.function.Leads path index)
    (harray : ∀ a, array = some a → ctx.function.Leads path a) (lower : Bool) :
    Adds ctx path 0 (boundsCheck ctx w' id index array lower hint) (boundsCheck ctx w id index array lower hint) := by
  refine .past (idle_expectType hindex.reachable _) fun _ _ => (hw.operand hindex).after fun i => ?_
  have result : Idle ctx (checkedIndex ctx id index hint i) fun _ => True := by
    refine routine_release.idle.bind fun _ _ => (idle_demandedSlot hint).bind fun r _ => ?_
    cases r with
    | none => exact .pure trivial
    | some r => exact .ite (fun _ => (idle_emit rfl).bind fun _ _ => .pure trivial) fun _ => .pure trivial
  cases array with
  | some array => exact (hw.upperBound (harray array rfl) i lower).after fun _ => result.adds
  | none => exact .ite (fun _ => .past (idle_emit rfl) fun _ _ => result.adds) fun _ => result.adds

theorem call (method : MethodRef) (kind : CallKind) {args : List NodeId} (hargs : ∀ c ∈ args, ctx.function.Leads path c) :
    Adds ctx path ({.call}, ((Expr.callee? ctx.env (.call method kind args)).toList : Multiset (Option FunctionId)))
      (call ctx w' id method kind args hint) (call ctx w id method kind args hint) := by
  unfold Lowering.call
  cases hfunction : ctx.env.resolveFunction method.owner method.name with
  | none => exact .fail trivial
  | some function =>
    have hcallee : Expr.callee? ctx.env (.call method kind args) = some (some function) := congrArg some hfunction
    rw [hcallee]
    have hthere : ∀ what, ctx.env.function function = .error what → Warranted ctx (.missing what) := by
      intro what hwhat
      rw [Environment.function, Array.getElem?_eq_getElem (Environment.lt_of_resolveFunction hfunction)] at hwhat
      cases hwhat
    refine .past (idle_lookup hthere) fun native _ => .past (routine_checkCall method kind native _).idle fun _ _ => ?_
    refine .past (idle_arguments fun x hx => (hargs x.1 (List.of_mem_zip hx).1).reachable) fun _ _ =>
      (hw.operands hargs).after fun slots => ?_
    refine .past (routine_releaseAll _).idle fun _ _ => .past (idle_demandedSlot hint) fun result _ => ?_
    exact adds_call _ _

/-! ## Conditions -/

theorem compose {k : Connective} (h : ∀ c ∈ k.operands, ctx.function.Leads path c) :
    Adds ctx path 0 (compose w' k) (compose w k) := by
  cases k with
  | not operand => exact (hw.condition operand (h _ (by simp [Connective.operands]))).after fun _ => .pure
  | shortCircuit decisive first second =>
    refine (hw.condition first (h _ (by simp [Connective.operands]))).after fun b => ?_
    refine .past (routine_drafting (.defer _ _)).idle fun decided _ => ?_
    exact (Adds.inRegion (hw.condition second (h _ (by simp [Connective.operands])))).after fun _ => .pure

theorem logicalValue (decisive : Bool) (hfirst : ctx.function.Leads path first) (hsecond : ctx.function.Leads path second) :
    Adds ctx path 0 (logicalValue ctx w' id (.shortCircuit decisive first second) hint)
      (logicalValue ctx w id (.shortCircuit decisive first second) hint) := by
  have hoperands : ∀ c ∈ Connective.operands (.shortCircuit decisive first second), ctx.function.Leads path c := by
    simp [Connective.operands, hfirst, hsecond]
  refine (hw.compose hoperands).after fun b => ?_
  refine .past idle_isDemanded fun _ _ => .ite (fun _ => ?_) fun _ => ?_
  · refine .past (routine_drafting (.defer _ _)).idle fun whenFalse _ => .past (routine_resultSlot hint).idle fun r _ => ?_
    refine .past (idle_emit rfl) fun _ _ => .past routine_gotoPending.idle fun skip _ => .past routine_label.idle fun _ _ => ?_
    refine .past (routine_drafting (.patchAll _ _)).idle fun _ _ => .past (idle_emit rfl) fun _ _ => ?_
    exact .past routine_label.idle fun _ _ => .past (routine_drafting (.patch _ _)).idle fun _ _ => .pure
  · exact .past routine_label.idle fun _ _ => .past (routine_drafting (.resolve _ _ _)).idle fun _ _ => .pure

theorem binary (op : BinaryOp) (hfirst : ctx.function.Leads path first) (hsecond : ctx.function.Leads path second) :
    Adds ctx path (ctx.whenRead id op.operation?) (binary ctx w' id op first second hint)
      (binary ctx w id op first second hint) := by
  unfold Lowering.binary
  cases hform : op.form with
  | instruction make =>
    refine .past (idle_expectType hfirst.reachable _) fun _ _ => .past (idle_expectType hsecond.reachable _) fun _ _ => ?_
    refine hw.onOperands hfirst hsecond (fun r a b => ?_) fun r a b _ => BinaryOp.operation?_form hform r.slot a b
    cases op <;> cases hform <;> rfl
  | shortCircuit decisive =>
    have hnone : op.operation? = none := by cases op <;> cases hform <;> rfl
    have hzero : ctx.whenRead id op.operation? = 0 := by rw [hnone, Context.whenRead, ite_self]; rfl
    rw [hzero]
    exact hw.logicalValue decisive hfirst hsecond

/-! ## Control -/

theorem sequence (hfirst : ctx.function.Leads path first) (hsecond : ctx.function.Leads path second)
    (offer : Option Offer) :
    Adds ctx path 0 (sequence ctx w' id first second hint offer) (sequence ctx w id first second hint offer) :=
  (hw.effect hfirst none).after fun _ => .past (idle_demandedSlot hint) fun _ _ => (hw.forward hsecond offer).after fun _ => .pure

theorem arm (hc : ctx.function.Leads path c) (offer : Option Offer) :
    Adds ctx path 0 (arm ctx w' c target offer) (arm ctx w c target offer) := .inRegion (hw.forward hc offer)

theorem block (hc : ctx.function.Leads path c) (name : BlockId) :
    Adds ctx path 0 (block ctx w' id name c hint) (block ctx w id name c hint) :=
  .past (idle_demandedSlot hint) fun _ _ => .past (Routine.update fun _ hs => .frames hs _ _).idle fun _ _ =>
    (hw.arm hc none).after fun _ => .past routine_closeBlock.idle fun _ _ => .pure

theorem loop (hpre : ctx.function.Leads path first) (hbody : ctx.function.Leads path second) (name : LoopId) :
    Adds ctx path 0 (loop ctx w' name first second) (loop ctx w name first second) := by
  refine (hw.effect hpre none).after fun _ => .past routine_label.idle fun _ _ => ?_
  refine .past (Routine.update fun _ hs => .frames hs _ _).idle fun _ _ => ?_
  refine (Adds.inRegion (hw.effect hbody none)).after fun _ => .past (idle_node hbody.reachable) fun n _ => ?_
  have done : Adds ctx path 0 (do closeLoop; return {} : Lower Visited) (do closeLoop; return {}) :=
    .past routine_closeLoop.idle fun _ _ => .pure
  exact .ite (fun _ => .past (idle_emit rfl) fun _ _ => done) fun _ => done

theorem elseOnly (hc : ctx.function.Leads path c) (b : Branch) (position : Nat) :
    Adds ctx path 0 (elseOnly ctx w' b position c target) (elseOnly ctx w b position c target) :=
  (hw.arm hc _).after fun _ => .ite (fun _ => .past routine_label.idle fun _ _ => (routine_drafting (.resolve _ _ _)).idle.adds)
    fun _ => .pure

theorem bothArms {thenArm : NodeId} (hthen : ctx.function.Leads path thenArm) (hc : ctx.function.Leads path c) (b : Branch) :
    Adds ctx path 0 (bothArms ctx w' b thenArm c target) (bothArms ctx w b thenArm c target) := by
  refine .past (idle_node hthen.reachable) fun n _ => ?_
  have rest : ∀ skip : Option Patch, Adds ctx path 0 (secondArm ctx w' b c target skip) (secondArm ctx w b c target skip) := by
    intro skip
    refine .past routine_label.idle fun _ _ => .past (routine_drafting (.resolve _ _ _)).idle fun _ _ => ?_
    refine (hw.arm hc none).after fun _ => ?_
    cases skip with
    | none => exact .pure
    | some jump => exact .past routine_label.idle fun _ _ => (routine_drafting (.patch _ _)).idle.adds
  refine .ite (fun _ => .past (p := fun _ => True) ?_ fun skip _ => rest skip)
    fun _ => .past (p := fun _ => True) (.pure trivial) fun skip _ => rest skip
  exact routine_gotoPending.idle.bind fun _ _ => .pure trivial

theorem conditional {condition : NodeId} (hcond : ctx.function.Leads path condition)
    (hthen : ctx.function.Leads path first) (helse : ctx.function.Leads path second) :
    Adds ctx path 0 (conditional ctx w' id condition first second hint) (conditional ctx w id condition first second hint) := by
  refine .past (idle_demandedSlot hint) fun target _ => (hw.condition condition hcond).after fun b => ?_
  refine .past routine_label.idle fun position _ => (hw.arm hthen _).after fun taken => ?_
  refine .ite (fun _ => (hw.arm helse none).after fun _ => .pure) fun _ => .past routine_label.idle fun here _ => ?_
  exact .ite (fun _ => (hw.elseOnly helse b position).after fun _ => .pure)
    fun _ => (hw.bothArms hthen helse b).after fun _ => .pure

end Walk.Works

/-! ## One node -/

theorem work_eq {n : Node} (hn : ctx.function.node? id = some n) : ctx.function.work ctx.env id =
    (((if n.expr.actsUnread || (tallyAt ctx.function.tallies id).demanded then
        n.expr.operation? ctx.env (ctx.function.kind? id) else none).toList : Multiset Operation),
      ((n.expr.callee? ctx.env).toList : Multiset (Option FunctionId))) := by
  simp [Function.work, Function.operation?, Function.callee?, hn]

theorem work_whenRead {n : Node} (hn : ctx.function.node? id = some n) (hunread : n.expr.actsUnread = false)
    (hcallee : n.expr.callee? ctx.env = none) :
    ctx.function.work ctx.env id = ctx.whenRead id (n.expr.operation? ctx.env (ctx.function.kind? id)) := by
  rw [work_eq hn, hunread, hcallee, Bool.false_or]
  rfl

theorem work_none {n : Node} (hn : ctx.function.node? id = some n)
    (ho : n.expr.operation? ctx.env (ctx.function.kind? id) = none) (hcallee : n.expr.callee? ctx.env = none) :
    ctx.function.work ctx.env id = 0 := by
  rw [work_eq hn, ho, hcallee, ite_self]
  rfl

namespace Walk.Works

/-- A node does its own work; its children are built when it is. -/
theorem visit (hw : w'.Works ctx (id :: path) w) (hid : ctx.function.Leads path id) (offer : Option Offer) :
    Adds ctx (id :: path) (ctx.function.work ctx.env id) (visit ctx w' id hint offer) (visit ctx w id hint offer) := by
  refine .past (idle_node hid.reachable) fun n hn => ?_
  have hchild := hid.children hn
  obtain ⟨e, type⟩ := n
  cases e with
  | sequence first second =>
    rw [work_none hn rfl rfl]
    exact hw.sequence (hchild first (by simp [Expr.children, Expr.edges]))
      (hchild second (by simp [Expr.children, Expr.edges])) offer
  | block name body =>
    rw [work_none hn rfl rfl]
    exact hw.block (hchild body (by simp [Expr.children, Expr.edges])) name
  | exitBlock name =>
    rw [work_none hn rfl rfl]
    exact (routine_exitBlock name offer).idle.adds
  | loop name preheader body =>
    rw [work_none hn rfl rfl]
    exact hw.loop (hchild preheader (by simp [Expr.children, Expr.edges]))
      (hchild body (by simp [Expr.children, Expr.edges])) name
  | exitLoop name =>
    rw [work_none hn rfl rfl]
    exact (routine_exitLoop name offer).idle.adds
  | continueLoop name =>
    rw [work_none hn rfl rfl]
    exact (routine_continueLoop name offer).idle.adds
  | conditional condition thenArm elseArm =>
    rw [work_none hn rfl rfl]
    exact hw.conditional (hchild condition (by simp [Expr.children, Expr.edges]))
      (hchild thenArm (by simp [Expr.children, Expr.edges]))
      (hchild elseArm (by simp [Expr.children, Expr.edges]))
  | nullary op =>
    rw [work_none hn rfl rfl]
    exact (idle_nullary op).adds
  | unary op operand =>
    have hwork : ctx.function.work ctx.env id =
        if op = .nullCheck then .of (some .nullCheck) else ctx.whenRead id op.operation? := by
      cases op with
      | nullCheck => exact work_eq hn
      | _ => exact work_whenRead hn rfl rfl
    rw [hwork]
    exact hw.unary (hchild operand (by simp [Expr.children, Expr.edges])) op
  | binary op first second =>
    rw [work_whenRead hn rfl rfl]
    exact hw.binary op (hchild first (by simp [Expr.children, Expr.edges])) (hchild second (by simp [Expr.children, Expr.edges]))
  | const value =>
    rw [work_none hn rfl rfl]
    exact (idle_constant fun _ => rfl).adds
  | text value =>
    rw [work_none hn rfl rfl]
    exact (idle_text value).adds
  | param index =>
    rw [work_none hn rfl rfl]
    exact (routine_param index).idle.adds
  | getVar index =>
    rw [work_none hn rfl rfl]
    exact (routine_getVar index).idle.adds
  | setVar index value =>
    rw [work_none hn rfl rfl]
    exact hw.setVar (hchild value (by simp [Expr.children, Expr.edges])) index
  | getField field object =>
    rw [work_whenRead hn rfl rfl]
    exact hw.getField hid.reachable hn (hchild object (by simp [Expr.children, Expr.edges]))
  | getStatic field =>
    rw [work_whenRead hn rfl rfl]
    exact adds_getStatic field
  | call method kind args =>
    rw [work_eq hn]
    exact hw.call method kind fun c hc => hchild c (by simpa [Expr.children, Expr.edges] using hc)
  | arrayElement array index =>
    rw [work_whenRead hn rfl rfl]
    exact hw.arrayElement (hchild array (by simp [Expr.children, Expr.edges]))
      (hchild index (by simp [Expr.children, Expr.edges]))
  | setArrayElement array index value =>
    rw [work_eq hn]
    exact hw.setArrayElement (hchild array (by simp [Expr.children, Expr.edges]))
      (hchild index (by simp [Expr.children, Expr.edges]))
      (hchild value (by simp [Expr.children, Expr.edges]))
  | cast value className =>
    rw [work_whenRead hn rfl rfl]
    exact hw.cast (hchild value (by simp [Expr.children, Expr.edges])) className
  | instanceOf value className =>
    rw [work_whenRead hn rfl rfl]
    exact hw.instanceOf (hchild value (by simp [Expr.children, Expr.edges])) className
  | boundsCheck index array lower =>
    rw [work_none hn rfl rfl]
    refine hw.boundsCheck (hchild index (by simp [Expr.children, Expr.edges])) (fun a ha => hchild a ?_) lower
    simp [Expr.children, Expr.edges, ha]
  | _ => exact .fail trivial

end Walk.Works

/-! ## The walk -/

/-- A node that nobody has come to is lowered and built. -/
theorem adds_entering {slot : α → Option TypedSlot} {act' act : Lower α} {m : Work} {s : State}
    (hlimit : path.length ≤ ctx.options.maxDepth) (hid : ctx.function.Leads path id) (hs : Laid ctx base path m s)
    (hn : s.stage id = .untouched) (hleft : (s.left id).consumers + 1 ≤ (tallyAt ctx.function.tallies id).total)
    (h : path.length + 1 ≤ ctx.options.maxDepth → Adds ctx (id :: path) (ctx.function.work ctx.env id) act' act) :
    Mirrors (· = s) (entering ctx path.length id slot act') (entering ctx path.length id slot act) (fun _ => Laid ctx base path m)
      (Warranted ctx) := by
  have henter := hs.enter (hs.bound id hid.reachable) hn hleft
  have hlength : path.length + 1 ≤ ctx.function.nodes.size := henter.path_le
  refine .ite (fun hover => .fail ⟨rfl, by omega, by omega⟩) fun hfits => ?_
  refine .step rfl (Mirrors.bind ((h (by omega) base m).pre fun t ht => ht ▸ henter) fun a => ?_)
  refine (idle_node hid.reachable (_, _, _)).mirrors.bind fun n => .given fun _ => ?_
  refine ((routine_regionOf n.expr).idle (_, _, _)).mirrors.bind fun region => ?_
  refine .given fun _ => .each fun t ht => .step rfl (.pure fun t' ht' => ?_)
  rw [ht']
  exact ht.leave hid.reachable

/-- A connective is composed only for a node that nobody has come to. -/
theorem composable_untouched {s : State} {E : BuildError → Prop} (hE : ctx.function.node? id = none → E (.missing (.node id))) :
    Meets (· = s) (ctx.composable? id) (fun k t => t = s ∧ ∀ c, k = some c → s.stage id = .untouched ∧
      ∃ n, ctx.function.node? id = some n ∧ n.expr.connective? = some c) E := by
  unfold Context.composable? Context.node
  cases hn : ctx.function.node? id with
  | none => exact .fail (hE hn)
  | some n =>
    refine .step rfl (.step rfl (.step rfl ?_))
    split
    · rename_i hfree
      have hstage : s.stage id = .untouched := by rw [State.stage, hfree.2]; rfl
      exact .pure fun t ht => ⟨ht, fun c hc => ⟨hstage, n, rfl, hc⟩⟩
    · exact .pure fun t ht => ⟨ht, fun c hc => by cases hc⟩

namespace Walk.Works

theorem build_adds (hlimit : path.length ≤ ctx.options.maxDepth)
    (hw : path.length + 1 ≤ ctx.options.maxDepth → w'.Works ctx (id :: path) w) (hid : ctx.function.Leads path id) (u : Usage)
    (hint : Option TypedSlot) (offer : Option Offer) :
    Adds ctx path 0 (Lowering.build ctx path.length w' id u hint offer) (Lowering.build ctx path.length w id u hint offer) := by
  intro base m
  rw [add_zero]
  refine .each fun s hs => .step rfl ?_
  have hcheck : ∀ v, Mirrors (Laid ctx base path m) (checkSlot id u v) (checkSlot id u v) (fun _ => Laid ctx base path m)
      (Warranted ctx) := fun v => ((routine_checkSlot u v).idle (base, path, m)).mirrors.post fun _ _ ht => ht.2
  cases hp : (s.node id).progress with
  | underway =>
    -- The node is on the way to itself.
    have hmem : id ∈ path := (hs.underway id).1 (by rw [State.stage, hp]; rfl)
    exact .fail ⟨hid.reachable, hid.above id hmem⟩
  | built slot region =>
    refine .step rfl (.ite (fun _ => .fail trivial) fun _ => (hs.consume hid.reachable u).mirrors.bind fun _ => ?_)
    exact (hcheck _).pre fun t ht => ht.1
  | untouched =>
    have hfresh : s.stage id = .untouched := by rw [State.stage, hp]; rfl
    refine (hs.consume hid.reachable u).mirrors.bind fun _ => .each ?_
    rintro t ⟨ht, hstage, hspent⟩
    refine Mirrors.bind ?_ hcheck
    refine adds_entering hlimit hid ht (hstage ▸ hfresh) (hspent ▸ ?_) fun hfits => (hw hfits).visit hid offer
    simpa [hfresh] using hs.visited id

theorem condition_adds (hlimit : path.length ≤ ctx.options.maxDepth)
    (hw : path.length + 1 ≤ ctx.options.maxDepth → w'.Works ctx (id :: path) w) (hid : ctx.function.Leads path id) :
    Adds ctx path 0 (Lowering.condition ctx path.length w' id) (Lowering.condition ctx path.length w id) := by
  refine .past (idle_expectType hid.reachable _) fun _ _ base m => ?_
  rw [add_zero]
  refine .each fun s hs => ?_
  have hthere : ctx.function.node? id ≠ none := by
    obtain ⟨n, hn⟩ := hs.node hid.reachable
    simp [hn]
  refine (composable_untouched fun hnone => absurd hnone hthere).mirrors.bind fun k => ?_
  cases k with
  | some c =>
    refine .each fun t ⟨ht, huntouched⟩ => ?_
    obtain ⟨hstage, n, hn, hc⟩ := huntouched c rfl
    obtain ⟨ho, hcallee⟩ := Expr.operation?_connective hc ctx.env (ctx.function.kind? id)
    have hcompose : path.length + 1 ≤ ctx.options.maxDepth →
        Adds ctx (id :: path) (ctx.function.work ctx.env id) (Lowering.compose w' c) (Lowering.compose w c) := fun hfits => by
      rw [work_none hn ho hcallee]
      exact (hw hfits).compose fun x hx => hid.children hn x (Expr.operands_connective hc ▸ hx)
    rw [ht]
    refine (hs.consume hid.reachable .value).mirrors.bind fun _ => .each fun t' ⟨ht', hsame, hspent⟩ => ?_
    refine adds_entering hlimit hid ht' (hsame ▸ hstage) (hspent ▸ ?_) hcompose
    simpa [hstage] using hs.visited id
  | none =>
    have hbranch : Adds ctx path 0 (branchOn { w' with build := Lowering.build ctx path.length w' } id)
        (branchOn { w with build := Lowering.build ctx path.length w } id) :=
      adds_branchOn (build_adds hlimit hw hid .value none none)
    have hmirrors := hbranch base m
    rw [add_zero] at hmirrors
    exact hmirrors.pre fun t ht => ht.1 ▸ hs

end Walk.Works

/-- No way without repetition is longer than the arena, so what walks would do at the end of one does not matter. -/
theorem Walk.Works.of_full (h : ctx.function.nodes.size < path.length) : w'.Works ctx path w := by
  have hnever : ∀ base m s, ¬ Laid ctx base path m s := fun base m s hs => by
    have := hs.path_le
    omega
  exact ⟨fun _ _ _ _ _ base m => ⟨fun s hs => absurd hs (hnever base m s), fun s hs => absurd hs (hnever base m s)⟩,
    fun _ _ base m => ⟨fun s hs => absurd hs (hnever base m s), fun s hs => absurd hs (hnever base m s)⟩⟩

/-- The walk, with something else where there is no room. -/
def walkOver (ctx : Context) (bottom : Walk) : (room depth : Nat) → Walk
  | 0, _ => bottom
  | room + 1, depth =>
    let inner := walkOver ctx bottom room (depth + 1)
    ⟨build ctx depth inner, condition ctx depth inner⟩

/-- Every level of the walk does the work of the nodes it builds, and the walk never runs out of room. -/
theorem walkOver_works (bottom : Walk) (room : Nat) : ∀ path : List NodeId, path.length ≤ ctx.options.maxDepth →
    ctx.function.nodes.size < room + path.length →
      (walkOver ctx bottom room path.length).Works ctx path (walk ctx room path.length) := by
  induction room with
  | zero => exact fun path _ hroom => .of_full (by omega)
  | succ room ih =>
    intro path hlimit hroom
    have hinner : ∀ id, path.length + 1 ≤ ctx.options.maxDepth →
        (walkOver ctx bottom room (path.length + 1)).Works ctx (id :: path) (walk ctx room (path.length + 1)) :=
      fun id hfits => ih (id :: path) hfits (by rw [List.length_cons]; omega)
    exact ⟨fun c hc u hint offer => Walk.Works.build_adds hlimit (hinner c) hc u hint offer,
      fun c hc => Walk.Works.condition_adds hlimit (hinner c) hc⟩

end Lowering

end SlotCode
