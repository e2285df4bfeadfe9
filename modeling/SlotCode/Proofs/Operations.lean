/-
  SlotCode.Proofs.Operations — what instructions do, apart from the registers they do it with.

  An `Operation` is an instruction without its registers. An expression that computes
  something has one, its names resolved against the environment as far as it knows them;
  an expression that only steers control, moves a value or loads a constant has none. A
  call, a store and a null check happen whether or not anyone reads their value, everything
  else only if someone does.

  Proved: the instruction of an operator has the operator's operation, and no edit of a
  draft but an appended instruction changes or adds anything but jumps (`Steady`), so that
  the operations of its code stay as they were, and in their order.
-/

import SlotCode.Lowering.Access
import SlotCode.Proofs.DemandSpec
import SlotCode.Proofs.FinalCode

namespace SlotCode

open SlotCode.Arith

inductive Operation where
  | arith (w : Width) (op : IntOp)
  | real (p : Precision) (op : FloatOp)
  | neg (kind : Kind)
  | inv (kind : Kind)
  | convert (c : Conversion)
  | test (op : CmpOp)
  | order (kind : Kind)
  | same (op : CmpOp)
  | arrayLength
  | nullCheck
  | arrayGet (kind : Option Kind)
  | arraySet
  | getField (kind : Option Kind) (field : Option Nat)
  | getStatic (kind : Option Kind) (field : Option StaticId)
  | cast (target : Option ClassId)
  | instanceOf (target : Option ClassId)
  | call
  deriving DecidableEq, Repr

namespace Instruction

/-- `none` for what loads, moves, checks a bound or steers control. -/
def operation? : Instruction → Option Operation
  | .arith w op _ _ _ => some (.arith w op)
  | .real p op _ _ _ => some (.real p op)
  | .neg kind _ _ => some (.neg kind)
  | .inv kind _ _ => some (.inv kind)
  | .convert c _ _ => some (.convert c)
  | .test op _ _ _ => some (.test op)
  | .order kind _ _ _ => some (.order kind)
  | .same op _ _ _ => some (.same op)
  | .arrayLength _ _ => some .arrayLength
  | .nullCheck _ _ => some .nullCheck
  | .arrayGet kind _ _ _ => some (.arrayGet (some kind))
  | .arraySet _ _ _ _ => some .arraySet
  | .getField kind _ _ field => some (.getField (some kind) (some field))
  | .getStatic kind _ field => some (.getStatic (some kind) (some field))
  | .cast _ _ target => some (.cast (some target))
  | .instanceOf _ _ target => some (.instanceOf (some target))
  | .call _ => some .call
  | .const .. | .text .. | .null .. | .move .. | .not .. | .lowerBound .. | .upperBound .. | .goto .. | .jumpIf ..
  | .unreachable | .nop | .stop => none

/-- The site that a call refers to. -/
def site? : Instruction → Option Nat
  | .call site => some site
  | _ => none

end Instruction

/-! ## Operations of expressions -/

def UnaryOp.operation? : UnaryOp → Option Operation
  | .not => none
  | .invert w => some (.inv w.kind)
  | .negate w => some (.neg w.kind)
  | .negateFloat p => some (.neg p.kind)
  | .convert c => some (.convert c)
  | .arrayLength => some .arrayLength
  | .nullCheck => some .nullCheck

def BinaryOp.operation? : BinaryOp → Option Operation
  | .arith w op => some (.arith w op)
  | .real p op => some (.real p op)
  | .orderLong => some (.order .long)
  | .orderFloat p => some (.order p.kind)
  | .test op => some (.test op)
  | .refEq => some (.same .eq)
  | .refNe => some (.same .ne)
  | .and | .or => none

namespace Expr

/-- The operation of an expression whose value is of the given kind. -/
def operation? (env : Environment) (kind : Option Kind) : Expr → Option Operation
  | .unary op _ => op.operation?
  | .binary op _ _ => op.operation?
  | .arrayElement _ _ => some (.arrayGet kind)
  | .setArrayElement _ _ _ => some .arraySet
  | .getField field _ =>
    match env.classes.resolveField field.owner field.name with
    | .ok found => some (.getField kind (found.map (·.1)))
    | .error _ => some (.getField kind none)
  | .getStatic field => some (.getStatic kind ((env.resolveStatic field.owner field.name).map (·.1)))
  | .cast _ className => some (.cast (env.classes.find? className))
  | .instanceOf _ className => some (.instanceOf (env.classes.find? className))
  | .call _ _ _ => some .call
  | _ => none

/-- Whether the operation happens also when nobody reads the value. -/
def actsUnread : Expr → Bool
  | .unary .nullCheck _ | .setArrayElement _ _ _ | .call _ _ _ => true
  | _ => false

/-- The native function that a call stands for, as far as the environment knows it. -/
def callee? (env : Environment) : Expr → Option (Option FunctionId)
  | .call method _ _ => some (env.resolveFunction method.owner method.name)
  | _ => none

end Expr

namespace Function

/-- The operation that a node has to perform. -/
def operation? (f : Function) (env : Environment) (id : NodeId) : Option Operation :=
  match f.node? id with
  | some n =>
    if n.expr.actsUnread || (tallyAt f.tallies id).demanded then n.expr.operation? env (f.kind? id) else none
  | none => none

def callee? (f : Function) (env : Environment) (id : NodeId) : Option (Option FunctionId) :=
  (f.node? id).bind fun n => n.expr.callee? env

end Function

theorem UnaryOp.operation?_instruction (op : UnaryOp) (r a : Slot) : (op.instruction r a).operation? = op.operation? := by
  cases op <;> rfl

theorem BinaryOp.operation?_form {op : BinaryOp} {make : Slot → Slot → Slot → Instruction}
    (h : op.form = .instruction make) (r a b : Slot) : (make r a b).operation? = op.operation? := by
  cases op <;> cases h <;> rfl

/-! ## Edits of a draft -/

variable {α β : Type}

/-- Neither a jump nor an empty place counts. -/
structure Passive (pick : Instruction → Option β) : Prop where
  nop : pick .nop = none
  jump : ∀ i, i.isJump = true → pick i = none

theorem passive_operation? : Passive Instruction.operation? := by
  refine ⟨rfl, fun i hi => ?_⟩
  cases i <;> first | rfl | cases hi

theorem passive_site? : Passive Instruction.site? := by
  refine ⟨rfl, fun i hi => ?_⟩
  cases i <;> first | rfl | cases hi

namespace Draft

variable {d e : Draft}

theorem isJump_of_pending {i : Instruction} (h : isPendingJump i = true) : i.isJump = true := by
  unfold isPendingJump at h
  cases ht : i.target? with
  | none => rw [ht] at h; cases h
  | some _ => rw [Instruction.isJump, ht]; rfl

/-- What the instructions have that count, in order. -/
def picked (pick : Instruction → Option β) (d : Draft) : List β := d.code.toList.filterMap pick

theorem picked_add (pick : Instruction → Option β) (d : Draft) (i : Instruction) :
    (d.add i).picked pick = d.picked pick ++ (pick i).toList := by
  cases h : pick i <;> simp [picked, add, h]

/-- One instruction that does not count takes the place of another. -/
theorem picked_set {pick : Instruction → Option β} {p : Nat} {old new : Instruction} (reserved : List Nat)
    (hold : d.code[p]? = some old) (hnone : pick old = none) (hnew : pick new = none) :
    picked pick ⟨d.code.setIfInBounds p new, reserved⟩ = d.picked pick := by
  obtain ⟨hsize, hat⟩ := Array.getElem?_eq_some_iff.1 hold
  have hlt : p < d.code.toList.length := by simpa using hsize
  have hsplit : d.code.toList = d.code.toList.take p ++ old :: d.code.toList.drop (p + 1) := by
    rw [← hat, ← Array.getElem_toList, List.getElem_cons_drop, List.take_append_drop]
  show (d.code.setIfInBounds p new).toList.filterMap pick = d.code.toList.filterMap pick
  rw [Array.toList_setIfInBounds, List.set_eq_take_append_cons_drop, if_pos hlt]
  conv => rhs; rw [hsplit]
  simp [hnone, hnew]

end Draft

/-- Nothing but jumps and empty places was changed or added. -/
structure Draft.Tended (d e : Draft) : Prop extends Draft.Before d e where
  code : ∀ (p : Nat) (i : Instruction), e.code[p]? = some i → d.code[p]? = some i ∨ i = .nop ∨ i.isJump = true
  picked : ∀ {β : Type} (pick : Instruction → Option β), Passive pick → e.picked pick = d.picked pick

namespace Draft.Tended

variable {d e g : Draft}

theorem refl (h : d.Clean) : d.Tended d := ⟨.refl h, fun _ _ hi => .inl hi, fun _ _ => rfl⟩

theorem trans (h : d.Tended e) (h' : e.Tended g) : d.Tended g := by
  refine ⟨h.toBefore.trans h'.toBefore, fun p i hi => ?_, fun pick hp => (h'.picked pick hp).trans (h.picked pick hp)⟩
  rcases h'.code p i hi with hi | hi
  · exact h.code p i hi
  · exact .inr hi

/-- One more place, empty or with a jump. -/
theorem push {i : Instruction} (hi : i = .nop ∨ i.isJump = true) (reserved : List Nat)
    (h : d.Before ⟨d.code.push i, reserved⟩) : d.Tended ⟨d.code.push i, reserved⟩ := by
  refine ⟨h, fun p ins hp => ?_, fun pick hpick => ?_⟩
  · have hp : (d.code.push i)[p]? = some ins := hp
    rw [Draft.getElem?_push] at hp
    split at hp
    · cases hp
      exact .inr hi
    · exact .inl hp
  · have hnone : pick i = none := by
      rcases hi with rfl | hi
      · exact hpick.nop
      · exact hpick.jump i hi
    exact (Draft.picked_add pick d i).trans (by simp [hnone])

/-- A jump takes the place of a jump or of an empty place. -/
theorem set {p : Nat} {old new : Instruction} (hold : d.code[p]? = some old) (hempty : old = .nop ∨ old.isJump = true)
    (hnew : new.isJump = true) (reserved : List Nat) (h : d.Before ⟨d.code.setIfInBounds p new, reserved⟩) :
    d.Tended ⟨d.code.setIfInBounds p new, reserved⟩ := by
  refine ⟨h, fun q ins hq => ?_, fun pick hpick => ?_⟩
  · have hq : (d.code.setIfInBounds p new)[q]? = some ins := hq
    rw [Draft.getElem?_set p q new hold] at hq
    split at hq
    · cases hq
      exact .inr (.inr hnew)
    · exact .inl hq
  · have hnone : pick old = none := by
      rcases hempty with rfl | hjump
      · exact hpick.nop
      · exact hpick.jump old hjump
    exact Draft.picked_set _ hold hnone (hpick.jump new hnew)

end Draft.Tended

/-- The edit changes and adds nothing but jumps and empty places. -/
def Steady (act : Drafting α) : Prop := ∀ d a e, d.Clean → act d = .ok a e → d.Tended e

namespace Steady

theorem bind {x : Drafting α} {f : α → Drafting β} (hx : Steady x) (hf : ∀ a, Steady (f a)) : Steady (x >>= f) := by
  intro d b e hd hr
  obtain ⟨a, d', hr₁, hr₂⟩ := drafting_bind_ok hr
  have hfirst := hx d a d' hd hr₁
  exact hfirst.trans (hf a d' b e hfirst.clean hr₂)

theorem pure {a : α} : Steady (Pure.pure a) := by
  intro d a e hd hr
  cases hr
  exact .refl hd

theorem label : Steady Drafting.label := by
  intro d a e hd hr
  cases hr
  exact .refl hd

theorem addJump (jump : Instruction) : Steady (Drafting.addJump jump) := by
  intro d a e hd hr
  have hadd := drafting_edit_ok hr
  unfold Draft.addJump at hadd
  split at hadd
  · rename_i hpending
    cases hadd
    exact .push (.inr (Draft.isJump_of_pending hpending)) _ (Draft.before_add hd jump)
  · cases hadd

theorem reserve : Steady Drafting.reserve := by
  intro d a e hd hr
  cases hr
  exact .push (.inl rfl) _ (Draft.before_reserve hd)

theorem fillJump (position : Nat) (jump : Instruction) : Steady (Drafting.fillJump position jump) := by
  intro d a e hd hr
  have hfill := drafting_edit_ok hr
  have hbefore := (Draft.before_fillJump hd hfill).1
  unfold Draft.fillJump Draft.fill at hfill
  split at hfill
  · rename_i hpending
    split at hfill
    · rename_i hreserved
      cases hfill
      exact .set (hd.empty _ hreserved) (.inl rfl) (Draft.isJump_of_pending hpending) _ hbefore
    · cases hfill
  · cases hfill

theorem patch (p : Patch) (a : Nat) : Steady (Drafting.patch p (.address a)) := by
  intro d _ e hd hr
  have hbefore := (before_patchEdit hd hr).1
  have hmap := drafting_edit_ok hr
  unfold Draft.patch at hmap
  cases hold : d.code[p.position]? with
  | none => rw [hold] at hmap; cases hmap
  | some i =>
    rw [hold] at hmap
    cases htarget : i.target? with
    | none => simp only [htarget] at hmap; cases hmap
    | some target =>
      have hjump : i.isJump = true := by rw [Instruction.isJump, htarget]; rfl
      have hjump' : (i.retarget (.address a)).isJump = true := by cases i <;> first | rfl | cases htarget
      cases target with
      | address _ => simp only [htarget] at hmap; cases hmap
      | pending =>
        simp only [htarget] at hmap
        cases hmap
        exact .set hold (.inr hjump) hjump' _ hbefore

theorem patchAll (ps : List Patch) (a : Nat) : Steady (Drafting.patchAll ps (.address a)) := by
  induction ps with
  | nil => exact .pure
  | cons p ps ih => exact .bind (.patch p a) fun _ => ih

theorem onSlot (cond : Slot) : Steady (Branch.onSlot cond) := .bind .reserve fun _ => .bind .label fun _ => .pure

theorem defer (b : Branch) (polarity : Bool) : Steady (b.defer polarity) := by
  refine .bind (.fillJump _ _) fun tail => ?_
  cases polarity <;> exact .bind (.patchAll _ _) fun _ => .pure

theorem resolve (b : Branch) (polarity : Bool) (a : Nat) : Steady (b.resolve polarity (.address a)) :=
  .bind (.defer b polarity) fun _ => .patchAll _ _

end Steady

end SlotCode
