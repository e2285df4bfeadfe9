/-
  SlotCode.Proofs.FaithfulAccess — variables, fields, arrays, classes and calls are lowered as they are evaluated.

  A parameter or a variable needs no code: its fixed slot is handed on. An assignment moves
  the value into that slot, last of all. Names are resolved once, to what evaluation finds
  each time. A native is called with what the operands hold when it is called.
-/

import SlotCode.Proofs.FaithfulOperators

namespace SlotCode

open Lowering Arith

variable {S : Scene} {g : Landings} {A : Anchor} {open_ : List (BlockId × Bool)} {s₀ s t : State} {σ τ : Store}
  {m : Machine} {x y : TypedSlot} {id : NodeId} {hint : Option TypedSlot} {offer : Option Offer} {demanded : Bool}
  {w : Walk} {ev : ChildEval} {visited : Visited} {type : ValueType}

/-! ## Parameters and variables -/

namespace Entry

/-- A fixed slot is handed on; whoever reads it finds what evaluation hands on. -/
theorem fixed {e : Eval (Option Operand)} (hS : S.Valid) (h : Entry S s₀ s id demanded open_ hint)
    (hc : S.ctx.function.Completes id) (hx : x ∈ S.ctx.params ++ S.ctx.vars) (hk : S.ctx.function.kind? id = some x.kind)
    (hoff : demanded = false → ∀ σ, e.on σ = some (.ok none, σ))
    (hon : demanded = true → ∀ live A σ m, Agrees S A none σ m → ∃ o, e.on σ = some (.ok (some o), σ) ∧ Held S live m x o)
    (hr : fixedSlot id x s = .ok (visited, t)) : Lowered S e id demanded open_ hint offer s₀ s t visited := by
  obtain ⟨_, s₁, hborrow, hr⟩ := bind_ok hr
  cases hborrow
  have halong : Along S.ctx s₀ (s.setNode id { s.node id with borrowed := true }) := h.along.setNode h.fresh (.inl rfl)
  have hgrows : Grows s (s.setNode id { s.node id with borrowed := true }) := .setNode h.along.books.clean id _
  have htouched : (s.node id).progress ≠ .untouched := h.touched
  have hlt : id < s.nodes.size := lt_of_touched htouched
  have hafter : ((s.setNode id { s.node id with borrowed := true }).node id).progress ≠ .untouched := by
    rw [node_setNode, if_pos ⟨rfl, hlt⟩]
    exact htouched
  obtain ⟨read, _, hread, hr⟩ := bind_ok hr
  cases hread
  rw [hS.isDemanded halong.books h.stands] at hr
  cases demanded with
  | false =>
    cases hr
    refine ⟨halong, hgrows, hafter, rfl, nofun, nofun, fun _ _ _ _ _ hready => ?_⟩
    rw [hoff rfl]
    exact .ok (Nat.le_refl 0) ⟨hready.pc, hc, .nothing hready.agrees⟩
  | true =>
    cases hr
    refine ⟨halong, hgrows, hafter, rfl, fun y hy => ?_, nofun, fun _ _ _ _ _ hready => ?_⟩
    · cases hy
      refine ⟨hk, halong.books.pool.fixed_has hx, .inr ?_⟩
      rw [node_setNode, if_pos ⟨rfl, hlt⟩]
    · obtain ⟨o, he, hheld⟩ := hon rfl s.pool.isLive _ _ _ hready.agrees
      rw [he]
      exact .ok (Nat.le_refl 0) ⟨hready.pc, hc, .held hready.agrees hheld⟩

theorem param {index : ParamId} (hS : S.Valid) (h : Entry S s₀ s id demanded open_ hint)
    (hn : S.ctx.function.node? id = some ⟨.param index, type⟩)
    (hr : Lowering.param S.ctx id index s = .ok (visited, t)) :
    Visits S ev ⟨.param index, type⟩ id demanded open_ hint offer s₀ s t visited := by
  unfold Lowering.param at hr
  cases hx : S.ctx.params[index]? with
  | none => simp only [hx] at hr; cases hr
  | some x =>
    simp only [hx] at hr
    have hkinds := congrArg (·[index]?) hS.params
    simp only [List.getElem?_map, hx, Option.map_some] at hkinds
    obtain ⟨u, hu, hkind⟩ := Option.map_eq_some_iff.1 hkinds
    have hfix : (Expr.param index).fixedType? S.ctx.function.scope = .ok (some u) := by
      simp [Expr.fixedType?, Function.scope, hu]
    refine h.fixed hS (hS.completes h.stands hn rfl) (List.mem_append_left _ (List.mem_of_getElem? hx))
      ((hS.shaped.kind_eq h.stands hn hfix).trans hkind) ?_ ?_ hr
    · rintro rfl σ
      rfl
    · rintro rfl live A σ m ha
      obtain ⟨v, hv, hget⟩ := ha.params index x hx
      refine ⟨.value v, ?_, hget, .inr (List.mem_of_getElem? hx)⟩
      show (Eval.lift (Fault.expect S.args[index]?) >>= fun v => pure (some (Operand.value v))).on σ = _
      rw [hv]
      rfl

end Entry

theorem Lowering.varSlot_ok {ctx : Context} {index : VarId} (hr : ctx.varSlot id index s = .ok (x, t)) :
    ctx.vars[index]? = some x ∧ t = s := by
  unfold Context.varSlot at hr
  cases hx : ctx.vars[index]? with
  | none => simp only [hx] at hr; cases hr
  | some y =>
    simp only [hx] at hr
    cases hr
    exact ⟨rfl, rfl⟩

namespace Entry

theorem getVar {index : VarId} (hS : S.Valid) (h : Entry S s₀ s id demanded open_ hint)
    (hn : S.ctx.function.node? id = some ⟨.getVar index, type⟩)
    (hr : Lowering.getVar S.ctx id index s = .ok (visited, t)) :
    Visits S ev ⟨.getVar index, type⟩ id demanded open_ hint offer s₀ s t visited := by
  obtain ⟨x, s₁, hvar, hr₁⟩ := bind_ok hr
  obtain ⟨hx, rfl⟩ := varSlot_ok hvar
  have hkinds := congrArg (·[index]?) hS.vars
  simp only [List.getElem?_map, hx, Option.map_some] at hkinds
  obtain ⟨u, hu, hkind⟩ := Option.map_eq_some_iff.1 hkinds
  have hfix : (Expr.getVar index).fixedType? S.ctx.function.scope = .ok (some u) := by
    simp [Expr.fixedType?, Function.scope, hu]
  refine h.fixed hS (hS.completes h.stands hn rfl) (List.mem_append_right _ (List.mem_of_getElem? hx))
    ((hS.shaped.kind_eq h.stands hn hfix).trans hkind) ?_ ?_ hr₁
  · rintro rfl σ
    rfl
  · rintro rfl live A σ m ha
    exact ⟨.var index, rfl, hx⟩

/-- The variable's slot is written last, so an operand that reads the variable finds the old value. -/
theorem setVar {index : VarId} {value : NodeId} (hS : S.Valid) (hw : Builds S w ev)
    (h : Entry S s₀ s id demanded open_ hint) (hn : S.ctx.function.node? id = some ⟨.setVar index value, type⟩)
    (hr : Lowering.setVar S.ctx w id index value s = .ok (visited, t)) :
    Visits S ev ⟨.setVar index value, type⟩ id demanded open_ hint offer s₀ s t visited := by
  obtain rfl := h.stands.unread (hS.shaped.kind_eq h.stands hn rfl)
  obtain ⟨x, s₁, hvar, hr₁⟩ := bind_ok hr
  obtain ⟨hx, rfl⟩ := varSlot_ok hvar
  obtain ⟨took, s₂, hinto, hr₂⟩ := bind_ok hr₁
  cases hr₂
  have hmem : x ∈ S.ctx.vars := List.mem_of_getElem? hx
  have hpool := h.along.books.pool
  have hloose : x ∉ S.ctx.params := fun hp => (List.nodup_append.1 hS.apart).2.2 x hp x hmem rfl
  have hst : S.ctx.function.Stands value (S.ctx.function.reads true value .forward) open_ :=
    h.stands.child hn (e := .operand) List.mem_cons_self
  have hchild := hw.valueInto hst h.along.books ⟨hpool.fixed_has (List.mem_append_right _ hmem), hloose⟩ offerFits_none hinto
  refine h.ofEffect hchild.along (fun {_ A _ _} hready => ?_) (hS.completes h.stands hn rfl)
  have hdead : A.live x = false := by
    cases hlive : A.live x with
    | false => rfl
    | true =>
      have := hready.live x hlive
      rw [hpool.fixed_dead (List.mem_append_right _ hmem)] at this
      cases this
  refine (hchild.runs hchild.untaken hready).bind ?_
  rintro o τ m₁ ⟨hpc, -, harrived⟩
  unfold Function.aim at harrived
  split at harrived
  · cases harrived with
    | stored hv =>
      refine .silent (Eval.on_pure _ τ) ?_
      exact .ok (Nat.le_refl 0) ⟨hpc, rfl, hv.agrees.assigned hS hx hv.value hdead⟩
  · cases harrived with
    | nothing ha => exact .ok (Nat.le_refl 0) ⟨hpc, rfl, ha⟩

end Entry

/-! ## Fields, elements and classes -/

theorem Lowering.lookup_ok {α : Type} {r : Except Missing α} {a : α} (hr : lookup r s = .ok (a, t)) : r = .ok a ∧ t = s := by
  cases r with
  | error e => cases hr
  | ok b =>
    cases hr
    exact ⟨rfl, rfl⟩

theorem Lowering.checkField_ok {field : FieldRef} {declared : ValueType} (hr : checkField id field declared s = .ok ((), t)) :
    t = s := by
  unfold checkField at hr
  split at hr
  · cases hr
  · cases hr
    rfl

theorem Lowering.classId_ok {ctx : Context} {className : String} {c : ClassId}
    (hr : ctx.classId id className s = .ok (c, t)) : ctx.env.classes.find? className = some c ∧ t = s := by
  unfold Context.classId at hr
  cases hc : ctx.env.classes.find? className with
  | none => simp only [hc] at hr; cases hr
  | some c' =>
    simp only [hc] at hr
    cases hr
    exact ⟨rfl, rfl⟩

namespace Entry

theorem getField {field : FieldRef} {object : NodeId} (hS : S.Valid) (hw : Builds S w ev)
    (h : Entry S s₀ s id demanded open_ hint) (hn : S.ctx.function.node? id = some ⟨.getField field object, type⟩)
    (hr : Lowering.getField S.ctx w id field object hint s = .ok (visited, t)) :
    Visits S ev ⟨.getField field object, type⟩ id demanded open_ hint offer s₀ s t visited := by
  obtain ⟨found, s₁, hlookup, hr₁⟩ := bind_ok hr
  obtain ⟨hfield, rfl⟩ := lookup_ok hlookup
  cases found with
  | none => cases hr₁
  | some p =>
    obtain ⟨index, declared⟩ := p
    obtain ⟨_, s₂, hcheck, hr₂⟩ := bind_ok hr₁
    obtain ⟨_, s₃, hexpect, hr₃⟩ := bind_ok hr₂
    obtain rfl := checkField_ok hcheck
    obtain ⟨rfl, hko⟩ := expectType_ok hexpect
    refine h.onOperand hS hw (hS.completes h.stands hn rfl) (h.stands.child hn List.mem_cons_self) (by nofun)
      (fun _ _ => rfl) ?_ hr₃
    intro r y m v hkr hky hcode hhas hget
    rw [Function.kind?_of_node hn] at hkr
    rw [show (⟨.getField field object, type⟩ : Node).type.kind? = some r.kind from hkr]
    show S.image.Performs m r (S.ctx.env.fieldOf field (some r.kind) m.world v)
    rw [← hS.env] at hfield ⊢
    exact Image.performs_getField hfield hcode hhas hget (Option.some.inj (hky.symm.trans hko))

theorem getStatic {field : FieldRef} (hS : S.Valid) (h : Entry S s₀ s id demanded open_ hint)
    (hn : S.ctx.function.node? id = some ⟨.getStatic field, type⟩)
    (hr : Lowering.getStatic S.ctx id field hint s = .ok (visited, t)) :
    Visits S ev ⟨.getStatic field, type⟩ id demanded open_ hint offer s₀ s t visited := by
  unfold Lowering.getStatic at hr
  cases hfield : S.ctx.env.resolveStatic field.owner field.name with
  | none => simp only [hfield] at hr; cases hr
  | some p =>
    obtain ⟨index, declared⟩ := p
    simp only [hfield] at hr
    obtain ⟨_, s₁, hcheck, hr₁⟩ := bind_ok hr
    obtain rfl := checkField_ok hcheck
    refine h.leaf (fun r => .getStatic r.kind r.slot index) (S.ctx.env.staticOf field type.kind?) hS
      (hS.completes h.stands hn rfl) ?_ ?_ nofun (fun _ => rfl) ?_ hr₁
    · rintro rfl σ
      rfl
    · rintro rfl g - σ
      rfl
    · intro r m hkr hcode hhas
      rw [Function.kind?_of_node hn] at hkr
      rw [show type.kind? = some r.kind from hkr]
      rw [← hS.env] at hfield ⊢
      exact Image.performs_getStatic hfield hcode hhas

theorem arrayElement {array index : NodeId} (hS : S.Valid) (hw : Builds S w ev)
    (h : Entry S s₀ s id demanded open_ hint) (hn : S.ctx.function.node? id = some ⟨.arrayElement array index, type⟩)
    (hr : Lowering.arrayElement S.ctx w id array index hint s = .ok (visited, t)) :
    Visits S ev ⟨.arrayElement array index, type⟩ id demanded open_ hint offer s₀ s t visited := by
  obtain ⟨_, s₁, hexpect₁, hr₁⟩ := bind_ok hr
  obtain ⟨_, s₂, hexpect₂, hr₂⟩ := bind_ok hr₁
  obtain ⟨rfl, hka⟩ := expectType_ok hexpect₁
  obtain ⟨rfl, hki⟩ := expectType_ok hexpect₂
  refine h.onOperands hS hw (hS.completes h.stands hn rfl) (h.stands.child hn List.mem_cons_self)
    (h.stands.child hn (List.mem_cons_of_mem _ List.mem_cons_self)) (by nofun) (fun _ _ _ => rfl) ?_ hr₂
  intro r y z m v u hkr hky hkz hcode hhas hgety hgetz
  rw [Function.kind?_of_node hn] at hkr
  rw [show (⟨.arrayElement array index, type⟩ : Node).type.kind? = some r.kind from hkr]
  exact Image.performs_arrayGet hcode hhas hgety hgetz (Option.some.inj (hky.symm.trans hka))
    (Option.some.inj (hkz.symm.trans hki))

theorem cast {value : NodeId} {className : String} (hS : S.Valid) (hw : Builds S w ev)
    (h : Entry S s₀ s id demanded open_ hint) (hn : S.ctx.function.node? id = some ⟨.cast value className, type⟩)
    (hr : Lowering.cast S.ctx w id value className hint s = .ok (visited, t)) :
    Visits S ev ⟨.cast value className, type⟩ id demanded open_ hint offer s₀ s t visited := by
  obtain ⟨c, s₁, hclass, hr₁⟩ := bind_ok hr
  obtain ⟨_, s₂, hexpect, hr₂⟩ := bind_ok hr₁
  obtain ⟨hfind, rfl⟩ := classId_ok hclass
  obtain ⟨rfl, hkv⟩ := expectType_ok hexpect
  refine h.onOperand hS hw (hS.completes h.stands hn rfl) (h.stands.child hn List.mem_cons_self) (by nofun)
    (fun _ _ => rfl) ?_ hr₂
  intro r y m v hkr hky hcode hhas hget
  show S.image.Performs m r (S.ctx.env.castTo className m.world v)
  rw [← hS.env] at hfind ⊢
  exact Image.performs_cast hfind hcode hhas hget (Option.some.inj (hky.symm.trans hkv))
    (Option.some.inj (hkr.symm.trans (hS.shaped.kind_eq h.stands hn rfl)))

theorem instanceOf {value : NodeId} {className : String} (hS : S.Valid) (hw : Builds S w ev)
    (h : Entry S s₀ s id demanded open_ hint) (hn : S.ctx.function.node? id = some ⟨.instanceOf value className, type⟩)
    (hr : Lowering.instanceOf S.ctx w id value className hint s = .ok (visited, t)) :
    Visits S ev ⟨.instanceOf value className, type⟩ id demanded open_ hint offer s₀ s t visited := by
  obtain ⟨c, s₁, hclass, hr₁⟩ := bind_ok hr
  obtain ⟨_, s₂, hexpect, hr₂⟩ := bind_ok hr₁
  obtain ⟨hfind, rfl⟩ := classId_ok hclass
  obtain ⟨rfl, hkv⟩ := expectType_ok hexpect
  refine h.onOperand hS hw (hS.completes h.stands hn rfl) (h.stands.child hn List.mem_cons_self) (by nofun)
    (fun _ _ => rfl) ?_ hr₂
  intro r y m v hkr hky hcode hhas hget
  show S.image.Performs m r (S.ctx.env.isA className m.world v)
  rw [← hS.env] at hfind ⊢
  exact Image.performs_instanceOf hfind hcode hhas hget (Option.some.inj (hky.symm.trans hkv))
    (Option.some.inj (hkr.symm.trans (hS.shaped.kind_eq h.stands hn rfl)))

theorem setArrayElement {array index value : NodeId} (hS : S.Valid) (hw : Builds S w ev)
    (h : Entry S s₀ s id demanded open_ hint) (hn : S.ctx.function.node? id = some ⟨.setArrayElement array index value, type⟩)
    (hr : Lowering.setArrayElement S.ctx w array index value s = .ok (visited, t)) :
    Visits S ev ⟨.setArrayElement array index value, type⟩ id demanded open_ hint offer s₀ s t visited := by
  obtain rfl := h.stands.unread (hS.shaped.kind_eq h.stands hn rfl)
  obtain ⟨_, _, hexpect₁, hr₁⟩ := bind_ok hr
  obtain ⟨_, _, hexpect₂, hr₂⟩ := bind_ok hr₁
  obtain ⟨rfl, hka⟩ := expectType_ok hexpect₁
  obtain ⟨rfl, hki⟩ := expectType_ok hexpect₂
  obtain ⟨x, s₁, hoperand₁, hr₃⟩ := bind_ok hr₂
  obtain ⟨y, s₂, hoperand₂, hr₄⟩ := bind_ok hr₃
  obtain ⟨z, s₃, hoperand₃, hr₅⟩ := bind_ok hr₄
  obtain ⟨_, s₄, hrelease₃, hr₆⟩ := bind_ok hr₅
  obtain ⟨_, s₅, hrelease₂, hr₇⟩ := bind_ok hr₆
  obtain ⟨_, s₆, hrelease₁, hr₈⟩ := bind_ok hr₇
  obtain ⟨_, s₇, hemit, hr₉⟩ := bind_ok hr₈
  cases hr₉
  obtain rfl := emit_ok hemit
  have hfirst := hw.operand (h.stands.child hn List.mem_cons_self) h.along.books hoperand₁
  have hsecond := hw.operand (h.stands.child hn (List.mem_cons_of_mem _ List.mem_cons_self)) hfirst.along.books hoperand₂
  have hthird := hw.operand (h.stands.child hn (List.mem_cons_of_mem _ (List.mem_cons_of_mem _ List.mem_cons_self)))
    hsecond.along.books hoperand₃
  have htwo := hfirst.along.trans hsecond.along
  have hall := htwo.trans hthird.along
  have hlent₁ := hfirst.lent.since (hsecond.along.since.trans hthird.along.since)
  have hlent₂ := (hsecond.lent.back hfirst.along.since).since hthird.along.since
  have hfreed₃ := release_ok hall (hthird.lent.back htwo.since) hrelease₃
  have hfreed₂ := release_ok hfreed₃.along (hlent₂.freed hfreed₃) hrelease₂
  have hfreed₁ := release_ok hfreed₂.along ((hlent₁.freed hfreed₃).freed hfreed₂) hrelease₁
  have hdraft : s₆.draft = s₃.draft := hfreed₁.draft.trans (hfreed₂.draft.trans hfreed₃.draft)
  have hadded := Books.emit hfreed₁.along.books (.arraySet z.kind x.slot y.slot z.slot)
  refine h.ofEffect (hfreed₁.along.trans hadded) (fun hready => ?_) (hS.completes h.stands hn rfl)
  have hgrows := (hfreed₃.grows.trans hfreed₂.grows).trans (hfreed₁.grows.trans hadded.since.toGrows)
  have hlabel : (s₆.draft.add (.arraySet z.kind x.slot y.slot z.slot)).label = s₃.draft.label + 1 := by
    rw [Draft.label_add, hdraft]
  have hlabel₁ := hfirst.along.since.label
  have hlabel₂ := hsecond.along.since.label
  have hlabel₃ := hthird.along.since.label
  have hfinal₃ := hgrows.final hready.final
  have hfinal₂ := hthird.along.since.toGrows.final hfinal₃
  have hfinal₁ := hsecond.along.since.toGrows.final hfinal₂
  have hrun₁ := hfirst.follows h.along.books.along.since ⟨hfinal₁, hready.scope, hready.live, hready.agrees, hready.pc⟩
  refine (hrun₁.widen (Nat.le_refl _) (by show _ ≤ (s₆.draft.add _).label; omega)).bind ?_
  rintro o₁ τ₁ m₁ ⟨hpc₁, ha₁, hheld₁, -⟩
  have hrun₂ := hsecond.follows hfirst.along.since ⟨hfinal₂, hready.scope, hready.live, ha₁, hpc₁⟩
  refine (hrun₂.widen (by omega) (by show _ ≤ (s₆.draft.add _).label; omega)).bind ?_
  rintro o₂ τ₂ m₂ ⟨hpc₂, ha₂, hheld₂, hkept₂⟩
  have hrun₃ := hthird.follows htwo.since ⟨hfinal₃, hready.scope, hready.live, ha₂, hpc₂⟩
  refine (hrun₃.widen (by omega) (by show _ ≤ (s₆.draft.add _).label; omega)).bind ?_
  rintro o₃ τ m ⟨hpc, ha, hheld₃, hkept₃⟩
  obtain ⟨v₁, hv₁, hx⟩ := (hkept₃ x o₁ (hkept₂ x o₁ hheld₁)).read ha
  obtain ⟨v₂, hv₂, hy⟩ := (hkept₃ y o₂ hheld₂).read ha
  obtain ⟨v₃, hv₃, hz⟩ := hheld₃.read ha
  refine .silent hv₁ (.silent hv₂ (.silent hv₃ (.silent (Eval.on_get τ) ?_)))
  have hcode : S.code[m.pc]? = some (.arraySet z.kind x.slot y.slot z.slot) := by
    rw [hpc, ← hdraft]
    exact hready.final.emitted nofun rfl
  have hdoes := Image.does_arraySet hcode hx hy hz (Option.some.inj (hfirst.kind.symm.trans hka))
    (Option.some.inj (hsecond.kind.symm.trans hki))
  rw [← ha.world]
  refine .does hdoes (by omega) (by show _ < (s₆.draft.add _).label; omega) ha fun world _ => ?_
  refine .ok (Nat.zero_le _) ⟨?_, rfl, ha.moved world⟩
  show m.pc + 1 = (s₆.draft.add _).label
  omega

end Entry

/-! ## Bounds -/

theorem Agrees.next {skip : Option TypedSlot} (h : Agrees S A skip σ m) : Agrees S A skip σ m.next := h.goto _

namespace Lowering

/-- The parts of a bounds check, by name. -/
def lowerBound (lower : Bool) (index : TypedSlot) : Lower Unit := if lower then emit (.lowerBound index.slot) else pure ()

def handOn (ctx : Context) (id : NodeId) (hint : Option TypedSlot) (index : TypedSlot) : Lower Visited := do
  match ← ctx.demandedSlot id hint with
  | none => return {}
  | some r =>
    if r ≠ index then emit (.move .int r.slot index.slot)
    return { slot := some r }

theorem upperBound_eq (ctx : Context) (w : Walk) (index : TypedSlot) (lower : Bool) (array : NodeId) :
    upperBound ctx w index lower array = (do
      ctx.expectType array .object
      let a ← w.operand array
      lowerBound lower index
      emit (.upperBound index.slot a.slot)
      release array) := by
  cases lower <;> rfl

theorem boundsCheck_none (ctx : Context) (w : Walk) (id index : NodeId) (lower : Bool) (hint : Option TypedSlot) :
    boundsCheck ctx w id index none lower hint = (do
      ctx.expectType index .int
      let i ← w.operand index
      lowerBound lower i
      release index
      handOn ctx id hint i) := by
  cases lower <;> rfl

theorem boundsCheck_some (ctx : Context) (w : Walk) (id index array : NodeId) (lower : Bool) (hint : Option TypedSlot) :
    boundsCheck ctx w id index (some array) lower hint = (do
      ctx.expectType index .int
      let i ← w.operand index
      upperBound ctx w i lower array
      release index
      handOn ctx id hint i) := rfl

/-- What stands at the next position when the lower bound is checked. -/
theorem lowerBound_ok {lower : Bool} (hb : Books S.ctx s) (hr : lowerBound lower y s = .ok ((), t)) :
    Along S.ctx s t ∧ t.draft.label = s.draft.label + lower.toNat ∧ (∀ i, Lent s₀ s i → Lent s₀ t i) ∧
      ∀ g, Final S g t → lower = true → S.code[s.draft.label]? = some (.lowerBound y.slot) := by
  cases lower with
  | false =>
    cases hr
    exact ⟨hb.along, rfl, fun _ h => h, nofun⟩
  | true =>
    obtain rfl := emit_ok hr
    exact ⟨Books.emit hb _, Draft.label_add _ _, fun _ h => h.redraft, fun g hf _ => hf.emitted nofun rfl⟩

end Lowering

theorem Follows.checkLower {lower : Bool} {lo hi p q : Nat} {β : Type} {k : Eval β} {R : β → Store → Machine → Prop}
    {v : Value} (hy : m.registers.get? y = some v) (hk : y.kind = .int) (ha : Agrees S A none σ m)
    (hcode : lower = true → S.code[m.pc]? = some (.lowerBound y.slot)) (hlo : lo ≤ m.pc) (hhi : m.pc + lower.toNat ≤ hi)
    (h : ∀ p m₁, m₁.registers = m.registers → m₁.pc = m.pc + lower.toNat → Agrees S A none σ m₁ →
      Follows S g A lo hi p (k.on σ) m₁ q R) :
    Follows S g A lo hi p ((Eval.lift (World.checkLowerIf lower v) >>= fun _ => k).on σ) m q R := by
  cases lower with
  | false => exact .silent (Eval.on_pure () σ) (h p m rfl rfl ha)
  | true =>
    have hdoes := Image.does_lowerBound (hcode rfl) hy hk
    exact .does hdoes hlo hhi ha fun _ _ => h _ _ rfl rfl ha.next

namespace Entry

/-- The index itself is the value, moved unless it is in the node's slot already. -/
theorem handsOn (hS : S.Valid) (h : Entry S s₀ s id demanded open_ hint) (hc : S.ctx.function.Completes id)
    (hk : S.ctx.function.kind? id = some .int) (hy : y.kind = .int)
    (hr : handOn S.ctx id hint y s = .ok (visited, t)) :
    ∃ r t', visited = ⟨r, false⟩ ∧ Slotted S s₀ s t' id demanded hint r ∧ Along S.ctx t' t ∧
      ∀ {g A σ m lo p v}, Final S g t → (∀ x, A.live x = true → s₀.pool.isLive x = true) → Agrees S A none σ m →
        m.registers.get? y = some v → m.pc = s.draft.label → lo ≤ m.pc →
          Follows S g A lo t.draft.label p (some (.ok (given demanded v), σ)) m 0 (Ends S A id t hint r) := by
  obtain ⟨r, s₁, hslot, hr₁⟩ := bind_ok hr
  have hslotted := h.demandedSlot hS hslot
  obtain rfl := hslotted.slot
  cases r with
  | none =>
    cases hr₁
    refine ⟨none, t, rfl, hslotted, hslotted.along.books.along, fun hf hlive ha hget hpc hlo => ?_⟩
    exact .ok (Nat.zero_le _) ⟨hpc.trans (congrArg _ hslotted.draft).symm, hc, .nothing ha⟩
  | some r =>
    have htarget := hslotted.target r rfl
    have hkr : r.kind = .int := Option.some.inj (htarget.kind.symm.trans hk)
    by_cases hne : r = y
    · subst hne
      simp only [ne_eq, not_true_eq_false, if_false] at hr₁
      cases hr₁
      refine ⟨some r, t, rfl, hslotted, hslotted.along.books.along, fun hf hlive ha hget hpc hlo => ?_⟩
      refine .ok (Nat.zero_le _) ⟨hpc.trans (congrArg _ hslotted.draft).symm, hc, ?_⟩
      exact hslotted.delivers hslotted.along.books.along.since hlive ⟨ha.leaveOut r, hget⟩
    · simp only [ne_eq, hne, not_false_eq_true, if_true] at hr₁
      obtain ⟨_, s₂, hemit, hr₂⟩ := bind_ok hr₁
      cases hr₂
      obtain rfl := emit_ok hemit
      have hend := Books.emit hslotted.along.books (.move .int r.slot y.slot)
      refine ⟨some r, s₁, rfl, hslotted, hend, fun {g A σ m lo p v} hf hlive ha hget hpc hlo => ?_⟩
      have hlabel : (s₁.draft.add (.move .int r.slot y.slot)).label = s.draft.label + 1 := by
        rw [Draft.label_add, hslotted.draft]
      have hhas : m.registers.has r = true := hf.covered ha htarget.has
      have hcode : S.code[m.pc]? = some (.move r.kind r.slot y.slot) := by
        rw [hpc, ← hslotted.draft, hkr]
        exact hf.emitted nofun rfl
      have hmove := Image.performs_move hcode hhas hget (hy.trans hkr.symm)
      refine .writes hmove hlo (by show _ < (s₁.draft.add _).label; omega) ha htarget.loose hhas fun hv => ?_
      refine .ok (Nat.zero_le _) ⟨?_, hc, hslotted.delivers hend.since hlive hv⟩
      show m.pc + 1 = (s₁.draft.add _).label
      omega

/-- Without an array, only the lower bound is checked. -/
theorem boundsCheckAlone {index : NodeId} {lower : Bool} (hS : S.Valid) (hw : Builds S w ev)
    (h : Entry S s₀ s id demanded open_ hint) (hn : S.ctx.function.node? id = some ⟨.boundsCheck index none lower, type⟩)
    (hr : Lowering.boundsCheck S.ctx w id index none lower hint s = .ok (visited, t)) :
    Visits S ev ⟨.boundsCheck index none lower, type⟩ id demanded open_ hint offer s₀ s t visited := by
  have hkind := hS.shaped.kind_eq h.stands hn rfl
  have hc := hS.completes h.stands hn rfl
  rw [boundsCheck_none] at hr
  obtain ⟨_, _, hexpect, hr₁⟩ := bind_ok hr
  obtain ⟨rfl, hki⟩ := expectType_ok hexpect
  obtain ⟨y, s₁, hoperand, hr₂⟩ := bind_ok hr₁
  obtain ⟨_, s₂, hlower, hr₃⟩ := bind_ok hr₂
  obtain ⟨_, s₃, hrelease, hr₄⟩ := bind_ok hr₃
  have hchild := hw.operand (h.stands.child hn List.mem_cons_self) h.along.books hoperand
  have hy : y.kind = .int := Option.some.inj (hchild.kind.symm.trans hki)
  obtain ⟨hchecked, hlabel, hlent, hcode⟩ := lowerBound_ok hchild.along.books hlower
  have hfreed := release_ok (hchild.along.trans hchecked) (hlent _ hchild.lent) hrelease
  obtain ⟨r, t', rfl, hslotted, hend, hruns⟩ := (h.advance hfreed.along).handsOn hS hc hkind hy hr₄
  refine hslotted.lowered hfreed.along.since.toGrows hend fun hready => ?_
  have hgrows := hfreed.grows.trans (hslotted.grows.trans hend.since.toGrows)
  have hfinal₂ := hgrows.final hready.final
  have hfinal₁ := hchecked.since.toGrows.final hfinal₂
  have hlabel₁ := hchild.along.since.label
  have hlabel₂ := hgrows.label
  have hrun := hchild.follows h.along.since ⟨hfinal₁, hready.scope, hready.live, hready.agrees, hready.pc⟩
  refine (hrun.widen (Nat.le_refl _) (by omega)).bind ?_
  rintro o τ m₁ ⟨hpc, ha, hheld, -⟩
  obtain ⟨v, hv, hget⟩ := hheld.read ha
  refine .silent hv ?_
  refine .checkLower hget hy ha (hpc ▸ hcode _ hfinal₂) (by omega) (by omega) fun p m₂ hregs hpc₂ ha₂ => ?_
  refine hruns hready.final hready.live ha₂ (hregs ▸ hget) ?_ (by omega)
  rw [hpc₂, hpc, ← hlabel, hfreed.draft]

theorem boundsCheckArray {index array : NodeId} {lower : Bool} (hS : S.Valid) (hw : Builds S w ev)
    (h : Entry S s₀ s id demanded open_ hint)
    (hn : S.ctx.function.node? id = some ⟨.boundsCheck index (some array) lower, type⟩)
    (hr : Lowering.boundsCheck S.ctx w id index (some array) lower hint s = .ok (visited, t)) :
    Visits S ev ⟨.boundsCheck index (some array) lower, type⟩ id demanded open_ hint offer s₀ s t visited := by
  have hkind := hS.shaped.kind_eq h.stands hn rfl
  have hc := hS.completes h.stands hn rfl
  rw [boundsCheck_some] at hr
  obtain ⟨_, _, hexpect₁, hr₁⟩ := bind_ok hr
  obtain ⟨rfl, hki⟩ := expectType_ok hexpect₁
  obtain ⟨y, s₁, hoperand₁, hr₂⟩ := bind_ok hr₁
  obtain ⟨_, s₅, hupper, hr₃⟩ := bind_ok hr₂
  rw [upperBound_eq] at hupper
  obtain ⟨_, _, hexpect₂, hu₁⟩ := bind_ok hupper
  obtain ⟨rfl, hka⟩ := expectType_ok hexpect₂
  obtain ⟨z, s₂, hoperand₂, hu₂⟩ := bind_ok hu₁
  obtain ⟨_, s₃, hlower, hu₃⟩ := bind_ok hu₂
  obtain ⟨_, s₄, hemit, hrelease₂⟩ := bind_ok hu₃
  obtain ⟨_, s₆, hrelease₁, hr₄⟩ := bind_ok hr₃
  obtain rfl := emit_ok hemit
  have hfirst := hw.operand (h.stands.child hn List.mem_cons_self) h.along.books hoperand₁
  have hsecond := hw.operand (h.stands.child hn (List.mem_cons_of_mem _ List.mem_cons_self)) hfirst.along.books hoperand₂
  have hy : y.kind = .int := Option.some.inj (hfirst.kind.symm.trans hki)
  have hz : z.kind = .object := Option.some.inj (hsecond.kind.symm.trans hka)
  obtain ⟨hchecked, hlabel, hlent, hcode⟩ := lowerBound_ok hsecond.along.books hlower
  have hadded := Books.emit hchecked.books (.upperBound y.slot z.slot)
  have hboth := hfirst.along.trans hsecond.along
  have hlent₁ := (hlent _ (hfirst.lent.since hsecond.along.since)).since hadded.since
  have hlent₂ := (hlent _ (hsecond.lent.back hfirst.along.since)).since hadded.since
  have hfreed₂ := release_ok (hboth.trans (hchecked.trans hadded)) hlent₂ hrelease₂
  have hfreed₁ := release_ok hfreed₂.along (hlent₁.freed hfreed₂) hrelease₁
  obtain ⟨r, t', rfl, hslotted, hend, hruns⟩ := (h.advance hfreed₁.along).handsOn hS hc hkind hy hr₄
  refine hslotted.lowered hfreed₁.along.since.toGrows hend fun hready => ?_
  have hgrows := (hfreed₂.grows.trans hfreed₁.grows).trans (hslotted.grows.trans hend.since.toGrows)
  have hfinal₄ := hgrows.final hready.final
  have hfinal₃ := hadded.since.toGrows.final hfinal₄
  have hfinal₂ := hchecked.since.toGrows.final hfinal₃
  have hlabel₁ := hfirst.along.since.label
  have hlabel₂ := hsecond.along.since.label
  have hlabel₄ : (s₃.draft.add (.upperBound y.slot z.slot)).label = s₃.draft.label + 1 := Draft.label_add _ _
  have hlabel₅ : (s₃.draft.add (.upperBound y.slot z.slot)).label ≤ t.draft.label := hgrows.label
  have hrun₁ := hfirst.follows h.along.since
    ⟨hsecond.along.since.toGrows.final hfinal₂, hready.scope, hready.live, hready.agrees, hready.pc⟩
  refine (hrun₁.widen (Nat.le_refl _) (by omega)).bind ?_
  rintro o₁ τ₁ m₁ ⟨hpc₁, ha₁, hheld₁, -⟩
  have hrun₂ := hsecond.follows (h.along.trans hfirst.along).since ⟨hfinal₂, hready.scope, hready.live, ha₁, hpc₁⟩
  refine (hrun₂.widen (by omega) (by omega)).bind ?_
  rintro o₂ τ m₂ ⟨hpc, ha, hheld₂, hkept⟩
  obtain ⟨v, hv, hgety⟩ := (hkept y o₁ hheld₁).read ha
  obtain ⟨u, hu, hgetz⟩ := hheld₂.read ha
  refine .silent hv (.silent hu ?_)
  refine .checkLower hgety hy ha (hpc ▸ hcode _ hfinal₃) (by omega) (by omega) fun p m₃ hregs hpc₃ ha₃ => ?_
  refine .silent (Eval.on_get τ) ?_
  have hat : m₃.pc = s₃.draft.label := by rw [hpc₃, hpc, hlabel]
  have hdoes := Image.does_upperBound (hat ▸ hfinal₄.emitted nofun rfl) (hregs ▸ hgety) (hregs ▸ hgetz) hy hz
  rw [← ha₃.world]
  refine .does hdoes (by omega) (by omega) ha₃ fun _ _ => ?_
  refine hruns hready.final hready.live ha₃.next (hregs ▸ hgety) ?_ (by show _ ≤ m₃.pc + 1; omega)
  show m₃.pc + 1 = s₆.draft.label
  rw [hfreed₁.draft, hfreed₂.draft]
  show m₃.pc + 1 = (s₃.draft.add _).label
  omega

theorem boundsCheck {index : NodeId} {array : Option NodeId} {lower : Bool} (hS : S.Valid) (hw : Builds S w ev)
    (h : Entry S s₀ s id demanded open_ hint) (hn : S.ctx.function.node? id = some ⟨.boundsCheck index array lower, type⟩)
    (hr : Lowering.boundsCheck S.ctx w id index array lower hint s = .ok (visited, t)) :
    Visits S ev ⟨.boundsCheck index array lower, type⟩ id demanded open_ hint offer s₀ s t visited := by
  cases array with
  | none => exact h.boundsCheckAlone hS hw hn hr
  | some array => exact h.boundsCheckArray hS hw hn hr

end Entry

end SlotCode
