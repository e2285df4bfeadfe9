/-
  SlotCode.Proofs.BalancedWalk — the whole walk keeps the accounts balanced.

  One lemma for each way of lowering a node: from an account that owes the visits of its
  edges, in order, to one that owes none of them and knows where the value is (`Hands`). A
  child is visited as its edge says, for its value exactly when the analysis counted a
  read. Then the walk itself, by induction on its room.

  Most consumers look at the type of a child before they ask for its value, so that they
  only ask where there is one. Two do not: a store into an array takes its value of any
  type, and a call takes its arguments as the native is declared, which may be without
  values. So when lowering finds that nobody was counted who reads a node, one of these
  two is its consumer.

  Every lemma speaks of two walks at once, which do the same as long as the accounts are
  balanced. So a walk that checks the books at every visit, and otherwise does as the plain
  one, is covered by the same proof.
-/

import SlotCode.Proofs.Visits

namespace SlotCode

/-! ## Operands have values -/

theorem UnaryOp.operandType_kind (op : UnaryOp) : op.operandType.kind?.isSome = true := by
  cases op with
  | invert w => cases w <;> rfl
  | negate w => cases w <;> rfl
  | negateFloat p => cases p <;> rfl
  | convert c => cases c <;> rfl
  | _ => rfl

theorem BinaryOp.operandTypes_kind (op : BinaryOp) : op.firstType.kind?.isSome = true ∧ op.secondType.kind?.isSome = true := by
  cases op with
  | arith w op => cases w <;> cases op <;> exact ⟨rfl, rfl⟩
  | real p op => cases p <;> exact ⟨rfl, rfl⟩
  | orderFloat p => cases p <;> exact ⟨rfl, rfl⟩
  | _ => exact ⟨rfl, rfl⟩

namespace Lowering

/-- Two walks do the same, and pay the due that a visit is meant for. -/
structure Walk.Balances (ctx : Context) (w' w : Walk) : Prop where
  build : ∀ (g : Account) (d : Due) u hint offer, d.Made ctx.function u →
    (d.reads = true → 0 < g.readers.count d.child ∨ d.child = ctx.function.body) →
      Mirrors (Balanced ctx (g.owing [d])) (w'.build d.child u hint offer) (w.build d.child u hint offer)
        (fun _ => Balanced ctx g) (Sane ctx.function)
  condition : ∀ (g : Account) (d : Due), d.reads = (ctx.function.kind? d.child).isSome →
    Mirrors (Balanced ctx (g.owing [d])) (w'.condition d.child) (w.condition d.child) (fun _ => Balanced ctx g)
      (Sane ctx.function)

variable {α β : Type} {w' w : Walk} {ctx : Context} {g : Account} {d : Due} {id : NodeId} {hint : Option TypedSlot}

/-! ## Steps that leave the books alone -/

theorem Hands.of_books {s t : State} {slot : Option TypedSlot} (h : Hands ctx g id hint slot s) (e : t.books = s.books) :
    Hands ctx g id hint slot t :=
  ⟨h.1, h.2.imp fun _ hc => ⟨hc.1, hc.2.of_books e⟩⟩

theorem Balanced.hands_none {s : State} (h : Balanced ctx (g.choosing id .undecided) s) : Hands ctx g id hint none s :=
  ⟨nofun, .undecided, rfl, h⟩

theorem Mirrors.kept {P : State → Prop} {x : Lower α} {f' f : α → Lower β} {R : β → State → Prop}
    (hx : Keeps State.books (Sane ctx.function) x) (hP : ∀ s t : State, t.books = s.books → P s → P t)
    (hf : ∀ a, Mirrors P (f' a) (f a) R (Sane ctx.function)) : Mirrors P (x >>= f') (x >>= f) R (Sane ctx.function) :=
  (hx.stable hP).mirrors.bind hf

/-- A step that does not touch the books, with balanced accounts. -/
theorem Mirrors.past {x : Lower α} {f' f : α → Lower β} {R : β → State → Prop}
    (hx : Keeps State.books (Sane ctx.function) x)
    (hf : ∀ a, Mirrors (Balanced ctx g) (f' a) (f a) R (Sane ctx.function)) :
    Mirrors (Balanced ctx g) (x >>= f') (x >>= f) R (Sane ctx.function) :=
  .kept hx (fun _ _ e hs => hs.of_books e) hf

theorem kept_drafting (act : Drafting α) : Keeps State.books (Sane ctx.function) (drafting act) := by
  refine .read fun s => ?_
  cases h : act.run s.draft with
  | ok a d => exact rfl
  | error e d => exact trivial

theorem kept_emit (i : Instruction) : Keeps State.books (Sane ctx.function) (emit i) := kept_drafting _

theorem kept_label : Keeps State.books (Sane ctx.function) label := kept_drafting _

theorem kept_gotoPending : Keeps State.books (Sane ctx.function) gotoPending := kept_drafting _

theorem kept_intern (text : String) : Keeps State.books (Sane ctx.function) (intern text) := fun _ => rfl

theorem kept_addSite (site : CallSite) : Keeps State.books (Sane ctx.function) (addSite site) := fun _ => rfl

/-! ## Asking for children -/

theorem Mirrors.inRegion {act' act : Lower α} {g' : Account}
    (h : ∀ r, Mirrors (Balanced ctx (g.inRegion r)) act' act (fun _ => Balanced ctx (g'.inRegion r)) (Sane ctx.function)) :
    Mirrors (Balanced ctx g) (inRegion act') (inRegion act) (fun _ => Balanced ctx g') (Sane ctx.function) := by
  refine ⟨meets_inRegion fun r => (h r).meets, fun s hs => ?_⟩
  have hopen := hs.withRegions (s.nextRegion :: s.regions) (s.nextRegion + 1)
  rw [hs.regions] at hopen
  have hsame := (h s.nextRegion).same { s with regions := s.nextRegion :: s.regions, nextRegion := s.nextRegion + 1 }
    (by rw [hs.regions]; exact hopen)
  show (act' _ >>= fun _ => _) = (act _ >>= fun _ => _)
  rw [hsame]

namespace Walk.Balances

variable (hw : w'.Balances ctx w)
include hw

theorem effect (hd : d.reads = false) (offer : Option Offer) :
    Mirrors (Balanced ctx (g.owing [d])) (w'.effect d.child offer) (w.effect d.child offer) (fun _ => Balanced ctx g)
      (Sane ctx.function) := by
  have hmade : d.Made ctx.function .ignore := .ignored hd
  refine (hw.build g d .ignore none offer hmade fun hr => ?_).bind fun _ => .pure fun _ hs => hs
  rw [hd] at hr
  cases hr

theorem value (hd : d.reads = (ctx.function.kind? d.child).isSome) (ha : ctx.function.Asked d.child)
    (hint : Option TypedSlot) (offer : Option Offer) :
    Mirrors (Balanced ctx (g.owing [d])) (w'.value d.child hint offer) (w.value d.child hint offer)
      (fun _ => Balanced ctx (g.reading d.child)) (Sane ctx.function) := by
  have hannounce : Meets (Balanced ctx (g.owing [d])) (alloc d.child)
      (fun _ => Balanced ctx ((g.reading d.child).owing [d])) (Sane ctx.function) := fun _ hs => hs.announce hs.child_lt
  have hreader : 0 < (g.reading d.child).readers.count d.child := by simp [Account.reading]
  have hbuild := hw.build (g.reading d.child) d .value hint offer (.value hd ha) fun _ => .inl hreader
  refine hannounce.mirrors.bind fun _ => hbuild.bind fun v => ?_
  obtain ⟨slot, taken⟩ := v
  cases slot with
  | none => exact .fail trivial
  | some x => exact .pure fun _ hs => hs

theorem operand (hd : d.reads = (ctx.function.kind? d.child).isSome) (ha : ctx.function.Asked d.child) :
    Mirrors (Balanced ctx (g.owing [d])) (w'.operand d.child) (w.operand d.child)
      (fun _ => Balanced ctx (g.reading d.child)) (Sane ctx.function) :=
  (hw.value hd ha none none).bind fun _ => .pure fun _ hs => hs

theorem valueInto (hd : d.reads = (ctx.function.kind? d.child).isSome) (target : TypedSlot) (offer : Option Offer) :
    Mirrors (Balanced ctx (g.owing [d])) (w'.valueInto ctx d.child target offer) (w.valueInto ctx d.child target offer)
      (fun _ => Balanced ctx g) (Sane ctx.function) := by
  unfold Walk.valueInto
  cases hk : ctx.function.kind? d.child with
  | none => exact hw.effect (by rw [hd, hk]; rfl) offer
  | some kind =>
    refine .ite (fun _ => .fail trivial) fun _ => (hw.value hd (.of_kind hk rfl) (some target) offer).bind fun r => ?_
    have done : Mirrors (Balanced ctx (g.reading d.child)) (do release d.child; return r.2) (do release d.child; return r.2)
        (fun _ => Balanced ctx g) (Sane ctx.function) :=
      meets_release.mirrors.bind fun _ => .pure fun _ hs => hs
    exact .ite (fun _ => .past (kept_emit _) fun _ => done) fun _ => done

/-- A child that carries its parent's value is read exactly when the parent is. -/
theorem forward {target : Option TypedSlot} (hd : d.reads = (target.isSome && (ctx.function.kind? d.child).isSome))
    (offer : Option Offer) :
    Mirrors (Balanced ctx (g.owing [d])) (w'.forward ctx d.child target offer) (w.forward ctx d.child target offer)
      (fun _ => Balanced ctx g) (Sane ctx.function) := by
  cases target with
  | none => exact hw.effect (by simpa using hd) offer
  | some x => exact hw.valueInto (by simpa using hd) x offer

end Walk.Balances

/-! ## Where the value goes -/

/-- Going on from a choice of slot. -/
theorem Mirrors.chosen {slot : Option TypedSlot} {act' act : Lower α} {Q : α → State → Prop}
    (h : (slot.isSome = true → (tallyAt ctx.function.tallies id).demanded = true) → ∀ c : Choice, c.Gives ctx hint slot →
      Mirrors (Balanced ctx (g.choosing id c)) act' act Q (Sane ctx.function)) :
    Mirrors (Hands ctx g id hint slot) act' act Q (Sane ctx.function) :=
  .each fun _ ⟨hdemanded, c, hc, hs⟩ => (h hdemanded c hc).pre fun _ ht => ht ▸ hs

theorem handed {slot : Option TypedSlot} {taken : Bool}
    (hd : slot.isSome = true → (tallyAt ctx.function.tallies id).demanded = true) {c : Choice} (hc : c.Gives ctx hint slot) :
    Mirrors (Balanced ctx (g.choosing id c)) (pure (Visited.mk slot taken)) (pure (Visited.mk slot taken))
      (fun v => Hands ctx g id hint v.slot) (Sane ctx.function) :=
  .pure fun _ hs => ⟨hd, c, hc, hs⟩

/-- A demanded node gets its slot and then its instruction. -/
theorem meets_result (hu : (g.underway id).isSome = true) (hd : (tallyAt ctx.function.tallies id).demanded = true)
    (make : TypedSlot → Instruction) :
    Meets (Balanced ctx (g.choosing id .undecided))
      (do let r ← ctx.resultSlot id hint; emit (make r); return { slot := some r } : Lower Visited)
      (fun v => Hands ctx g id hint v.slot) (Sane ctx.function) := by
  refine (meets_resultSlot hu hint).bind fun r => ?_
  have hhands : ∀ s, (∃ c, Choice.Gives ctx hint (some r) c ∧ Balanced ctx (g.choosing id c) s) →
      Hands ctx g id hint (some r) s := fun s hs => ⟨fun _ => hd, hs⟩
  refine .bind (((kept_emit (make r)).stable fun _ _ e hs => hs.of_books e).pre hhands) fun _ => ?_
  exact .pure fun _ hs => hs

theorem meets_constant (hu : (g.underway id).isSome = true) (make : Slot → Instruction) :
    Meets (Balanced ctx (g.choosing id .undecided)) (constant ctx id hint make) (fun v => Hands ctx g id hint v.slot)
      (Sane ctx.function) := by
  refine (meets_demandedSlot hu hint).bind fun r => .given fun _ => ?_
  cases r with
  | none => exact .pure fun _ hs => hs
  | some x => exact ((kept_emit _).stable fun _ _ e hs => hs.of_books e).bind fun _ => .pure fun _ hs => hs

theorem meets_text (hu : (g.underway id).isSome = true) (value : String) :
    Meets (Balanced ctx (g.choosing id .undecided)) (text ctx id value hint) (fun v => Hands ctx g id hint v.slot)
      (Sane ctx.function) := by
  refine meets_isDemanded.bind fun b => .given fun _ => ?_
  split
  · exact ((kept_intern value).stable fun _ _ e hs => hs.of_books e).bind fun index => meets_constant hu _
  · exact .pure fun _ hs => hs.hands_none

theorem meets_nullary (hu : (g.underway id).isSome = true) (op : NullaryOp) :
    Meets (Balanced ctx (g.choosing id .undecided)) (nullary ctx id hint op) (fun v => Hands ctx g id hint v.slot)
      (Sane ctx.function) := by
  cases op with
  | void => exact .pure fun _ hs => hs.hands_none
  | null => exact meets_constant hu _
  | unreachable =>
    exact ((kept_emit _).stable fun _ _ e hs => hs.of_books e).bind fun _ => .pure fun _ hs => hs.hands_none

theorem meets_param (hu : (g.underway id).isSome = true) (index : ParamId) :
    Meets (Balanced ctx (g.choosing id .undecided)) (param ctx id index) (fun v => Hands ctx g id hint v.slot)
      (Sane ctx.function) := by
  unfold param
  split
  · rename_i x hx
    exact meets_fixedSlot hu hint (List.mem_append_left _ (List.mem_of_getElem? hx))
  · exact .fail trivial

theorem meets_getVar (hu : (g.underway id).isSome = true) (index : VarId) :
    Meets (Balanced ctx (g.choosing id .undecided)) (getVar ctx id index) (fun v => Hands ctx g id hint v.slot)
      (Sane ctx.function) :=
  (checks_varSlot ctx id index).meets.bind fun _ => .given fun hx =>
    meets_fixedSlot hu hint (List.mem_append_right _ (List.mem_of_getElem? hx))

theorem meets_getStatic (hu : (g.underway id).isSome = true) (field : FieldRef) :
    Meets (Balanced ctx (g.choosing id .undecided)) (getStatic ctx id field hint) (fun v => Hands ctx g id hint v.slot)
      (Sane ctx.function) := by
  unfold getStatic
  split
  · exact .fail trivial
  · refine (checks_field id field _).meets.bind fun _ => .given fun _ => ?_
    refine (meets_demandedSlot hu hint).bind fun r => .given fun _ => ?_
    cases r with
    | none => exact .pure fun _ hs => hs
    | some x => exact ((kept_emit _).stable fun _ _ e hs => hs.of_books e).bind fun _ => .pure fun _ hs => hs

/-! ## Operators and data -/

namespace Walk.Balances

variable (hw : w'.Balances ctx w) (hu : (g.underway id).isSome = true)
include hw hu

theorem onOperand {operand : NodeId} (ha : ctx.function.Asked operand) (make : TypedSlot → Slot → Instruction) :
    Mirrors (Balanced ctx ((g.choosing id .undecided).owing [ctx.function.due id operand .forward]))
      (onOperand ctx w' id operand hint make) (onOperand ctx w id operand hint make)
      (fun v => Hands ctx g id hint v.slot) (Sane ctx.function) := by
  refine meets_isDemanded.mirrors.bind fun b => .given fun hb => ?_
  refine .ite (fun hdemanded => ?_) fun hdemanded => ?_
  · rw [hb] at hdemanded
    have hreads : (ctx.function.due id operand .forward).reads = (ctx.function.kind? operand).isSome := by
      simp [Function.due, Function.reads, hdemanded]
    refine (hw.operand hreads ha).bind fun a => meets_release.mirrors.bind fun _ => ?_
    exact (meets_result hu hdemanded fun r => make r a.slot).mirrors
  · rw [hb] at hdemanded
    have hreads : (ctx.function.due id operand .forward).reads = false := by
      simp [Function.due, Function.reads, hdemanded]
    exact (hw.effect hreads none).bind fun _ => .pure fun _ hs => hs.hands_none

theorem onOperands {first second : NodeId} (hfirst : ctx.function.Asked first) (hsecond : ctx.function.Asked second)
    (make : TypedSlot → Slot → Slot → Instruction) :
    Mirrors (Balanced ctx ((g.choosing id .undecided).owing
        [ctx.function.due id first .forward, ctx.function.due id second .forward]))
      (onOperands ctx w' id first second hint make) (onOperands ctx w id first second hint make)
      (fun v => Hands ctx g id hint v.slot) (Sane ctx.function) := by
  refine meets_isDemanded.mirrors.bind fun b => .given fun hb => ?_
  refine .ite (fun hdemanded => ?_) fun hdemanded => ?_
  · rw [hb] at hdemanded
    have hreads : ∀ c, (ctx.function.due id c .forward).reads = (ctx.function.kind? c).isSome := fun c => by
      simp [Function.due, Function.reads, hdemanded]
    refine (hw.operand (g := (g.choosing id .undecided).owing [_]) (hreads first) hfirst).bind fun a => ?_
    refine (hw.operand (g := (g.choosing id .undecided).reading first) (hreads second) hsecond).bind fun b => ?_
    refine meets_release.mirrors.bind fun _ => meets_release.mirrors.bind fun _ => ?_
    exact (meets_result hu hdemanded fun r => make r a.slot b.slot).mirrors
  · rw [hb] at hdemanded
    have hreads : ∀ c, (ctx.function.due id c .forward).reads = false := fun c => by
      simp [Function.due, Function.reads, hdemanded]
    refine (hw.effect (g := (g.choosing id .undecided).owing [_]) (hreads first) none).bind fun _ => ?_
    exact (hw.effect (hreads second) none).bind fun _ => .pure fun _ hs => hs.hands_none

theorem nullCheck {operand : NodeId} (ha : ctx.function.Asked operand) :
    Mirrors (Balanced ctx ((g.choosing id .undecided).owing [ctx.function.due id operand .operand]))
      (nullCheck ctx w' id operand hint) (nullCheck ctx w id operand hint) (fun v => Hands ctx g id hint v.slot)
      (Sane ctx.function) := by
  refine (hw.operand rfl ha).bind fun a => meets_release.mirrors.bind fun _ => ?_
  refine (meets_demandedSlot hu hint).mirrors.bind fun r => .given fun _ => ?_
  exact .kept (kept_emit _) (fun _ _ e hs => hs.of_books e) fun _ => .pure fun _ hs => hs

theorem unary (op : UnaryOp) (operand : NodeId) :
    Mirrors (Balanced ctx ((g.choosing id .undecided).owing
        [ctx.function.due id operand (if op = .nullCheck then .operand else .forward)]))
      (unary ctx w' id op operand hint) (unary ctx w id op operand hint) (fun v => Hands ctx g id hint v.slot)
      (Sane ctx.function) := by
  refine .check (checks_expectType ctx operand _) fun _ hk => ?_
  have ha : ctx.function.Asked operand := .of_kind hk op.operandType_kind
  cases op with
  | nullCheck => exact hw.nullCheck hu ha
  | _ => exact hw.onOperand hu ha _

omit hu in
theorem setVar (index : VarId) (value : NodeId) :
    Mirrors (Balanced ctx ((g.choosing id .undecided).owing [ctx.function.due id value .operand]))
      (setVar ctx w' id index value) (setVar ctx w id index value) (fun v => Hands ctx g id hint v.slot)
      (Sane ctx.function) := by
  refine .check (checks_varSlot ctx id index) fun target _ => (hw.valueInto rfl target none).bind fun _ => ?_
  exact .pure fun _ hs => hs.hands_none

theorem getField (field : FieldRef) (object : NodeId) :
    Mirrors (Balanced ctx ((g.choosing id .undecided).owing [ctx.function.due id object .forward]))
      (getField ctx w' id field object hint) (getField ctx w id field object hint)
      (fun v => Hands ctx g id hint v.slot) (Sane ctx.function) := by
  refine .check (checks_lookup _) fun r _ => ?_
  cases r with
  | none => exact .fail trivial
  | some r =>
    refine .check (checks_field id field _) fun _ _ => .check (checks_expectType ctx object _) fun _ hk => ?_
    exact hw.onOperand hu (.of_kind hk rfl) _

theorem arrayElement (array index : NodeId) :
    Mirrors (Balanced ctx ((g.choosing id .undecided).owing
        [ctx.function.due id array .forward, ctx.function.due id index .forward]))
      (arrayElement ctx w' id array index hint) (arrayElement ctx w id array index hint)
      (fun v => Hands ctx g id hint v.slot) (Sane ctx.function) :=
  .check (checks_expectType ctx array _) fun _ harray => .check (checks_expectType ctx index _) fun _ hindex =>
    hw.onOperands hu (.of_kind harray rfl) (.of_kind hindex rfl) _

theorem cast (value : NodeId) (className : String) :
    Mirrors (Balanced ctx ((g.choosing id .undecided).owing [ctx.function.due id value .forward]))
      (cast ctx w' id value className hint) (cast ctx w id value className hint)
      (fun v => Hands ctx g id hint v.slot) (Sane ctx.function) :=
  .check (checks_classId ctx id className) fun _ _ => .check (checks_expectType ctx value _) fun _ hk =>
    hw.onOperand hu (.of_kind hk rfl) _

theorem instanceOf (value : NodeId) (className : String) :
    Mirrors (Balanced ctx ((g.choosing id .undecided).owing [ctx.function.due id value .forward]))
      (instanceOf ctx w' id value className hint) (instanceOf ctx w id value className hint)
      (fun v => Hands ctx g id hint v.slot) (Sane ctx.function) :=
  .check (checks_classId ctx id className) fun _ _ => .check (checks_expectType ctx value _) fun _ hk =>
    hw.onOperand hu (.of_kind hk rfl) _

omit hu in
theorem setArrayElement (array index : NodeId) {value : NodeId} (ha : ctx.function.AskedUnseen value) :
    Mirrors (Balanced ctx ((g.choosing id .undecided).owing [ctx.function.due id array .operand,
        ctx.function.due id index .operand, ctx.function.due id value .operand]))
      (setArrayElement ctx w' array index value) (setArrayElement ctx w array index value)
      (fun v => Hands ctx g id hint v.slot) (Sane ctx.function) := by
  refine .check (checks_expectType ctx array _) fun _ harray => .check (checks_expectType ctx index _) fun _ hindex => ?_
  refine (hw.operand (g := (g.choosing id .undecided).owing [_, _]) rfl (.of_kind harray rfl)).bind fun a => ?_
  refine (hw.operand (g := ((g.choosing id .undecided).reading array).owing [_]) rfl (.of_kind hindex rfl)).bind fun i => ?_
  refine (hw.operand (g := ((g.choosing id .undecided).reading array).reading index) rfl (.inr ha)).bind fun v => ?_
  refine meets_release.mirrors.bind fun _ => meets_release.mirrors.bind fun _ => meets_release.mirrors.bind fun _ => ?_
  exact .past (kept_emit _) fun _ => .pure fun _ hs => hs.hands_none

omit hu in
theorem upperBound (index : TypedSlot) (lower : Bool) (array : NodeId) :
    Mirrors (Balanced ctx (g.owing [ctx.function.due id array .operand])) (upperBound ctx w' index lower array)
      (upperBound ctx w index lower array) (fun _ => Balanced ctx g) (Sane ctx.function) := by
  refine .check (checks_expectType ctx array _) fun _ hk => (hw.operand rfl (.of_kind hk rfl)).bind fun a => ?_
  have rest : Mirrors (Balanced ctx (g.reading array)) (do emit (.upperBound index.slot a.slot); release array)
      (do emit (.upperBound index.slot a.slot); release array) (fun _ => Balanced ctx g) (Sane ctx.function) :=
    .past (kept_emit _) fun _ => meets_release.mirrors
  exact .ite (fun _ => .past (kept_emit _) fun _ => rest) fun _ => rest

theorem boundsCheck (index : NodeId) (array : Option NodeId) (lower : Bool) :
    Mirrors (Balanced ctx ((g.choosing id .undecided).owing
        (ctx.function.due id index .operand :: array.toList.map (ctx.function.due id · .operand))))
      (boundsCheck ctx w' id index array lower hint) (boundsCheck ctx w id index array lower hint)
      (fun v => Hands ctx g id hint v.slot) (Sane ctx.function) := by
  refine .check (checks_expectType ctx index _) fun _ hk => ?_
  refine (hw.operand (g := (g.choosing id .undecided).owing (array.toList.map (ctx.function.due id · .operand))) rfl
    (.of_kind hk rfl)).bind fun i => ?_
  have result : Mirrors (Balanced ctx ((g.choosing id .undecided).reading index)) (checkedIndex ctx id index hint i)
      (checkedIndex ctx id index hint i) (fun v => Hands ctx g id hint v.slot) (Sane ctx.function) := by
    refine meets_release.mirrors.bind fun _ => (meets_demandedSlot hu hint).mirrors.bind fun r => .given fun _ => ?_
    cases r with
    | none => exact .pure fun _ hs => hs
    | some r =>
      have done : Mirrors (Hands ctx g id hint (some r)) (pure { slot := some r }) (pure { slot := some r })
          (fun (v : Visited) => Hands ctx g id hint v.slot) (Sane ctx.function) := .pure fun _ hs => hs
      exact .ite (fun _ => .kept (kept_emit _) (fun _ _ e hs => hs.of_books e) fun _ => done) fun _ => done
  cases array with
  | some array => exact (hw.upperBound (g := (g.choosing id .undecided).reading index) i lower array).bind fun _ => result
  | none => exact .ite (fun _ => .past (kept_emit _) fun _ => result) fun _ => result

end Walk.Balances

/-! ## Calls -/

/-- The readers of all arguments, the last one first. -/
def Account.readingAll (g : Account) : List NodeId → Account
  | [] => g
  | id :: ids => (g.readingAll ids).reading id

theorem meets_releaseAll (ids : List NodeId) :
    Meets (Balanced ctx (g.readingAll ids)) (ids.forM release) (fun _ => Balanced ctx g) (Sane ctx.function) := by
  induction ids with
  | nil => exact .pure fun _ hs => hs
  | cons id ids ih => exact meets_release.bind fun _ => ih

theorem Account.readingAll_append (g : Account) (xs ys : List NodeId) :
    g.readingAll (xs ++ ys) = (g.readingAll ys).readingAll xs := by
  induction xs with
  | nil => rfl
  | cons x xs ih => exact congrArg (·.reading x) ih

namespace Walk.Balances

variable (hw : w'.Balances ctx w)
include hw

theorem operands {args : List NodeId} (ha : ∀ c ∈ args, ctx.function.AskedUnseen c) : ∀ (g : Account),
    Mirrors (Balanced ctx (g.owing (args.map (ctx.function.due id · .operand)))) (args.mapM w'.operand)
      (args.mapM w.operand) (fun _ => Balanced ctx (g.readingAll args.reverse)) (Sane ctx.function) := by
  induction args with
  | nil => exact fun g => .pure fun _ hs => hs
  | cons a args ih =>
    intro g
    rw [List.mapM_cons, List.mapM_cons, List.reverse_cons, Account.readingAll_append]
    obtain ⟨hfirst, hrest⟩ := List.forall_mem_cons.1 ha
    refine (hw.operand (g := g.owing (args.map (ctx.function.due id · .operand))) rfl (.inr hfirst)).bind fun _ => ?_
    exact (ih hrest (g.reading a)).bind fun _ => .pure fun _ hs => hs

theorem call (hu : (g.underway id).isSome = true) (method : MethodRef) (kind : CallKind) {args : List NodeId}
    (ha : ∀ c ∈ args, ctx.function.AskedUnseen c) :
    Mirrors (Balanced ctx ((g.choosing id .undecided).owing (args.map (ctx.function.due id · .operand))))
      (call ctx w' id method kind args hint) (call ctx w id method kind args hint)
      (fun v => Hands ctx g id hint v.slot) (Sane ctx.function) := by
  unfold Lowering.call
  cases ctx.env.resolveFunction method.owner method.name with
  | none => exact .fail trivial
  | some function =>
    refine .check (checks_lookup _) fun native _ => .check (checks_call id method kind native args.length) fun _ _ => ?_
    refine .check (checks_arguments ctx _) fun _ _ => (hw.operands ha _).bind fun slots => ?_
    refine (meets_releaseAll args.reverse).mirrors.bind fun _ => ?_
    refine (meets_demandedSlot hu hint).mirrors.bind fun result => .given fun _ => ?_
    refine .kept (kept_addSite _) (fun _ _ e hs => hs.of_books e) fun site => ?_
    exact .kept (kept_emit _) (fun _ _ e hs => hs.of_books e) fun _ => .pure fun _ hs => hs

end Walk.Balances

/-! ## Conditions -/

/-- The visits that a connective makes. -/
def composedDues (f : Function) (id : NodeId) : Connective → List Due
  | .not operand => [f.due id operand .forward]
  | .shortCircuit _ first second => [f.due id first .operand, f.due id second .operand]

namespace Walk.Balances

variable (hw : w'.Balances ctx w)
include hw

theorem compose (c : Connective) (hc : ∀ operand, c = .not operand → (tallyAt ctx.function.tallies id).demanded = true) :
    Mirrors (Balanced ctx (g.owing (composedDues ctx.function id c))) (compose w' c) (compose w c) (fun _ => Balanced ctx g)
      (Sane ctx.function) := by
  cases c with
  | not operand =>
    have hreads : (ctx.function.due id operand .forward).reads = (ctx.function.kind? operand).isSome := by
      simp [Function.due, Function.reads, hc operand rfl]
    exact (hw.condition g _ hreads).bind fun _ => .pure fun _ hs => hs
  | shortCircuit decisive first second =>
    refine (hw.condition (g.owing [_]) (ctx.function.due id first .operand) rfl).bind fun b => .past (kept_drafting _)
      fun decided => ?_
    refine Mirrors.bind (.inRegion fun r => hw.condition (g.inRegion r) (ctx.function.due id second .operand) rfl) fun rest => ?_
    exact .pure fun _ hs => hs

theorem branchOn (hd : d.reads = (ctx.function.kind? d.child).isSome) (ha : ctx.function.Asked d.child) :
    Mirrors (Balanced ctx (g.owing [d])) (branchOn w' d.child) (branchOn w d.child) (fun _ => Balanced ctx g)
      (Sane ctx.function) :=
  (hw.operand hd ha).bind fun _ => .past (kept_drafting _) fun _ => meets_release.mirrors.bind fun _ => .pure fun _ hs => hs

theorem logicalValue (hu : (g.underway id).isSome = true) (decisive : Bool) (first second : NodeId) :
    Mirrors (Balanced ctx ((g.choosing id .undecided).owing
        [ctx.function.due id first .operand, ctx.function.due id second .operand]))
      (logicalValue ctx w' id (.shortCircuit decisive first second) hint)
      (logicalValue ctx w id (.shortCircuit decisive first second) hint)
      (fun v => Hands ctx g id hint v.slot) (Sane ctx.function) := by
  have hcompose : Mirrors (Balanced ctx ((g.choosing id .undecided).owing (composedDues ctx.function id
      (.shortCircuit decisive first second)))) _ _ _ _ := hw.compose (.shortCircuit decisive first second) nofun
  refine hcompose.bind fun b => ?_
  refine meets_isDemanded.mirrors.bind fun _ => .given fun hb => .ite (fun hdemanded => ?_) fun _ => ?_
  · rw [hb] at hdemanded
    refine .past (kept_drafting _) fun whenFalse => (meets_resultSlot hu hint).mirrors.bind fun r => ?_
    have hhands : ∀ s, (∃ c, Choice.Gives ctx hint (some r) c ∧ Balanced ctx (g.choosing id c) s) →
        Hands ctx g id hint (some r) s := fun s hs => ⟨fun _ => hdemanded, hs⟩
    have hstable : ∀ s t : State, t.books = s.books → Hands ctx g id hint (some r) s → Hands ctx g id hint (some r) t :=
      fun _ _ e hs => hs.of_books e
    refine Mirrors.pre (.kept (kept_emit _) hstable fun _ => .kept kept_gotoPending hstable fun skip => ?_) hhands
    refine .kept kept_label hstable fun _ => .kept (kept_drafting _) hstable fun _ => ?_
    refine .kept (kept_emit _) hstable fun _ => .kept kept_label hstable fun _ => ?_
    exact .kept (kept_drafting _) hstable fun _ => .pure fun _ hs => hs
  · exact .past kept_label fun _ => .past (kept_drafting _) fun _ => .pure fun _ hs => hs.hands_none

theorem binary (hu : (g.underway id).isSome = true) (op : BinaryOp) (first second : NodeId) :
    Mirrors (Balanced ctx ((g.choosing id .undecided).owing
        [ctx.function.due id first (if op.isLogical then .operand else .forward),
          ctx.function.due id second (if op.isLogical then .operand else .forward)]))
      (binary ctx w' id op first second hint) (binary ctx w id op first second hint)
      (fun v => Hands ctx g id hint v.slot) (Sane ctx.function) := by
  cases op with
  | and => exact hw.logicalValue hu false first second
  | or => exact hw.logicalValue hu true first second
  | _ =>
    refine .check (checks_expectType ctx first _) fun _ hfirst => .check (checks_expectType ctx second _) fun _ hsecond => ?_
    exact hw.onOperands hu (.of_kind hfirst (BinaryOp.operandTypes_kind _).1)
      (.of_kind hsecond (BinaryOp.operandTypes_kind _).2) _

end Walk.Balances

/-! ## Blocks, loops and exits -/

theorem kept_closeBlock : Keeps State.books (Sane ctx.function) closeBlock := by
  refine .read fun s => ?_
  cases s.blocks with
  | nil => exact trivial
  | cons frame rest =>
    have hkept : Keeps State.books (Sane ctx.function) (drafting (Drafting.patchAll frame.breaks (.address s.draft.label))) :=
      kept_drafting _
    exact hkept { s with blocks := rest }

theorem kept_closeLoop : Keeps State.books (Sane ctx.function) closeLoop := by
  refine .read fun s => ?_
  cases s.loops with
  | nil => exact trivial
  | cons frame rest =>
    have hkept : Keeps State.books (Sane ctx.function) (drafting (Drafting.patchAll frame.breaks (.address s.draft.label))) :=
      kept_drafting _
    exact hkept { s with loops := rest }

theorem kept_standing (offer : Option Offer) : Keeps State.books (Sane ctx.function) (standing offer) :=
  .bind kept_label fun _ => .pure

theorem kept_exitJumps (offer : Option Offer) : Keeps State.books (Sane ctx.function) (exitJumps offer) := by
  refine .bind (kept_standing offer) fun o => ?_
  cases o with
  | none => exact .bind kept_gotoPending fun _ => .pure
  | some o => exact .bind (kept_drafting _) fun _ => .pure

theorem meets_exitBlock (name : BlockId) (offer : Option Offer) :
    Meets (Balanced ctx (g.choosing id .undecided)) (exitBlock id name offer) (fun v => Hands ctx g id hint v.slot)
      (Sane ctx.function) := by
  refine .bind (Keeps.get.stable fun _ _ e hs => hs.of_books e) fun s => ?_
  split
  · exact .fail trivial
  · refine .bind ((kept_exitJumps offer).stable fun _ _ e hs => hs.of_books e) fun r => ?_
    refine .bind (Keeps.stable (.update fun _ => rfl) fun _ _ e hs => hs.of_books e) fun _ => ?_
    exact .pure fun _ hs => hs.hands_none

theorem meets_exitLoop (name : LoopId) (offer : Option Offer) :
    Meets (Balanced ctx (g.choosing id .undecided)) (exitLoop id name offer) (fun v => Hands ctx g id hint v.slot)
      (Sane ctx.function) := by
  refine .bind (Keeps.get.stable fun _ _ e hs => hs.of_books e) fun s => ?_
  split
  · exact .fail trivial
  · refine .bind ((kept_exitJumps offer).stable fun _ _ e hs => hs.of_books e) fun r => ?_
    refine .bind (Keeps.stable (.update fun _ => rfl) fun _ _ e hs => hs.of_books e) fun _ => ?_
    exact .pure fun _ hs => hs.hands_none

theorem meets_continueLoop (name : LoopId) (offer : Option Offer) :
    Meets (Balanced ctx (g.choosing id .undecided)) (continueLoop id name offer) (fun v => Hands ctx g id hint v.slot)
      (Sane ctx.function) := by
  refine .bind (Keeps.get.stable fun _ _ e hs => hs.of_books e) fun s => ?_
  split
  · exact .fail trivial
  · refine .bind ((kept_standing offer).stable fun _ _ e hs => hs.of_books e) fun o => ?_
    cases o with
    | none => exact ((kept_emit _).stable fun _ _ e hs => hs.of_books e).bind fun _ => .pure fun _ hs => hs.hands_none
    | some o => exact ((kept_drafting _).stable fun _ _ e hs => hs.of_books e).bind fun _ => .pure fun _ hs => hs.hands_none

namespace Walk.Balances

variable (hw : w'.Balances ctx w)
include hw

/-- An arm or a body: it carries the value of its parent. -/
theorem arm {child : NodeId} {target : Option TypedSlot}
    (ht : target.isSome = (tallyAt ctx.function.tallies id).demanded) (offer : Option Offer) :
    Mirrors (Balanced ctx (g.owing [ctx.function.due id child .forward])) (arm ctx w' child target offer)
      (arm ctx w child target offer) (fun _ => Balanced ctx g) (Sane ctx.function) :=
  .inRegion fun r => hw.forward (g := g.inRegion r) (d := ctx.function.due id child .forward) (by rw [ht]; rfl) offer

theorem sequence (hu : (g.underway id).isSome = true) (first second : NodeId) (offer : Option Offer) :
    Mirrors (Balanced ctx ((g.choosing id .undecided).owing
        [ctx.function.due id first .effect, ctx.function.due id second .forward]))
      (sequence ctx w' id first second hint offer) (sequence ctx w id first second hint offer)
      (fun v => Hands ctx g id hint v.slot) (Sane ctx.function) := by
  refine (hw.effect (g := (g.choosing id .undecided).owing [_]) rfl none).bind fun _ => ?_
  refine (meets_demandedSlot (g := g.owing [_]) hu hint).mirrors.bind fun target => .given fun ht => ?_
  refine .chosen fun hdemanded c hc => ?_
  refine (hw.forward (g := g.choosing id c) (d := ctx.function.due id second .forward) (by rw [ht]; rfl) offer).bind fun _ => ?_
  exact handed hdemanded hc

theorem block (hu : (g.underway id).isSome = true) (name : BlockId) (body : NodeId) :
    Mirrors (Balanced ctx ((g.choosing id .undecided).owing [ctx.function.due id body .forward]))
      (block ctx w' id name body hint) (block ctx w id name body hint) (fun v => Hands ctx g id hint v.slot)
      (Sane ctx.function) := by
  refine (meets_demandedSlot (g := g.owing [_]) hu hint).mirrors.bind fun target => .given fun ht => ?_
  refine .chosen fun hdemanded c hc => .past (.update fun _ => rfl) fun _ => ?_
  refine (hw.arm (g := g.choosing id c) ht none).bind fun _ => .past kept_closeBlock fun _ => ?_
  exact handed hdemanded hc

theorem loop (name : LoopId) (preheader body : NodeId) :
    Mirrors (Balanced ctx ((g.choosing id .undecided).owing
        [ctx.function.due id preheader .effect, ctx.function.due id body .effect]))
      (loop ctx w' name preheader body) (loop ctx w name preheader body) (fun v => Hands ctx g id hint v.slot)
      (Sane ctx.function) := by
  refine (hw.effect (g := (g.choosing id .undecided).owing [_]) rfl none).bind fun _ => .past kept_label fun header => ?_
  refine .past (.update fun _ => rfl) fun _ => ?_
  refine Mirrors.bind (.inRegion fun r => hw.effect (g := (g.choosing id .undecided).inRegion r)
    (d := ctx.function.due id body .effect) rfl none) fun _ => ?_
  refine .check (checks_node ctx body) fun n _ => ?_
  have done : Mirrors (Balanced ctx (g.choosing id .undecided)) (do closeLoop; return {}) (do closeLoop; return {})
      (fun (v : Visited) => Hands ctx g id hint v.slot) (Sane ctx.function) :=
    .past kept_closeLoop fun _ => .pure fun _ hs => hs.hands_none
  exact .ite (fun _ => .past (kept_emit _) fun _ => done) fun _ => done

theorem elseOnly (b : Branch) (position : Nat) {elseArm : NodeId} {target : Option TypedSlot}
    (ht : target.isSome = (tallyAt ctx.function.tallies id).demanded) :
    Mirrors (Balanced ctx (g.owing [ctx.function.due id elseArm .forward])) (elseOnly ctx w' b position elseArm target)
      (elseOnly ctx w b position elseArm target) (fun _ => Balanced ctx g) (Sane ctx.function) := by
  refine (hw.arm ht _).bind fun taken => .ite (fun _ => ?_) fun _ => .pure fun _ hs => hs
  exact .past kept_label fun _ => ((kept_drafting _).stable fun _ _ e hs => hs.of_books e).mirrors

theorem bothArms (b : Branch) (thenArm : NodeId) {elseArm : NodeId} {target : Option TypedSlot}
    (ht : target.isSome = (tallyAt ctx.function.tallies id).demanded) :
    Mirrors (Balanced ctx (g.owing [ctx.function.due id elseArm .forward])) (bothArms ctx w' b thenArm elseArm target)
      (bothArms ctx w b thenArm elseArm target) (fun _ => Balanced ctx g) (Sane ctx.function) := by
  refine .check (checks_node ctx thenArm) fun n _ => ?_
  have rest : ∀ skip : Option Patch, Mirrors (Balanced ctx (g.owing [ctx.function.due id elseArm .forward]))
      (secondArm ctx w' b elseArm target skip) (secondArm ctx w b elseArm target skip) (fun _ => Balanced ctx g)
      (Sane ctx.function) := by
    intro skip
    refine .past kept_label fun _ => .past (kept_drafting _) fun _ => (hw.arm ht none).bind fun _ => ?_
    cases skip with
    | none => exact .pure fun _ hs => hs
    | some jump => exact .past kept_label fun _ => ((kept_drafting _).stable fun _ _ e hs => hs.of_books e).mirrors
  exact .ite (fun _ => .past (.bind kept_gotoPending fun _ => .pure) rest) fun _ => .past .pure rest

theorem conditional (hu : (g.underway id).isSome = true) (condition thenArm elseArm : NodeId) :
    Mirrors (Balanced ctx ((g.choosing id .undecided).owing [ctx.function.due id condition .operand,
        ctx.function.due id thenArm .forward, ctx.function.due id elseArm .forward]))
      (conditional ctx w' id condition thenArm elseArm hint) (conditional ctx w id condition thenArm elseArm hint)
      (fun v => Hands ctx g id hint v.slot) (Sane ctx.function) := by
  refine (meets_demandedSlot (g := g.owing [_, _, _]) hu hint).mirrors.bind fun target => .given fun ht => ?_
  refine .chosen fun hdemanded c hc => ?_
  refine (hw.condition ((g.choosing id c).owing [_, _]) (ctx.function.due id condition .operand) rfl).bind fun b => ?_
  refine .past kept_label fun position => (hw.arm (g := (g.choosing id c).owing [_]) ht _).bind fun taken => ?_
  refine .ite (fun _ => (hw.arm ht none).bind fun _ => handed hdemanded hc) fun _ => .past kept_label fun here => ?_
  exact .ite (fun _ => (hw.elseOnly b position ht).bind fun _ => handed hdemanded hc)
    fun _ => (hw.bothArms b thenArm ht).bind fun _ => handed hdemanded hc

/-! ## One node -/

/-- A node makes the visits it owes and finds a place for its value. -/
theorem visit (hid : ctx.function.Reachable id) (hu : (g.underway id).isSome = true) (offer : Option Offer) :
    Mirrors (Balanced ctx ((g.choosing id .undecided).owing (ctx.function.dues id))) (visit ctx w' id hint offer)
      (visit ctx w id hint offer) (fun v => Hands ctx g id hint v.slot) (Sane ctx.function) := by
  refine .check (checks_node ctx id) fun n hn => ?_
  have hunseen : ∀ c, n.expr.AsksUnseen c → ctx.function.AskedUnseen c := fun c hc => ⟨id, n, hid, hn, hc⟩
  rw [Function.dues_of_node hn]
  obtain ⟨e, type⟩ := n
  cases e with
  | sequence first second => exact hw.sequence hu first second offer
  | block name body => exact hw.block hu name body
  | exitBlock name => exact (meets_exitBlock (g := g) name offer).mirrors
  | loop name preheader body => exact hw.loop name preheader body
  | exitLoop name => exact (meets_exitLoop (g := g) name offer).mirrors
  | continueLoop name => exact (meets_continueLoop (g := g) name offer).mirrors
  | conditional condition thenArm elseArm => exact hw.conditional hu condition thenArm elseArm
  | nullary op => exact (meets_nullary hu op).mirrors
  | unary op operand => exact hw.unary hu op operand
  | binary op first second => exact hw.binary hu op first second
  | const value => exact (meets_constant hu _).mirrors
  | text value => exact (meets_text hu value).mirrors
  | param index => exact (meets_param hu index).mirrors
  | getVar index => exact (meets_getVar hu index).mirrors
  | setVar index value => exact hw.setVar index value
  | getField field object => exact hw.getField hu field object
  | getStatic field => exact (meets_getStatic hu field).mirrors
  | call method kind args =>
    have hargs : (args.map fun c => (c, Edge.operand)).map (fun x => ctx.function.due id x.1 x.2) =
        args.map (ctx.function.due id · .operand) := by simp
    show Mirrors (Balanced ctx (Account.owing _ ((args.map fun c => (c, Edge.operand)).map _))) _ _ _ _
    rw [hargs]
    exact hw.call hu method kind hunseen
  | arrayElement array index => exact hw.arrayElement hu array index
  | setArrayElement array index value => exact hw.setArrayElement array index (hunseen value rfl)
  | cast value className => exact hw.cast hu value className
  | instanceOf value className => exact hw.instanceOf hu value className
  | boundsCheck index array lower =>
    cases array with
    | none => exact hw.boundsCheck hu index none lower
    | some array => exact hw.boundsCheck hu index (some array) lower
  | _ => exact .fail trivial

end Walk.Balances

/-! ## A visit from start to end -/

/-- What a node looks like right after it was built. -/
structure Settles (ctx : Context) (s : State) (id : NodeId) (hint slot : Option TypedSlot) : Prop where
  built : ∃ region, (s.node id).progress = .built slot region
  lent : (s.node id).borrowed = true → ∀ x, slot = some x → hint = some x ∨ x ∈ ctx.params ++ ctx.vars
  demanded : slot.isSome = true → (tallyAt ctx.function.tallies id).demanded = true

theorem checks_regionOf (e : Expr) : Checks (regionOf e) (fun _ => True) (Sane ctx.function) := by
  unfold regionOf
  split
  · exact .pure trivial
  · exact .pure trivial
  · exact fun _ => ⟨trivial, rfl⟩

theorem checks_checkSlot (u : Usage) (v : Visited) : Checks (checkSlot id u v) (fun v' => v' = v) (Sane ctx.function) := by
  unfold checkSlot
  split
  · exact .fail trivial
  · exact .pure rfl

variable {s : State}

/-- A due is paid by one consumer. -/
theorem Mirrors.paid {u : Usage} {f' f : Unit → Lower α} {Q : α → State → Prop} (hs : Balanced ctx (g.owing [d]) s)
    (hd : d.Made ctx.function u)
    (hf : Mirrors (· = s.setLeft d.child (g.remaining ctx.function s d.child)) (f' ()) (f ()) Q (Sane ctx.function)) :
    Mirrors (· = s) (consume d.child u >>= f') (consume d.child u >>= f) Q (Sane ctx.function) := by
  have hrun := consume_run (u := u) (h := hs.tracked.size ▸ hs.child_lt)
  rcases hs.tracked.take hd with htake | ⟨htake, hmissed⟩
  · rw [htake] at hrun
    exact .step hrun hf
  · rw [htake] at hrun
    exact .stop hrun hmissed

/-- A node that nobody has come to is lowered and built. -/
theorem Mirrors.entering {slot : α → Option TypedSlot} {act' act : Lower α} (depth : Nat)
    (hs : Balanced ctx (g.owing [d]) s) (hn : (s.node d.child).progress = .untouched)
    (hread : d.reads = true → ∀ a, (slot a).isSome = true → 0 < g.readers.count d.child ∨ d.child = ctx.function.body)
    (h : ∀ e, Mirrors (Balanced ctx (((g.entering d.child e).choosing d.child .undecided).owing
      (ctx.function.dues d.child))) act' act (fun a => Hands ctx (g.entering d.child e) d.child hint (slot a))
      (Sane ctx.function)) :
    Mirrors (· = s.setLeft d.child (g.remaining ctx.function s d.child)) (entering ctx depth d.child slot act')
      (entering ctx depth d.child slot act)
      (fun a t => Balanced ctx g t ∧ Settles ctx t d.child hint (slot a)) (Sane ctx.function) := by
  have huntouched : s.stage d.child = .untouched := by rw [State.stage, hn]; rfl
  have hignores := hs.tracked.ignores huntouched
  have hg : g.Ignores d.child := ⟨hignores.absent, fun x hx => hignores.owed x (by simp [hx]), hignores.entries⟩
  have hparent : d.parent ≠ some d.child := hignores.owed d (by simp)
  have hvisit : Mirrors (· = s.entered d.child (g.remaining ctx.function s d.child)) act' act _ (Sane ctx.function) :=
    (h ⟨d, g.remaining ctx.function s d.child⟩).pre fun t ht => ht ▸ hs.enter hn
  refine .ite (fun _ => .fail trivial) fun _ => .step rfl (hvisit.bind fun a => ?_)
  refine .each ?_
  rintro t ⟨hdemanded, c, hc, hb⟩
  refine .check (checks_node ctx _) fun n _ => ?_
  refine .check (checks_regionOf _) fun region _ => .step rfl (.pure fun t' ht' => ?_)
  subst ht'
  -- A slot of the node's own stays needed: its first visit reads it, or another one is still to come.
  have hneed : (slot a).isSome = true → 0 < g.readers.count d.child ∨
      0 < (g.remaining ctx.function s d.child).values ∨ d.child = ctx.function.body := by
    intro hslot
    cases hr : d.reads with
    | true => exact (hread hr a hslot).imp_right .inr
    | false =>
      have hreach := Function.reachable_of_due (hs.tracked.owed d (by simp)).1
      rw [hs.values_remaining hr, hs.tracked.fresh _ hs.child_lt huntouched]
      exact .inr (.inl (Function.values_pos hs.tracked.bound hreach (hdemanded hslot)))
  have hu : ((g.entering d.child ⟨d, g.remaining ctx.function s d.child⟩).underway d.child).isSome = true := by
    simp [Account.entering]
  have hp := hb.isUnderway hu
  have hid : d.child < t.nodes.size := lt_of_touched (by rw [hp]; exact Progress.noConfusion)
  have hnode := (setNode_node hid { t.node d.child with progress := .built (slot a) region } d.child).trans (if_pos rfl)
  refine ⟨hb.leave hg hparent hc hneed, ⟨region, by rw [hnode]⟩, fun hborrowed x hx => ?_, hdemanded⟩
  rw [hnode] at hborrowed
  have hlent := (hb.housed.lent d.child (by rw [State.stage, hp]; rfl)).1 hborrowed
  obtain rfl : c = .borrowed := by simpa [Account.choosing] using hlent
  exact hc x hx

namespace Walk.Balances

variable (hw : w'.Balances ctx w)
include hw

theorem build_first (depth : Nat) (u : Usage) (offer : Option Offer) (hd : d.Made ctx.function u)
    (hread : d.reads = true → 0 < g.readers.count d.child ∨ d.child = ctx.function.body)
    (hs : Balanced ctx (g.owing [d]) s) (hn : (s.node d.child).progress = .untouched) :
    Mirrors (· = s) (Lowering.build ctx depth w' d.child u hint offer) (Lowering.build ctx depth w d.child u hint offer)
      (fun v t => Balanced ctx g t ∧ Settles ctx t d.child hint v.slot) (Sane ctx.function) := by
  refine .step rfl ?_
  rw [hn]
  have hvisit : ∀ e, Mirrors _ (Lowering.visit ctx w' d.child hint offer) (Lowering.visit ctx w d.child hint offer)
      (fun v => Hands ctx (g.entering d.child e) d.child hint v.slot) (Sane ctx.function) :=
    fun e => hw.visit (Function.reachable_of_due (hs.tracked.owed d (by simp)).1) (by simp [Account.entering]) offer
  refine .paid hs hd (.bind (.entering depth hs hn (fun hr _ _ => hread hr) hvisit) fun v => ?_)
  refine (checks_checkSlot u v).meets.mirrors.post fun v' t h => ?_
  rw [h.1]
  exact h.2

theorem build_mirrors (depth : Nat) (g : Account) (d : Due) (u : Usage) (hint : Option TypedSlot) (offer : Option Offer)
    (hd : d.Made ctx.function u) (hread : d.reads = true → 0 < g.readers.count d.child ∨ d.child = ctx.function.body) :
    Mirrors (Balanced ctx (g.owing [d])) (Lowering.build ctx depth w' d.child u hint offer)
      (Lowering.build ctx depth w d.child u hint offer) (fun _ => Balanced ctx g) (Sane ctx.function) := by
  refine .each fun s hs => ?_
  cases hp : (s.node d.child).progress with
  | untouched => exact (hw.build_first depth u offer hd hread hs hp).post fun _ _ h => h.1
  | underway =>
    refine .step rfl ?_
    rw [hp]
    exact .fail trivial
  | built slot region =>
    refine .step rfl ?_
    rw [hp]
    refine .step rfl (.ite (fun _ => .fail trivial) fun _ => .paid hs hd ?_)
    have hb : s.stage d.child = .built := by rw [State.stage, hp]; rfl
    refine ((checks_checkSlot u _).meets.mirrors.post fun _ t h => h.2).pre fun t ht => ?_
    rw [ht]
    exact hs.revisit hb hread

omit hw in
theorem meets_composable {P : State → Prop} : Meets P (ctx.composable? id) (fun r s => P s ∧ ∀ c, r = some c →
    (s.node id).progress = .untouched ∧ ∃ n, ctx.function.node? id = some n ∧ n.expr.connective? = some c)
    (Sane ctx.function) := by
  refine (checks_node ctx id).meets.bind fun n => .given fun hn => .each fun s hs => .step rfl (.step rfl ?_)
  split
  · rename_i hfirst
    refine .pure fun t ht => ?_
    subst ht
    exact ⟨hs, fun c hc => ⟨hfirst.2, n, hn, hc⟩⟩
  · refine .pure fun t ht => ?_
    subst ht
    exact ⟨hs, nofun⟩

omit hw in
theorem dues_connective {n : Node} {c : Connective} (hn : ctx.function.node? id = some n)
    (hc : n.expr.connective? = some c) : ctx.function.dues id = composedDues ctx.function id c := by
  rw [Function.dues_of_node hn]
  unfold Expr.connective? at hc
  split at hc <;> cases hc <;> rename_i he <;> rw [he] <;> rfl

theorem condition_mirrors (depth : Nat) (g : Account) (d : Due) (hd : d.reads = (ctx.function.kind? d.child).isSome) :
    Mirrors (Balanced ctx (g.owing [d])) (Lowering.condition ctx depth w' d.child) (Lowering.condition ctx depth w d.child)
      (fun _ => Balanced ctx g) (Sane ctx.function) := by
  refine .check (checks_expectType ctx d.child _) fun _ hk => ?_
  have hreads : d.reads = true := by rw [hd, hk]; rfl
  have ha : ctx.function.Asked d.child := .of_kind hk rfl
  refine meets_composable.mirrors.bind fun c => .each ?_
  rintro s ⟨hs, hc⟩
  cases c with
  | some c =>
    obtain ⟨hn, n, hnode, hconnective⟩ := hc c rfl
    obtain ⟨trail, htrail⟩ := hs.inStep
    have hdemanded := hs.tracked.demanded htrail (by rw [State.stage, hn]; rfl) hreads
    have hvisit : ∀ e, Mirrors (Balanced ctx (((g.entering d.child e).choosing d.child .undecided).owing
        (ctx.function.dues d.child))) (Lowering.compose w' c) (Lowering.compose w c)
        (fun _ => Hands ctx (g.entering d.child e) d.child none none) (Sane ctx.function) := by
      intro e
      rw [dues_connective hnode hconnective]
      exact (hw.compose c fun _ _ => hdemanded).post fun _ _ hb => hb.hands_none
    have hentering : Mirrors _ (Lowering.entering ctx depth d.child (fun _ => none) (Lowering.compose w' c))
        (Lowering.entering ctx depth d.child (fun _ => none) (Lowering.compose w c)) _ (Sane ctx.function) :=
      .entering depth hs hn (fun _ _ h => Bool.noConfusion h) hvisit
    exact .paid hs (.value hd ha) (hentering.post fun _ _ h => h.1)
  | none =>
    have hself : Walk.Balances ctx { w' with build := Lowering.build ctx depth w' }
        { w with build := Lowering.build ctx depth w } := ⟨hw.build_mirrors depth, hw.condition⟩
    exact (hself.branchOn hd ha).pre fun t ht => ht ▸ hs

end Walk.Balances

/-- The whole walk keeps the accounts balanced. -/
theorem walk_balances (room depth : Nat) : (walk ctx room depth).Balances ctx (walk ctx room depth) := by
  induction room generalizing depth with
  | zero => exact ⟨fun _ _ _ _ _ _ _ => .fail trivial, fun _ _ _ => .fail trivial⟩
  | succ room ih => exact ⟨(ih (depth + 1)).build_mirrors depth, (ih (depth + 1)).condition_mirrors depth⟩

end Lowering

end SlotCode
