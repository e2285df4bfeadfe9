/-
  SlotCode.Proofs.FaithfulCalls — a native is called with what its operands hold.

  The operands of a call are lowered one after the other; each holds what it was handed
  until the call. `OperatedAll` follows the list: what one operand promises, all do. The
  call then reads every register, checks the receiver and hands the world to the native,
  which may change it even when it fails.
-/

import SlotCode.Proofs.FaithfulAccess

namespace SlotCode

open Lowering Arith

variable {S : Scene} {g : Landings} {A : Anchor} {open_ : List (BlockId × Bool)} {s₀ s t : State} {σ τ : Store}
  {m : Machine} {id : NodeId} {hint : Option TypedSlot} {offer : Option Offer} {demanded : Bool}
  {w : Walk} {ev : ChildEval} {visited : Visited} {type : ValueType} {cs : List NodeId} {ys : List TypedSlot}

/-! ## Lists of operands -/

/-- Children were lowered one after the other for an operator. -/
inductive OperatedAll (S : Scene) (ev : ChildEval) (demanded : Bool) (open_ : List (BlockId × Bool)) :
    List NodeId → State → State → List TypedSlot → Prop
  | nil {s : State} : Books S.ctx s → OperatedAll S ev demanded open_ [] s s []
  | cons {c : NodeId} {cs : List NodeId} {s u t : State} {y : TypedSlot} {ys : List TypedSlot} :
      Operated S (S.reading.operand ev demanded .operand c) c open_ s u y → OperatedAll S ev demanded open_ cs u t ys →
        OperatedAll S ev demanded open_ (c :: cs) s t (y :: ys)

theorem Builds.operands (hw : Builds S w ev)
    (hst : ∀ c ∈ cs, S.ctx.function.Stands c (S.ctx.function.reads demanded c .operand) open_) (hb : Books S.ctx s)
    (hr : cs.mapM w.operand s = .ok (ys, t)) : OperatedAll S ev demanded open_ cs s t ys := by
  induction cs generalizing s ys with
  | nil =>
    cases hr
    exact .nil hb
  | cons c cs ih =>
    rw [List.mapM_cons] at hr
    obtain ⟨y, u, hfirst, hr₁⟩ := bind_ok hr
    obtain ⟨zs, u', hrest, hr₂⟩ := bind_ok hr₁
    cases hr₂
    have h := hw.operand (hst c List.mem_cons_self) hb hfirst
    exact .cons h (ih (fun c hc => hst c (List.mem_cons_of_mem _ hc)) h.along.books hrest)

namespace OperatedAll

theorem along (h : OperatedAll S ev demanded open_ cs s t ys) : Along S.ctx s t := by
  induction h with
  | nil hb => exact hb.along
  | cons hc _ ih => exact hc.along.trans ih

theorem kinds (h : OperatedAll S ev demanded open_ cs s t ys) :
    List.Forall₂ (fun c y => S.ctx.function.kind? c = some y.kind) cs ys := by
  induction h with
  | nil => exact .nil
  | cons hc _ ih => exact .cons hc.kind ih

theorem lent (h : OperatedAll S ev demanded open_ cs s t ys) : ∀ c ∈ cs, Lent s t c := by
  induction h with
  | nil => simp
  | cons hc hrest ih =>
    intro c hmem
    rcases List.mem_cons.1 hmem with rfl | hmem
    · exact hc.lent.since hrest.along.since
    · exact (ih c hmem).back hc.along.since

/-- Every operand holds what it was handed when the last one has run. -/
theorem follows (h : OperatedAll S ev demanded open_ cs s t ys) (h₀ : Since s₀ s) (hr : Ready S g A open_ s₀ s t σ m) :
    Follows S g A s.draft.label t.draft.label 0 ((cs.mapM (S.reading.operand ev demanded .operand)).on σ) m 0
      fun os τ m₁ => m₁.pc = t.draft.label ∧ Agrees S A none τ m₁ ∧ List.Forall₂ (Held S t.pool.isLive m₁) ys os ∧
        ∀ z o, Held S s.pool.isLive m z o → Held S t.pool.isLive m₁ z o := by
  induction h generalizing σ m with
  | nil => exact .ok (Nat.le_refl 0) ⟨hr.pc, hr.agrees, .nil, fun _ _ h => h⟩
  | cons hc hrest ih =>
    rw [List.mapM_cons]
    have hfinal := hrest.along.since.toGrows.final hr.final
    have hrun := hc.follows h₀ ⟨hfinal, hr.scope, hr.live, hr.agrees, hr.pc⟩
    refine (hrun.widen (Nat.le_refl _) hrest.along.since.label).bind ?_
    rintro o τ m₁ ⟨hpc, ha, hheld, hkept⟩
    have hrun' := ih (h₀.trans hc.along.since) ⟨hr.final, hr.scope, hr.live, ha, hpc⟩
    refine (hrun'.widen hc.along.since.label (Nat.le_refl _)).bind ?_
    rintro os τ' m₂ ⟨hpc', ha', hheld', hkept'⟩
    exact .ok (Nat.le_refl 0) ⟨hpc', ha', .cons (hkept' _ _ hheld) hheld', fun z o hz => hkept' z o (hkept z o hz)⟩

end OperatedAll

/-- The values that a list of operands stands for. -/
theorem Held.readAll {live : TypedSlot → Bool} {os : List Operand} (h : List.Forall₂ (Held S live m) ys os)
    (ha : Agrees S A none σ m) : ∃ vs, (os.mapM Eval.read).on σ = some (.ok vs, σ) ∧
      List.Forall₂ (fun y v => m.registers.get? y = some v) ys vs := by
  induction h with
  | nil => exact ⟨[], rfl, .nil⟩
  | cons hheld _ ih =>
    obtain ⟨v, hv, hget⟩ := hheld.read ha
    obtain ⟨vs, hvs, hgets⟩ := ih
    refine ⟨v :: vs, ?_, .cons hget hgets⟩
    rw [List.mapM_cons, Eval.on_bind_ok hv, Eval.on_bind_ok hvs]
    rfl

theorem Lowering.releases_ok {ctx : Context} (h : Along ctx s₀ s) (hcs : ∀ c ∈ cs, Lent s₀ s c)
    (hr : cs.forM release s = .ok ((), t)) : Freed ctx s₀ s t := by
  induction cs generalizing s with
  | nil =>
    cases hr
    exact ⟨h, .refl h.books.clean, rfl, fun _ h => h, fun _ h => h⟩
  | cons c cs ih =>
    obtain ⟨_, u, hfirst, hrest⟩ := bind_ok hr
    have h₁ := release_ok h (hcs c List.mem_cons_self) hfirst
    have h₂ := ih h₁.along (fun c hc => (hcs c (List.mem_cons_of_mem _ hc)).freed h₁) hrest
    exact ⟨h₂.along, h₁.grows.trans h₂.grows, h₂.draft.trans h₁.draft, fun i hi => h₂.touched i (h₁.touched i hi),
      fun i hi => h₂.loose i (h₁.loose i hi)⟩

/-! ## The call -/

theorem Registers.getAll {r : Registers} {vs : List Value} (h : List.Forall₂ (fun y v => r.get? y = some v) ys vs) :
    (ys.mapM fun y => (liftM (r.get y) : Except RuntimeError Value)) = .ok vs := by
  induction h with
  | nil => rfl
  | cons hy _ ih =>
    rw [List.mapM_cons, ih, Registers.get_of_get? hy]
    rfl

/-- The receiver, if there is one, is checked; then all values go to the native. -/
theorem Image.effect_call {im : Image} {i : Nat} {site : CallSite} {f : NativeFunction} {kind : CallKind} {vs : List Value}
    (hs : im.program.sites[i]? = some site) (hf : im.env.function site.function = .ok f)
    (hreceiver : site.receiver = (ys.take kind.receiverCount).head?.map (·.slot))
    (hargs : site.args = ys.drop kind.receiverCount) (hlen : kind.receiverCount ≤ ys.length)
    (hobject : ∀ y ∈ ys.take kind.receiverCount, y.kind = .object)
    (hvs : List.Forall₂ (fun y v => m.registers.get? y = some v) ys vs) :
    im.effect m (.call i) = Fault.place m.pc
      ((fun _ => .invoke site.function f vs site.result) <$> (vs.take kind.receiverCount).mapM Fault.object) := by
  cases kind with
  | static =>
    simp only [CallKind.receiverCount, List.take_zero, List.head?_nil, Option.map_none, List.drop_zero] at hreceiver hargs
    simp only [Image.effect, hs, expectSome, Fault.ok_bind, hf, Fault.lift_ok, pure_bind, hreceiver, hargs,
      Registers.getAll hvs]
    rfl
  | onReceiver =>
    cases hvs with
    | nil => exact absurd hlen (by simp [CallKind.receiverCount])
    | cons hy hrest =>
      rename_i y v ys vs
      simp only [CallKind.receiverCount, List.take_succ_cons, List.take_zero, List.head?_cons, Option.map_some,
        List.drop_succ_cons, List.drop_zero] at hreceiver hargs hobject
      obtain ⟨k, y⟩ := y
      obtain rfl : k = .object := hobject _ List.mem_cons_self
      obtain ⟨r, rfl, hr⟩ := Registers.ref_of_get? hy
      simp only [Image.effect, hs, expectSome, Fault.ok_bind, hf, Fault.lift_ok, pure_bind, hreceiver, hargs,
        Registers.getAll hrest, hr]
      cases r <;> rfl

/-- A native, run from the same world by machine and evaluation. -/
theorem Follows.native {lo hi p : Nat} {fid : FunctionId} {f : NativeFunction} {vs : List Value} {r : Option TypedSlot}
    {Q : Option Operand → Store → Machine → Prop} (hS : S.Valid)
    (hstep : S.image.step m = S.image.commit m (.invoke fid f vs r)) (hlo : lo ≤ m.pc) (hhi : m.pc < hi)
    (ha : Agrees S A none σ m) (hr : ∀ x, r = some x → x ∉ S.ctx.params ∧ m.registers.has x = true)
    (hnone : r = none → ∀ world, Agrees S A none { σ with world } (m.moved world) → Q none { σ with world } (m.moved world))
    (hsome : ∀ x v world m₁, r = some x → m₁.pc = m.pc + 1 → Stored S A x v { σ with world } m₁ →
      Q (some (.value v)) { σ with world } m₁) :
    Follows S g A lo hi p ((S.reading.native fid f vs (r.map (·.kind))).on σ) m 0 Q := by
  rcases hanswer : S.ctx.env.invoke fid f vs σ.world with ⟨outcome, world⟩
  have hon : (S.reading.native fid f vs (r.map (·.kind))).on σ =
      (Eval.lift (Reading.answer f (r.map (·.kind)) outcome)).on { σ with world } := by
    show (Eval.lift (Reading.answer f (r.map (·.kind)) (S.ctx.env.invoke fid f vs σ.world).1)).on
      { σ with world := (S.ctx.env.invoke fid f vs σ.world).2 } = _
    rw [hanswer]
  have hmoved : Agrees S A none { σ with world } { m with world } := (ha.moved world).goto m.pc
  rw [Image.commit, hS.env, ha.world, hanswer] at hstep
  rw [hon]
  cases outcome with
  | error e =>
    cases e with
    | missing what => exact .failed (.refl m) ⟨⟨hlo, hhi⟩, ha.going, hstep⟩ hmoved
    | failed message => exact .failed (.refl m) ⟨⟨hlo, hhi⟩, ha.going, hstep⟩ hmoved
  | ok v =>
    cases r with
    | none => exact .step hlo hhi ha.going hstep (.ok (Nat.zero_le _) (hnone rfl world (ha.moved world)))
    | some x =>
      obtain ⟨hx, hhas⟩ := hr x rfl
      by_cases hk : v.kind = x.kind
      · have hwrite : S.image.step m = .ok (Machine.wrote { m with world } x v) := by
          rw [hstep]
          simp [Machine.write, Registers.set, hk, hhas, Machine.next, Machine.wrote]
        have hv : Reading.answer f (some x.kind) (.ok v) = .ok (some (.value v)) := by simp [Reading.answer, hk]
        rw [Option.map_some, hv]
        exact .step hlo hhi ha.going hwrite (.ok (Nat.zero_le _) (hsome x v world _ rfl rfl (hmoved.stored hx hk hhas)))
      · have hfail : S.image.step m = .failed ((Fault.native f.qualifiedName (.wrongKind x.kind)).at m.pc) { m with world } := by
          rw [hstep]
          simp [Machine.write, Registers.set, hk, Fault.at]
        have hv : Reading.answer f (some x.kind) (.ok v) = .error (.native f.qualifiedName (.wrongKind x.kind)) := by
          simp [Reading.answer, hk]
        rw [Option.map_some, hv]
        exact .failed (.refl m) ⟨⟨hlo, hhi⟩, ha.going, hfail⟩ hmoved

/-- The call of a native that evaluation finds under the same name. -/
theorem Follows.invoke {lo hi p : Nat} {i : Nat} {fid : FunctionId} {f : NativeFunction} {method : MethodRef}
    {kind : CallKind} {vs : List Value} {r : Option TypedSlot} {Q : Option Operand → Store → Machine → Prop} (hS : S.Valid)
    (hcode : S.code[m.pc]? = some (.call i))
    (heffect : S.image.effect m (.call i) = Fault.place m.pc
      ((fun _ => .invoke fid f vs r) <$> (vs.take kind.receiverCount).mapM Fault.object))
    (hresolve : S.ctx.env.resolveFunction method.owner method.name = some fid) (hf : S.ctx.env.function fid = .ok f)
    (hlo : lo ≤ m.pc) (hhi : m.pc < hi) (ha : Agrees S A none σ m)
    (hr : ∀ x, r = some x → x ∉ S.ctx.params ∧ m.registers.has x = true)
    (hnone : r = none → ∀ world, Agrees S A none { σ with world } (m.moved world) → Q none { σ with world } (m.moved world))
    (hsome : ∀ x v world m₁, r = some x → m₁.pc = m.pc + 1 → Stored S A x v { σ with world } m₁ →
      Q (some (.value v)) { σ with world } m₁) :
    Follows S g A lo hi p ((S.reading.invoke method kind vs (r.map (·.kind))).on σ) m 0 Q := by
  unfold Reading.invoke
  refine .silent (a := fid) (by rw [show S.reading.env = S.ctx.env from rfl, hresolve]; rfl) ?_
  refine .silent (a := f) (by rw [show S.reading.env = S.ctx.env from rfl, hf]; rfl) ?_
  cases hobjects : (vs.take kind.receiverCount).mapM Fault.object with
  | error e =>
    have hstep : S.image.step m = .failed (e.at m.pc) m := by
      simp only [Scene.code] at hcode
      simp only [Image.step_eq, hcode, heffect, hobjects]
      rfl
    exact .failed (.refl m) ⟨⟨hlo, hhi⟩, ha.going, hstep⟩ ha
  | ok objects =>
    have hstep : S.image.step m = S.image.commit m (.invoke fid f vs r) := by
      simp only [Scene.code] at hcode
      simp only [Image.step_eq, hcode, heffect, hobjects]
      rfl
    exact .silent (Eval.on_lift_ok objects σ) (.native hS hstep hlo hhi ha hr hnone hsome)

/-! ## Call nodes -/

namespace Lowering

theorem checkCall_ok {method : MethodRef} {kind : CallKind} {native : NativeFunction} {count : Nat}
    (hr : checkCall id method kind native count s = .ok ((), t)) :
    t = s ∧ count = method.params.length + kind.receiverCount := by
  unfold checkCall at hr
  split at hr
  · cases hr
  · split at hr
    · cases hr
    · rename_i hcount
      cases hr
      exact ⟨rfl, Decidable.not_not.1 hcount⟩

theorem expectTypes_ok {ctx : Context} {ps : List (NodeId × ValueType)}
    (hr : (ps.forM fun (c, type) => ctx.expectType c type : Lower Unit) s = .ok ((), t)) :
    t = s ∧ ∀ p ∈ ps, ctx.function.kind? p.1 = p.2.kind? := by
  induction ps generalizing s with
  | nil =>
    cases hr
    exact ⟨rfl, by simp⟩
  | cons p ps ih =>
    obtain ⟨_, s₁, hfirst, hrest⟩ := bind_ok hr
    obtain ⟨rfl, hp⟩ := expectType_ok hfirst
    obtain ⟨rfl, hps⟩ := ih hrest
    refine ⟨rfl, fun q hq => ?_⟩
    rcases List.mem_cons.1 hq with rfl | hq
    · exact hp
    · exact hps q hq

end Lowering

/-- The receiver comes first and is an object. -/
theorem receiver_object {method : MethodRef} {kind : CallKind} (hcount : cs.length = method.params.length + kind.receiverCount)
    (htypes : ∀ p ∈ cs.zip (argumentTypes method kind), S.ctx.function.kind? p.1 = p.2.kind?)
    (hkinds : List.Forall₂ (fun c y => S.ctx.function.kind? c = some y.kind) cs ys) :
    kind.receiverCount ≤ ys.length ∧ ∀ y ∈ ys.take kind.receiverCount, y.kind = .object := by
  have hlen := hkinds.length_eq
  refine ⟨by omega, ?_⟩
  cases kind with
  | static => simp [CallKind.receiverCount]
  | onReceiver =>
    cases hkinds with
    | nil => simp
    | cons hc hrest =>
      rename_i c y cs ys
      have hobject := htypes (c, .object) (by simp [argumentTypes, CallKind.receiverCount])
      intro z hz
      obtain rfl : z = y := by simpa [CallKind.receiverCount] using hz
      exact Option.some.inj (hc.symm.trans hobject)

theorem Entry.call {method : MethodRef} {kind : CallKind} (hS : S.Valid) (hw : Builds S w ev)
    (h : Entry S s₀ s id demanded open_ hint) (hn : S.ctx.function.node? id = some ⟨.call method kind cs, type⟩)
    (hr : Lowering.call S.ctx w id method kind cs hint s = .ok (visited, t)) :
    Visits S ev ⟨.call method kind cs, type⟩ id demanded open_ hint offer s₀ s t visited := by
  have hc := hS.completes h.stands hn rfl
  unfold Lowering.call at hr
  cases hresolve : S.ctx.env.resolveFunction method.owner method.name with
  | none => simp only [hresolve] at hr; cases hr
  | some fid =>
    simp only [hresolve] at hr
    obtain ⟨f, _, hlookup, hr₁⟩ := bind_ok hr
    obtain ⟨hf, rfl⟩ := lookup_ok hlookup
    obtain ⟨_, _, hcheck, hr₂⟩ := bind_ok hr₁
    obtain ⟨rfl, hcount⟩ := checkCall_ok hcheck
    obtain ⟨_, _, hexpect, hr₃⟩ := bind_ok hr₂
    obtain ⟨rfl, htypes⟩ := expectTypes_ok hexpect
    obtain ⟨ys, s₁, hoperands, hr₄⟩ := bind_ok hr₃
    obtain ⟨_, s₂, hreleases, hr₅⟩ := bind_ok hr₄
    obtain ⟨r, s₃, hslot, hr₆⟩ := bind_ok hr₅
    obtain ⟨i, s₄, hsite, hr₇⟩ := bind_ok hr₆
    obtain ⟨_, s₅, hemit, hr₈⟩ := bind_ok hr₇
    cases hr₈
    cases hsite
    obtain rfl := emit_ok hemit
    have hst : ∀ c ∈ cs, S.ctx.function.Stands c (S.ctx.function.reads demanded c .operand) open_ := fun c hc =>
      h.stands.child hn (List.mem_map.2 ⟨c, hc, rfl⟩)
    have hall := hw.operands hst h.along.books hoperands
    have hfreed := releases_ok hall.along (fun c hc => hall.lent c (List.mem_reverse.1 hc)) hreleases
    have hslotted := (h.advance hfreed.along).demandedSlot hS hslot
    obtain ⟨hlen, hobject⟩ := receiver_object hcount htypes hall.kinds
    let site : CallSite := ⟨fid, (ys.take kind.receiverCount).head?.map (·.slot), ys.drop kind.receiverCount, r⟩
    have hdraft : s₃.draft = s₁.draft := hslotted.draft.trans hfreed.draft
    have hsited : Along S.ctx s₃ { s₃ with sites := s₃.sites.push site } := hslotted.along.books.along.addSite site
    have hend := hsited.trans (Books.emit hsited.books (.call s₃.sites.size))
    refine hslotted.lowered hfreed.along.since.toGrows hend fun hready => ?_
    have hgrows := (hfreed.grows.trans hslotted.grows).trans hend.since.toGrows
    have hlabel : (s₃.draft.add (.call s₃.sites.size)).label = s₁.draft.label + 1 := by rw [Draft.label_add, hdraft]
    have hlabel₁ := hall.along.since.label
    have hrun := hall.follows h.along.since ⟨hgrows.final hready.final, hready.scope, hready.live, hready.agrees, hready.pc⟩
    refine (hrun.widen (Nat.le_refl _) (by show _ ≤ (s₃.draft.add _).label; omega)).bind ?_
    rintro os τ m₁ ⟨hpc, ha, hheld, -⟩
    obtain ⟨vs, hvs, hgets⟩ := Held.readAll hheld ha
    refine .silent hvs ?_
    have hcode : S.code[m₁.pc]? = some (.call s₃.sites.size) := by
      rw [hpc, ← hdraft]
      exact hready.final.emitted nofun rfl
    have hsite : S.image.program.sites[s₃.sites.size]? = some site := hready.final.sites _ _ Array.getElem?_push_size
    have heffect := Image.effect_call hsite (hS.env ▸ hf) rfl rfl hlen hobject hgets
    have hresult : (if demanded then type.kind? else none) = r.map (·.kind) := by
      rw [← hslotted.slot]
      cases r with
      | none => rfl
      | some x => exact (Function.kind?_of_node hn).symm.trans (hslotted.target x rfl).kind
    show Follows _ _ _ _ _ _ ((S.reading.invoke method kind vs (if demanded then type.kind? else none)).on τ) _ _ _
    rw [hresult]
    refine .invoke hS hcode heffect hresolve hf (by omega) (by show _ < (s₃.draft.add _).label; omega) ha ?_ ?_ ?_
    · rintro x rfl
      have htarget := hslotted.target x rfl
      exact ⟨htarget.loose, hready.final.covered ha (hend.since.has htarget.has)⟩
    · rintro rfl world ha'
      refine ⟨?_, hc, .nothing ha'⟩
      show m₁.pc + 1 = (s₃.draft.add _).label
      omega
    · rintro x v world m₂ rfl hpc₂ hv
      refine ⟨?_, hc, hslotted.delivers hend.since hready.live hv⟩
      show m₂.pc = (s₃.draft.add _).label
      omega

end SlotCode
