/-
  SlotCode.Proofs.FixedRegisters — parameters stay, and a variable changes only where it is assigned.

  Every parameter and variable has a register of its own. Running an instruction changes
  at most the register that it writes, so a register keeps what it holds along every run
  whose instructions spare it. What lowering emits spares the registers of parameters
  everywhere, and that of a variable unless the instruction was emitted while an assignment
  of the variable was lowered (`EmittedWhile`).

  Proved: one step (`Image.step_spares`), and for every call of a lowered program
  `compile_keeps_fixed`.
-/

import SlotCode.Proofs.FittingRuns
import SlotCode.Proofs.SparingWalk

namespace SlotCode

open Lowering

/-! ## Running what spares a register -/

section

variable {im : Image} {m : Machine} {x y : TypedSlot} {v : Value}

theorem Registers.set_ok {r r' : Registers} (h : r.set y v = .ok (some r')) :
    v.kind = y.kind ∧ r.has y = true ∧ r' = r.put y.slot v := by
  unfold Registers.set at h
  split at h
  · cases h
  · rename_i hkind
    split at h
    · rename_i hhas
      cases h
      exact ⟨Decidable.of_not_not hkind, hhas, rfl⟩
    · cases h

/-- A write changes no other register, and none at all if the value is there already. -/
theorem Machine.get?_write (m : Machine) (refused : RuntimeError) (h : y ≠ x ∨ m.registers.get? y = some v) :
    (m.write y v refused).machine.registers.get? x = m.registers.get? x := by
  unfold Machine.write
  split
  · rename_i r hset
    obtain ⟨hkind, hhas, rfl⟩ := Registers.set_ok hset
    have hslot : TypedSlot.mk v.kind y.slot = y := by rw [hkind]
    show (m.registers.put y.slot v).get? x = m.registers.get? x
    by_cases hx : x = y
    · subst hx
      have hself := Registers.get?_put_self (v := v) (s := x.slot) (hslot ▸ hhas)
      rw [hslot] at hself
      rw [hself, h.resolve_left fun hne => hne rfl]
    · exact Registers.get?_put_ne (by rwa [hslot])
  · rfl
  · rfl

theorem Image.get?_commit (im : Image) (m : Machine) {e : Effect} (h : e.target? ≠ some x) :
    (im.commit m e).machine.registers.get? x = m.registers.get? x := by
  cases e with
  | write y v => exact m.get?_write _ (.inl fun hy => h (congrArg some hy))
  | invoke id f args result =>
    simp only [Image.commit]
    rcases im.env.invoke id f args m.world with ⟨(_ | _) | v, world⟩
    · rfl
    · rfl
    · cases result with
      | none => rfl
      | some y => exact Machine.get?_write { m with world } _ (.inl fun hy => h (congrArg some hy))
  | _ => rfl

/-- A null check of a register into itself writes what is there. -/
theorem Image.effect_nullCheck_self {r : Slot} {e : Effect} (h : im.effect m (.nullCheck r r) = .ok e) :
    ∃ v, e = .write ⟨.object, r⟩ v ∧ m.registers.get? ⟨.object, r⟩ = some v := by
  have h : (do
      let object ← nonNull m.pc (← (liftM (m.registers.ref r) : Except RuntimeError (Option Ref)))
      pure (Effect.write ⟨.object, r⟩ (.ref (some object)))) = .ok e := h
  unfold Registers.ref at h
  cases hget : m.registers.refs[r]? with
  | none => rw [hget] at h; cases h
  | some a =>
    rw [hget] at h
    cases a with
    | none => cases h
    | some object =>
      cases h
      exact ⟨_, rfl, by simp [Registers.get?, hget]⟩

theorem Instruction.Spares.writes {p : Program} {i : Instruction} (h : i.Spares p.sites x) :
    p.writes i ≠ some x ∨ ∃ r, i = .nullCheck r r := by
  cases i with
  | call n =>
    obtain ⟨site, hsite, hresult⟩ := h
    refine .inl ?_
    simpa [Program.writes, hsite] using hresult
  | nullCheck r a =>
    rcases h with rfl | h
    · exact .inr ⟨r, rfl⟩
    · exact .inl fun hx => h (Option.some.inj hx).symm
  | _ => exact .inl h

theorem Image.step_spares {i : Instruction} (hi : im.program.code[m.pc]? = some i) (h : i.Spares im.program.sites x) :
    (im.step m).machine.registers.get? x = m.registers.get? x := by
  have hsuits := answers_suits im m i
  rw [Image.step_eq]
  simp only [hi]
  cases he : im.effect m i with
  | error e => rfl
  | ok e =>
    rw [he] at hsuits
    rcases h.writes with hother | ⟨r, rfl⟩
    · exact im.get?_commit m fun hx => hother (hsuits.target?_eq.symm.trans hx)
    · obtain ⟨v, rfl, hv⟩ := Image.effect_nullCheck_self he
      exact m.get?_write _ (.inr hv)

/-- A register that all instructions spare keeps what it holds. -/
theorem Image.advance_spares (h : ∀ (q : Nat) i, im.program.code[q]? = some i → i.Spares im.program.sites x) (n : Nat) :
    ∀ m : Machine, (im.advance n m).2.registers.get? x = m.registers.get? x := by
  have hstep : ∀ m : Machine, (im.step m).machine.registers.get? x = m.registers.get? x := by
    intro m
    cases hi : im.program.code[m.pc]? with
    | none => simp only [Image.step_eq, hi]; rfl
    | some i => exact Image.step_spares hi (h m.pc i hi)
  induction n with
  | zero => exact fun m => rfl
  | succ n ih =>
    intro m
    have hm := hstep m
    unfold Image.advance
    split
    · rfl
    · split
      · rename_i m' hm'
        rw [hm'] at hm
        exact (ih m').trans hm
      · rename_i m' hm'
        rw [hm'] at hm
        exact hm

end

/-! ## Where lowering emits -/

namespace Lowering

/-- Lowers the body by a walk of any kind, and ends the code. -/
def lowerBodyBy (w : Walk) (ctx : Context) (u : Usage) : Lower (Option TypedSlot) := do
  let v ← w.build ctx.function.body u none none
  let result ← resultBinding ctx v.slot
  emit .stop
  let live := (← get).pool.liveCount
  if live = result.toList.length then return result else defect (.slotsLeft live)

end Lowering

/-- Lowers a function by a walk of any kind. -/
def compileBy (w : Context → Walk) (f : Function) (env : Environment) (options : CompileOptions) :
    Except BuildError Program := do
  let demand ← (Demand.analyze f).mapError .missing
  let (params, pool) ← fixedSlots f.body .parameter 0 f.params Pool.empty
  let (vars, pool) ← fixedSlots f.body .localVariable 0 f.locals pool
  let u ← bodyUsage f
  let ctx : Context := ⟨f, env, options, params, vars⟩
  let (result, s) ← (lowerBodyBy (w ctx) ctx u).run { demand, pool, nodes := Array.replicate f.nodes.size {} }
  finish ctx s result

theorem compileBy_walk (f : Function) (env : Environment) (options : CompileOptions) :
    compileBy (fun ctx => walk ctx (ctx.function.nodes.size + 1) 0) f env options = compile f env options := rfl

/-- What stands at the address is emitted while a suspect is lowered: a lowering under watch for that stops with the
    alarm, whatever the alarm is. -/
def EmittedWhile (f : Function) (env : Environment) (options : CompileOptions) (suspect : NodeId → Bool) (address : Nat) :
    Prop :=
  ∀ alarm, compileBy (fun ctx => watchedWalk ctx (emittedBy suspect address) alarm (ctx.function.nodes.size + 1) 0)
    f env options = .error alarm

/-- The node assigns the variable. -/
def Function.assigns (f : Function) (v : VarId) (id : NodeId) : Bool :=
  match f.node? id with
  | some ⟨.setVar index _, _⟩ => index == v
  | _ => false

theorem Function.assigns_eq {f : Function} {id : NodeId} {n : Node} {index : VarId} {value : NodeId} (hn : f.node? id = some n)
    (he : n.expr = .setVar index value) (v : VarId) : f.assigns v id = (index == v) := by
  obtain ⟨e, type⟩ := n
  cases he
  simp [assigns, hn]

theorem not_emittedWhile_never {f : Function} {env : Environment} {options : CompileOptions} {p : Program}
    (h : compile f env options = .ok p) (address : Nat) : ¬ EmittedWhile f env options (fun _ => false) address := by
  intro hemitted
  have halarm := hemitted (.missing (.node 0))
  simp only [watchedWalk_deaf] at halarm
  rw [compileBy_walk, h] at halarm
  cases halarm

namespace Lowering

variable {ctx : Context} {p : Program} {G : Guard}

theorem sparing_resultBinding (slot : Option TypedSlot) : Sparing ctx G (resultBinding ctx slot) fun _ => True := by
  cases slot with
  | none => exact .pure trivial
  | some x =>
    refine .ite (fun _ => ?_) fun _ => .pure trivial
    refine (sparing_acquire x.kind).bind fun r hr => ?_
    have hwrites : (Instruction.move x.kind r.slot x.slot).writes = some r := by rw [Instruction.writes, ← hr.1]
    exact (sparing_write rfl hwrites hr.2).bind fun _ _ => .pure trivial

theorem Passage.spared_start (P : Passage ctx p) {x : TypedSlot} (hx : x ∈ ctx.params ++ ctx.vars) (address : Nat)
    (alarm : BuildError) : Spared ctx ⟨x, address, none, alarm⟩ (.start ctx P.demand P.pool) :=
  ⟨hx, P.fixed.1, ⟨List.nodup_nil, nofun⟩, nofun, fun _ _ hi => nomatch hi⟩

/-- An error of the walk over the body is the error of the lowering. -/
theorem Passage.compileBy_error (P : Passage ctx p) {w : Context → Walk} {e : BuildError}
    (h : (w ctx).build ctx.function.body P.usage none none (.start ctx P.demand P.pool) = .error e) :
    compileBy w ctx.function ctx.env ctx.options = .error e := by
  have hlower : lowerBodyBy (w ctx) ctx P.usage (.start ctx P.demand P.pool) = .error e := by
    simp only [lowerBodyBy, Bind.bind, StateT.bind, Except.bind, h]
  simp only [compileBy, P.analyzed, P.paramSlots, P.varSlots, P.used, Except.mapError, Bind.bind, Except.bind]
  show (lowerBodyBy (w ctx) ctx P.usage (.start ctx P.demand P.pool) >>= fun r => finish ctx r.2 r.1) = .error e
  rw [hlower]
  rfl

/-- What stands at an address spares the slot, or was emitted while a suspect was lowered. -/
theorem Passage.spares (P : Passage ctx p) (hf : ctx.function.WellTyped) {x : TypedSlot} (hx : x ∈ ctx.params ++ ctx.vars)
    {suspect : NodeId → Bool} (hsuspect : Suspected ctx x suspect) {address : Nat} {i : Instruction}
    (hi : p.code[address]? = some i) (hclear : ¬ EmittedWhile ctx.function ctx.env ctx.options suspect address) :
    i.Spares p.sites x := by
  obtain ⟨alarm, hquiet⟩ := not_forall.1 hclear
  have hbody := (watchedWalk_guarded hf hsuspect address alarm (ctx.function.nodes.size + 1) 0 none).build ctx.function.body
    .refl P.usage none none (Guard.allowsAll_none _) _ (P.spared_start hx address alarm)
  rcases hbody with halarm | ⟨-, hwalked⟩
  · exact absurd (P.compileBy_error halarm) hquiet
  · have hbound := (Meets.ok (sparing_resultBinding _ ()) (hwalked _ _ P.walks) P.binds).2
    rw [P.tables.2.2.1]
    rw [P.code_eq, Draft.getElem?_push] at hi
    split at hi
    · cases hi
      exact nofun
    · exact hbound.spared nofun i hi

/-! ## Registers of parameters and variables -/

theorem size_reserve (pool : Pool) (kind k : Kind) :
    ((pool.reserve kind).2.get k).size = (pool.get k).size + if kind == k then 1 else 0 := by
  show ((pool.set kind (pool.get kind).reserve.2).get k).size = _
  by_cases hk : kind = k
  · subst hk
    rw [PerKind.get_set_self]
    simp [Partition.reserve, Partition.extend]
  · rw [PerKind.get_set_ne _ _ (Ne.symm hk)]
    simp [hk]

/-- Each fixed slot is the next one of its partition. -/
theorem fixedSlots_numbered {body : NodeId} {cause : Nat → ValueType → Mismatch} {types : List ValueType} :
    ∀ {index : Nat} {pool pool' : Pool} {slots : List TypedSlot},
      fixedSlots body cause index types pool = .ok (slots, pool') →
        (∀ (k : Nat) x, slots[k]? = some x → x.slot = (pool.get x.kind).size + (slots.take k).countP (·.kind == x.kind)) ∧
          ∀ k, (pool'.get k).size = (pool.get k).size + slots.countP (·.kind == k) := by
  induction types with
  | nil =>
    intro index pool pool' slots hr
    cases hr
    exact ⟨nofun, fun _ => rfl⟩
  | cons type types ih =>
    intro index pool pool' slots hr
    unfold fixedSlots at hr
    cases hk : type.kind? with
    | none => simp only [hk] at hr; cases hr
    | some kind =>
      simp only [hk] at hr
      obtain ⟨⟨rest, pool₁⟩, hrest, hr₁⟩ := bind_eq_ok hr
      cases hr₁
      obtain ⟨hnumbers, hsizes⟩ := ih hrest
      refine ⟨fun k x hx => ?_, fun k => ?_⟩
      · cases k with
        | zero =>
          cases hx
          rfl
        | succ k =>
          have hx : rest[k]? = some x := hx
          rw [hnumbers k x hx, size_reserve, List.take_succ_cons, List.countP_cons]
          exact (Nat.add_right_comm _ _ _).trans (Nat.add_assoc _ _ _)
      · rw [hsizes, size_reserve, List.countP_cons]
        exact (Nat.add_right_comm _ _ _).trans (Nat.add_assoc _ _ _)

/-- The fixed slots of a partition are numbered in the order of declaration, parameters first. -/
theorem Passage.numbered (P : Passage ctx p) {k : Nat} {x : TypedSlot} (hx : (ctx.params ++ ctx.vars)[k]? = some x) :
    x.slot = ((ctx.params ++ ctx.vars).take k).countP (·.kind == x.kind) := by
  obtain ⟨hparams, hreserved⟩ := fixedSlots_numbered P.paramSlots
  obtain ⟨hvars, -⟩ := fixedSlots_numbered P.varSlots
  have hempty : ∀ kind, (Pool.empty.get kind).size = 0 := fun kind => by cases kind <;> rfl
  rw [List.take_append, List.countP_append]
  rcases Nat.lt_or_ge k ctx.params.length with hlt | hge
  · rw [List.getElem?_append_left hlt] at hx
    rw [hparams k x hx, hempty, Nat.sub_eq_zero_of_le (Nat.le_of_lt hlt)]
    simp
  · rw [List.getElem?_append_right hge] at hx
    rw [hvars _ x hx, hreserved, hempty, List.take_of_length_le hge, Nat.zero_add]

end Lowering

/-! ## Calls -/

namespace Image

/-- The machine that a call runs: every register zero, but for the arguments. None, if they are refused. -/
def entered (im : Image) (args : List Value) (m : Machine) : Option Machine :=
  if args.length = im.program.params.length then
    match bindArgs 0 (im.program.params.zip args) m.reset.registers with
    | (none, registers) => some { m.reset with registers }
    | (some _, _) => none
  else none

/-- Arguments that are not refused are in the parameters, and nothing else has changed. -/
theorem bindArgs_none {ps : List TypedSlot} : ∀ {k : Nat} {vs : List Value} {r r' : Registers}, ps.Nodup →
    vs.length = ps.length → bindArgs k (ps.zip vs) r = (none, r') →
      (∀ x, x ∉ ps → r'.get? x = r.get? x) ∧ ∀ (i : Nat) x, ps[i]? = some x → r'.get? x = vs[i]? := by
  induction ps with
  | nil =>
    intro k vs r r' _ _ hbind
    cases hbind
    exact ⟨fun _ _ => rfl, nofun⟩
  | cons y ps ih =>
    intro k vs r r' hnodup hlen hbind
    cases vs with
    | nil => cases hlen
    | cons v vs =>
      obtain ⟨hy, hrest⟩ := List.nodup_cons.1 hnodup
      rw [List.zip_cons_cons, bindArgs] at hbind
      split at hbind
      · rename_i r₁ hset
        obtain ⟨hkind, hhas, rfl⟩ := Registers.set_ok hset
        have hslot : TypedSlot.mk v.kind y.slot = y := by rw [hkind]
        have hput : (r.put y.slot v).get? y = some v := by
          have hself := Registers.get?_put_self (v := v) (s := y.slot) (hslot ▸ hhas)
          rwa [hslot] at hself
        obtain ⟨hother, hargs⟩ := ih hrest (Nat.succ.inj hlen) hbind
        refine ⟨fun x hx => ?_, fun i x hx => ?_⟩
        · obtain ⟨hne, hnot⟩ := not_or.1 (mt List.mem_cons.2 hx)
          rw [hother x hnot]
          exact Registers.get?_put_ne (by rwa [hslot])
        · cases i with
          | zero =>
            cases hx
            exact (hother y hy).trans hput
          | succ i => exact hargs i x hx
      · cases hbind
      · cases hbind

variable {im : Image} {args : List Value} {m m' : Machine}

theorem entered_ok (h : im.entered args m = some m') : args.length = im.program.params.length ∧
    ∃ r, bindArgs 0 (im.program.params.zip args) m.reset.registers = (none, r) ∧ m' = { m.reset with registers := r } := by
  unfold entered at h
  split at h
  · rename_i hlen
    split at h
    · rename_i r hbind
      cases h
      exact ⟨hlen, r, hbind, rfl⟩
    · cases h
  · cases h

/-- A call whose arguments are not refused leaves the machine where some number of steps takes it. -/
theorem call_entered (h : im.entered args m = some m') (options : ExecutionOptions) (fuel : Nat) :
    (im.call options fuel args m).2 = (im.advance (options.maxSteps.getD fuel) m').2 := by
  obtain ⟨hlen, r, hbind, rfl⟩ := entered_ok h
  simp only [call, hlen, hbind, resume, ne_eq, not_true, if_false]
  rcases im.advance (options.maxSteps.getD fuel) { m.reset with registers := r } with ⟨_ | e | _, m₁⟩
  · dsimp only
    cases im.result m₁ <;> rfl
  · rfl
  · cases options.maxSteps <;> rfl

end Image

/-- Every parameter and variable of a well-typed function has a register of its own, numbered within its partition in the
    order of declaration, parameters first. In every run that a call starts, whatever the number of steps, each
    parameter's register holds its argument; a step that changes the register of a variable is at an instruction that
    was emitted while an assignment of the variable was lowered; and a variable that is never assigned stays zero. -/
theorem compile_keeps_fixed (f : Function) (env : Environment) (options : CompileOptions) (p : Program) (hf : f.WellTyped)
    (h : compile f env options = .ok p) :
    f.params.map ValueType.kind? = p.params.map (fun x => some x.kind) ∧
    f.locals.map ValueType.kind? = p.vars.map (fun x => some x.kind) ∧
    (p.params ++ p.vars).Nodup ∧
    (∀ (k : Nat) x, (p.params ++ p.vars)[k]? = some x → x.slot = ((p.params ++ p.vars).take k).countP (·.kind == x.kind)) ∧
    ∀ (im : Image) (m start : Machine) (args : List Value), im.program = p → m.Covers p → im.entered args m = some start →
      (∀ run fuel, ∃ n, (im.call run fuel args m).2 = (im.advance n start).2) ∧
      ∀ n, (∀ (k : Nat) x, p.params[k]? = some x → (im.advance n start).2.registers.get? x = args[k]?) ∧
        ∀ (v : VarId) x, p.vars[v]? = some x →
          ((im.step (im.advance n start).2).machine.registers.get? x ≠ (im.advance n start).2.registers.get? x →
            EmittedWhile f env options (f.assigns v) (im.advance n start).2.pc) ∧
          ((∀ id, f.Reachable id → f.assigns v id = false) →
            (im.advance n start).2.registers.get? x = some (.zero x.kind)) := by
  obtain ⟨params, vars, ⟨P⟩⟩ := compile_passage h
  obtain ⟨-, hnodup, hparams, hvars⟩ := P.fixed
  obtain ⟨-, -, -, hp, hv⟩ := P.tables
  obtain rfl : p.params = params := hp
  obtain rfl : p.vars = vars := hv
  have hfits := P.fits hf (compile_ok_sealed h)
  obtain ⟨hparamsApart, hvarsApart, hapart⟩ := List.nodup_append.1 hnodup
  have hsole : ∀ {i j : Nat} {x : TypedSlot}, p.vars[i]? = some x → p.vars[j]? = some x → i = j := by
    intro i j x hi hj
    obtain ⟨_, hat⟩ := List.getElem?_eq_some_iff.1 hi
    obtain ⟨_, hat'⟩ := List.getElem?_eq_some_iff.1 hj
    exact hvarsApart.getElem_inj_iff.1 (hat.trans hat'.symm)
  -- Without a suspect, nothing that is emitted touches the register.
  have hnever : ∀ x ∈ p.params ++ p.vars, Suspected ⟨f, env, options, p.params, p.vars⟩ x (fun _ => false) →
      ∀ (q : Nat) i, p.code[q]? = some i → i.Spares p.sites x :=
    fun x hx hsuspect q i hi => P.spares hf hx hsuspect hi (not_emittedWhile_never h q)
  refine ⟨hparams, hvars, hnodup, fun k x hx => P.numbered hx, ?_⟩
  rintro im m start args rfl hm hstart
  obtain ⟨hlen, r, hbind, rfl⟩ := Image.entered_ok hstart
  obtain ⟨hother, hargs⟩ := Image.bindArgs_none hparamsApart hlen hbind
  refine ⟨fun run fuel => ⟨_, Image.call_entered hstart run fuel⟩, fun n => ⟨fun k x hx => ?_, fun v x hx => ⟨?_, ?_⟩⟩⟩
  · have hmem := List.mem_of_getElem? hx
    have hspares := hnever x (List.mem_append_left _ hmem) fun _ _ _ _ _ _ _ hvar =>
      absurd rfl (hapart x hmem x (List.mem_of_getElem? hvar))
    rw [Image.advance_spares hspares]
    exact hargs k x hx
  · have hmem := List.mem_of_getElem? hx
    intro hchanged
    by_contra hclear
    refine hchanged ?_
    cases hi : im.program.code[(im.advance n { m.reset with registers := r }).2.pc]? with
    | none => simp only [Image.step_eq, hi]; rfl
    | some i =>
      refine Image.step_spares hi (P.spares hf (List.mem_append_right _ hmem) ?_ hi hclear)
      intro id node index value _ hnode he hvar
      rw [Function.assigns_eq hnode he, hsole hvar hx]
      exact beq_self_eq_true v
  · have hmem := List.mem_of_getElem? hx
    intro hunassigned
    have hspares := hnever x (List.mem_append_right _ hmem) fun id node index value hid hnode he hvar => by
      have hassigned := hunassigned id hid
      rw [Function.assigns_eq hnode he, hsole hvar hx, beq_self_eq_true] at hassigned
      cases hassigned
    rw [Image.advance_spares hspares]
    refine (hother x fun hparam => hapart x hparam x hmem rfl).trans ?_
    exact Registers.get?_reset (hm x (hfits.fixed x (List.mem_append_right _ hmem)))

/-- Checks an object that nobody reads, assigns its first variable by a conditional and adds its second to it, which is
    never assigned. -/
def checkedPick : Function where
  params := [.object, .boolean]
  locals := [.int, .int]
  nodes := #[⟨.param 0, .object⟩, ⟨.unary .nullCheck 0, .object⟩, ⟨.param 1, .boolean⟩, ⟨.const (.int 5), .int⟩,
    ⟨.const (.int 7), .int⟩, ⟨.unary (.negate .int) 4, .int⟩, ⟨.conditional 2 3 5, .int⟩, ⟨.setVar 0 6, .void⟩,
    ⟨.getVar 0, .int⟩, ⟨.getVar 1, .int⟩, ⟨.binary (.arith .int .add) 8 9, .int⟩, ⟨.sequence 7 10, .int⟩,
    ⟨.sequence 1 11, .int⟩]
  body := 12
  returnType := .int

theorem checkedPick_keeps_fixed : checkedPick.WellTyped ∧ ∃ p, compile checkedPick {} {} = .ok p ∧ ∀ w, ∃ start,
    (Image.load p {} w).1.entered [.ref (some 0), .int 0] (.start (Image.load p {} w).1 (Image.load p {} w).2) = some start ∧
      ∀ n, ((Image.load p {} w).1.advance n start).2.registers.get? ⟨.object, 0⟩ = some (.ref (some 0)) ∧
        ((Image.load p {} w).1.advance n start).2.registers.get? ⟨.int, 2⟩ = some (.int 0) ∧
        (((Image.load p {} w).1.step ((Image.load p {} w).1.advance n start).2).machine.registers.get? ⟨.int, 1⟩ ≠
            ((Image.load p {} w).1.advance n start).2.registers.get? ⟨.int, 1⟩ →
          EmittedWhile checkedPick {} {} (checkedPick.assigns 0) ((Image.load p {} w).1.advance n start).2.pc) := by
  have hf : checkedPick.WellTyped := by decide
  obtain ⟨p, hp, hcounts, hparams, hvars⟩ : ∃ p, compile checkedPick {} {} = .ok p ∧ p.counts = ⟨5, 0, 0, 0, 1⟩ ∧
      p.params = [⟨.object, 0⟩, ⟨.int, 0⟩] ∧ p.vars = [⟨.int, 1⟩, ⟨.int, 2⟩] := by
    refine ⟨{ code := #[.nullCheck 0 0, .jumpIf false 0 (.address 4), .const 1 (.int 5), .goto (.address 6), .const 4 (.int 7),
                .neg .int 1 4, .arith .int .add 3 1 2, .stop],
              counts := ⟨5, 0, 0, 0, 1⟩, params := [⟨.object, 0⟩, ⟨.int, 0⟩], vars := [⟨.int, 1⟩, ⟨.int, 2⟩],
              result := some ⟨.int, 3⟩ }, ?_, rfl, rfl, rfl⟩
    decide +kernel
  have hunassigned : ∀ id ∈ checkedPick.order, checkedPick.assigns 1 id = false := by decide +kernel
  refine ⟨hf, p, hp, fun w => ?_⟩
  have hprogram : (Image.load p {} w).1.program = p := by rw [Image.load_eq]
  obtain ⟨start, hstart⟩ : ∃ start, (Image.load p {} w).1.entered [.ref (some 0), .int 0]
      (.start (Image.load p {} w).1 (Image.load p {} w).2) = some start := by
    simp only [Image.entered, Machine.start, Machine.reset, hprogram, hparams, hcounts]
    exact ⟨_, rfl⟩
  have hcovers : (Machine.start (Image.load p {} w).1 (Image.load p {} w).2).Covers p := fun x hx => by
    rw [Machine.start, hprogram]
    exact (Registers.has_new p.counts x).2 hx
  obtain ⟨-, -, -, -, hruns⟩ := compile_keeps_fixed _ _ _ _ hf hp
  obtain ⟨-, hkept⟩ := hruns _ _ start _ hprogram hcovers hstart
  refine ⟨start, hstart, fun n => ?_⟩
  obtain ⟨hargs, hlocals⟩ := hkept n
  rw [hparams] at hargs
  rw [hvars] at hlocals
  exact ⟨hargs 0 _ rfl, (hlocals 1 _ rfl).2 fun id hid => hunassigned id (Function.mem_order.2 hid), (hlocals 0 _ rfl).1⟩

-- The sum is emitted outside the assignment, what the conditional leaves in the variable within it.
example : compileBy (fun ctx => watchedWalk ctx (emittedBy (checkedPick.assigns 0) 6) (.cycle 0) 14 0) checkedPick {} {} =
    compile checkedPick {} {} := by decide +kernel

example : compileBy (fun ctx => watchedWalk ctx (emittedBy (checkedPick.assigns 0) 5) (.cycle 0) 14 0) checkedPick {} {} =
    .error (.cycle 0) := by decide +kernel

end SlotCode
