/-
  SlotCode.Proofs.AdoptedTails — an exit that takes over the tail of a condition does what its own jump would do.

  The options say whether exits take over tails (`adoptTails`); without that (`plain`) every exit has a jump of
  its own, and a conditional whose arm is such an exit is put together in another way.
  So the two programs of a function differ in the code and in every address.

  Proved: both lowerings succeed or fail with the same error, and what they return
  differs in the code alone. On every call the two programs end alike, or neither ends:
  with the same value or for the same reason, with the same registers, and in the same
  world, which has the native calls in it.
-/

import SlotCode.Proofs.Realization
import SlotCode.Proofs.TwinWalk

namespace SlotCode

/-! ## Calls -/

/-- The calls ended in the same way: with the same value, or with the same error up to the addresses in it. -/
def Outcome.Alike {α : Type} : Outcome α → Outcome α → Prop
  | .done a, .done a' => a = a'
  | .failed (.runtime e), .failed (.runtime e') => e.placeless = e'.placeless
  | _, _ => False

/-- On the same arguments and the same machine, the calls of two images end alike or neither ends. Once a call has ended,
    more fuel makes no difference. -/
structure Image.CallsAlike (im im' : Image) (args : List Value) (m : Machine) : Prop where
  forth : ∀ k, (im.call {} k args m).1 ≠ .unfinished → ∃ n, ∀ j, n ≤ j →
    (im.call {} k args m).1.Alike (im'.call {} j args m).1 ∧ (im.call {} k args m).2.Alike (im'.call {} j args m).2
  back : ∀ j, (im'.call {} j args m).1 ≠ .unfinished → ∃ n, ∀ k, n ≤ k →
    (im.call {} k args m).1.Alike (im'.call {} j args m).1 ∧ (im.call {} k args m).2.Alike (im'.call {} j args m).2

theorem Ending.Alike.ended {e e' : Ending} (h : e.Alike e') : e ≠ .running ∧ e' ≠ .running := by
  cases e <;> cases e' <;> first | exact h.elim | exact ⟨nofun, nofun⟩

namespace Image

variable {im im' : Image} {args : List Value} {m : Machine}

/-- A call that is refused before it starts. -/
theorem CallsAlike.refused {e : RuntimeError} {r : Machine} (h : ∀ k, im.call {} k args m = (.failed (.runtime e), r))
    (h' : ∀ k, im'.call {} k args m = (.failed (.runtime e), r)) : im.CallsAlike im' args m := by
  constructor
  · intro k _
    exact ⟨0, fun j _ => by rw [h, h']; exact ⟨rfl, rfl, rfl, rfl⟩⟩
  · intro j _
    exact ⟨0, fun k _ => by rw [h, h']; exact ⟨rfl, rfl, rfl, rfl⟩⟩

/-- What a call makes of its run. -/
def conclude (im : Image) : Ending × Machine → Outcome (Option Value) × Machine
  | (.stopped, m) =>
    match im.result m with
    | .ok v => (.done v, m)
    | .error what => (.failed (.runtime (.missing what)), m)
  | (.failed e, m) => (.failed (.runtime e), m)
  | (.running, m) => (.unfinished, m)

theorem conclude_alike {r r' : Ending × Machine} (hresult : im'.program.result = im.program.result) (hend : r.1.Alike r'.1)
    (hm : r.2.Alike r'.2) : (im.conclude r).1.Alike (im'.conclude r').1 ∧ (im.conclude r).2.Alike (im'.conclude r').2 := by
  obtain ⟨e, m⟩ := r
  obtain ⟨e', m'⟩ := r'
  have hsame : im'.result m' = im.result m := by
    unfold result
    rw [hresult, show m'.registers = m.registers from hm.registers]
  cases e <;> cases e' <;> try exact hend.elim
  · dsimp only [conclude]
    rw [hsame]
    cases im.result m with
    | ok v => exact ⟨rfl, hm⟩
    | error what => exact ⟨rfl, hm⟩
  · exact ⟨hend, hm⟩

theorem conclude_unfinished {r : Ending × Machine} (h : (im.conclude r).1 ≠ .unfinished) : r.1 ≠ .running := by
  obtain ⟨e, m⟩ := r
  intro he
  cases he
  exact h rfl

/-- Calls that run programs in step from their start. -/
theorem CallsAlike.of_runs (m₀ : Machine) (hm₀ : m₀.pc = 0 ∧ m₀.stopped = false)
    (hcall : ∀ k, im.call {} k args m = im.conclude (im.advance k m₀))
    (hcall' : ∀ k, im'.call {} k args m = im'.conclude (im'.advance k m₀)) (h : ∀ n, im.InStep im' n 0 0)
    (hresult : im'.program.result = im.program.result) : im.CallsAlike im' args m := by
  have hstart : { m₀ with pc := 0 } = m₀ := by rw [← hm₀.1]
  obtain ⟨hforth, hback⟩ := InStep.ends_iff h hm₀.2
  rw [hstart] at hforth hback
  constructor
  · intro k hend
    rw [hcall] at hend
    obtain ⟨n, halike, hm⟩ := hforth k (conclude_unfinished hend)
    refine ⟨n, fun j hj => ?_⟩
    rw [hcall, hcall', advance_ended halike.ended.2 hj]
    exact conclude_alike hresult halike hm
  · intro j hend
    rw [hcall'] at hend
    obtain ⟨n, halike, hm⟩ := hback j (conclude_unfinished hend)
    refine ⟨n, fun k hk => ?_⟩
    rw [hcall, hcall', advance_ended halike.ended.1 hk]
    exact conclude_alike hresult halike hm

/-- Programs that are in step from the start are called alike. -/
theorem InStep.callsAlike (h : ∀ n, im.InStep im' n 0 0) (hparams : im'.program.params = im.program.params)
    (hresult : im'.program.result = im.program.result) (args : List Value) (m : Machine) : im.CallsAlike im' args m := by
  by_cases hlen : args.length = im.program.params.length
  · rcases hbind : bindArgs 0 (im.program.params.zip args) m.reset.registers with ⟨_ | e, registers⟩
    · exact .of_runs { m.reset with registers } ⟨rfl, rfl⟩ (call_eq hlen hbind)
        (call_eq (hparams ▸ hlen) (hparams ▸ hbind)) h hresult
    · refine .refused (e := e) (r := { m.reset with registers }) (fun k => ?_) fun k => ?_
      · simp only [call, hlen, hbind, ne_eq, not_true, if_false]
      · simp only [call, hparams, hlen, hbind, ne_eq, not_true, if_false]
  · refine .refused (e := .invalidArguments (.count im.program.params.length args.length)) (r := m) (fun k => ?_) fun k => ?_
    · simp only [call, hlen, ne_eq, not_false_eq_true, if_true]
    · simp only [call, hparams, hlen, ne_eq, not_false_eq_true, if_true]

end Image

/-! ## Whole functions -/

namespace Lowering

open Output

variable {ctx : Context} {s t : State}

theorem paced_resultBinding (slot : Option TypedSlot) :
    Paced (fun _ => True) (resultBinding ctx slot) (resultBinding ctx.plain slot) := by
  cases slot with
  | none => exact .pure trivial
  | some x =>
    exact .ite (.bind (blind_acquire x.kind).paced fun r _ => .bind (paced_emit rfl) fun _ _ => .pure trivial) (.pure trivial)

/-- Both programs end with a stop, so they are in step there and from the start. -/
theorem tandem_lowerBody (hf : ctx.function.WellTyped) (u : Usage) (ht : Twin s t) (hblocks : s.output.blocks = [])
    (hloops : s.output.loops = []) :
    Tandem s t (lowerBody ctx u) (lowerBody ctx.plain u) fun result result' c d => result' = result ∧
      ∀ im im' : Image, im.Counterparts im' → c.draft.Becomes im.program.code → d.draft.Becomes im'.program.code →
        ∀ n, im.InStep im' n s.output.label t.output.label := by
  refine ((walk_twins hf _ 0).build ctx.function.body u none none s t ht).bind fun v v' s₁ t₁ ht₁ hV => ?_
  obtain ⟨rfl, hfares⟩ := hV
  refine (paced_resultBinding v.slot s₁ t₁ ht₁).bind fun result result' s₂ t₂ ht₂ hV => ?_
  obtain ⟨rfl, -, hbound⟩ := hV
  have hcarries := hfares.of_none.2.trans hbound
  have happends := edits_emit .stop nofun rfl
  refine (Tandem.edits ht₂ happends happends).bind fun _ _ s₃ t₃ ht₃ hstop => .read ?_
  rw [show t₃.pool = s₃.pool by rw [ht₃.books]; rfl]
  dsimp only
  split
  · refine .pure ht₃ ⟨rfl, fun im im' hc hcode hcode' n => ?_⟩
    -- No frame is left, so there is nowhere else to land.
    have hblocks₂ := List.forall₂_nil_left_iff.1 (hblocks ▸ hcarries.left.blocks)
    have hloops₂ := List.forall₂_nil_left_iff.1 (hloops ▸ hcarries.left.loops)
    have hlands : Lands im im' n s₂.output t₂.output := by
      refine ⟨hc, hstop.1.extended.draft.becomes _ hcode, hstop.2.extended.draft.becomes _ hcode', ?_, ?_⟩
      · have hnames := ht₂.paired.blocks
        rw [hblocks₂] at hnames ⊢
        rw [List.map_eq_nil_iff.1 hnames]
        exact .nil
      · have hnames := ht₂.paired.loops
        rw [hloops₂] at hnames ⊢
        rw [List.map_eq_nil_iff.1 hnames]
        exact .nil
    exact hcarries.carry hlands (.stop (hstop.1.added _ hcode) (hstop.2.added _ hcode'))
  · exact .fail

theorem twin_start (ctx : Context) (demand : Demand) (pool : Pool) : Twin (.start ctx demand pool) (.start ctx demand pool) :=
  ⟨rfl, ⟨List.nodup_nil, nofun⟩, ⟨List.nodup_nil, nofun⟩, rfl, rfl⟩

/-- A program is made of a finished walk, unless a jump was mishandled. -/
theorem finish_or_fault (ctx : Context) (s : State) (result : Option TypedSlot) :
    (∃ code, s.draft.Becomes code ∧
      finish ctx s result = .ok ⟨code, s.pool.counts, s.texts, s.sites, ctx.params, ctx.vars, result⟩) ∨
    ∃ e, finish ctx s result = .error e ∧ e.isJumpFault = true := by
  unfold finish
  cases hfinish : s.draft.finish with
  | ok code => exact .inl ⟨code, Draft.becomes_finish hfinish, rfl⟩
  | error e =>
    refine .inr ⟨_, rfl, ?_⟩
    cases e <;> rfl

/-- The programs of both lowerings differ in the code alone and are in step, unless both failed or a jump was mishandled. -/
theorem lowered_twins (ctx : Context) (hf : ctx.function.WellTyped) (u : Usage) (demand : Demand) (pool : Pool)
    {x y : Except BuildError Program} (hx : x = lowerBody ctx u (.start ctx demand pool) >>= fun r => finish ctx r.2 r.1)
    (hy : y = lowerBody ctx.plain u (.start ctx demand pool) >>= fun r => finish ctx.plain r.2 r.1) :
    (∃ e, x = .error e ∧ y = .error e) ∨ (∃ e, (x = .error e ∨ y = .error e) ∧ e.isJumpFault = true) ∨
    ∃ p q, x = .ok p ∧ y = .ok q ∧ q = { p with code := q.code } ∧ ∀ im im' : Image, im.Counterparts im' → im.program = p →
      im'.program = q → ∀ n, im.InStep im' n 0 0 := by
  have htandem := tandem_lowerBody hf u (twin_start ctx demand pool) rfl rfl
  unfold Tandem at htandem
  generalize lowerBody ctx u (.start ctx demand pool) = r at htandem hx
  generalize lowerBody ctx.plain u (.start ctx demand pool) = r' at htandem hy
  cases htandem with
  | error e => exact .inl ⟨e, hx, hy⟩
  | fault he => exact .inr (.inl ⟨_, .inl hx, he⟩)
  | fault' he => exact .inr (.inl ⟨_, .inr hy, he⟩)
  | @ok _ result s t ht hV =>
    obtain ⟨rfl, hstep⟩ := hV
    have hx' : x = finish ctx s result := hx
    have hy' : y = finish ctx.plain t result := hy
    rcases finish_or_fault ctx s result with ⟨code, hcode, hp⟩ | ⟨e, he, hfault⟩
    · rcases finish_or_fault ctx.plain t result with ⟨code', hcode', hq⟩ | ⟨e, he, hfault⟩
      · refine .inr (.inr ⟨_, _, hx'.trans hp, hy'.trans hq, ?_, fun im im' hc him him' n => ?_⟩)
        · rw [ht.books]
          rfl
        · exact hstep im im' hc (him ▸ hcode) (him' ▸ hcode') n
      · exact .inr (.inl ⟨e, .inr (hy'.trans he), hfault⟩)
    · exact .inr (.inl ⟨e, .inl (hx'.trans he), hfault⟩)

end Lowering

open Lowering

/-- What is settled before the walk, which does not depend on the options. -/
def Function.outset (f : Function) : Except BuildError (List TypedSlot × List TypedSlot × Usage × Demand × Pool) := do
  let demand ← (Demand.analyze f).mapError .missing
  let (params, pool) ← fixedSlots f.body .parameter 0 f.params Pool.empty
  let (vars, pool) ← fixedSlots f.body .localVariable 0 f.locals pool
  let u ← bodyUsage f
  return (params, vars, u, demand, pool)

theorem compile_eq_bind (f : Function) (env : Environment) (options : CompileOptions) :
    compile f env options = f.outset >>= fun (params, vars, u, demand, pool) =>
      lowerBody ⟨f, env, options, params, vars⟩ u (.start ⟨f, env, options, params, vars⟩ demand pool) >>= fun r =>
        finish ⟨f, env, options, params, vars⟩ r.2 r.1 := by
  unfold compile Function.outset
  simp only [bind_assoc, pure_bind]
  rfl

/-- Programs that differ in their code alone, and are in step from the start. -/
theorem Image.load_callsAlike {p q : Program} {env : Environment} (hsame : q = { p with code := q.code }) (hp : p.Sealed)
    (hq : q.Sealed) (h : ∀ im im' : Image, im.Counterparts im' → im.program = p → im'.program = q → ∀ n, im.InStep im' n 0 0)
    (w : World) : (load q env w).2 = (load p env w).2 ∧ ∀ args m, (load p env w).1.CallsAlike (load q env w).1 args m := by
  have htexts : q.texts = p.texts := by rw [hsame]
  have hsites : q.sites = p.sites := by rw [hsame]
  have hparams : q.params = p.params := by rw [hsame]
  have hresult : q.result = p.result := by rw [hsame]
  rw [load_eq, load_eq, htexts]
  refine ⟨rfl, fun args m => InStep.callsAlike (fun n => ?_) hparams hresult args m⟩
  exact h ⟨p, env, _⟩ ⟨q, env, _⟩ ⟨rfl, rfl, hsites, hp, hq⟩ rfl rfl n

/-- With adopted tails and without, lowering fails with the same error, or returns programs with the same slot counts, texts,
    call sites and bindings that end alike on every call. -/
theorem compile_adopts_tails (f : Function) (env : Environment) (options : CompileOptions) (hf : f.WellTyped) :
    (∃ e, compile f env options = .error e ∧ compile f env options.plain = .error e) ∨
    ∃ p q, compile f env options = .ok p ∧ compile f env options.plain = .ok q ∧ q = { p with code := q.code } ∧
      ∀ w, (Image.load q env w).2 = (Image.load p env w).2 ∧
        ∀ args m, (Image.load p env w).1.CallsAlike (Image.load q env w).1 args m := by
  have hleft := compile_eq_bind f env options
  have hright := compile_eq_bind f env options.plain
  cases houtset : f.outset with
  | error e =>
    rw [houtset] at hleft hright
    exact .inl ⟨e, hleft, hright⟩
  | ok r =>
    obtain ⟨params, vars, u, demand, pool⟩ := r
    rw [houtset] at hleft hright
    rcases lowered_twins ⟨f, env, options, params, vars⟩ hf u demand pool hleft hright with
      hfailed | ⟨e, he, hfault⟩ | ⟨p, q, hp, hq, hsame, hstep⟩
    · exact .inl hfailed
    · have hnone : e.isJumpFault = false := he.elim compile_error compile_error
      rw [hnone] at hfault
      cases hfault
    · exact .inr ⟨p, q, hp, hq, hsame, Image.load_callsAlike hsame (compile_ok_sealed hp) (compile_ok_sealed hq) hstep⟩

/-- Counts its parameter down: leaves a loop under a compound condition, and continues it from an else arm. -/
def drain : Function where
  params := [.int]
  locals := [.int]
  nodes := #[⟨.param 0, .int⟩, ⟨.setVar 0 0, .void⟩, ⟨.nullary .void, .void⟩, ⟨.getVar 0, .int⟩,
    ⟨.const (.int 1), .int⟩, ⟨.binary (.test .lt) 3 4, .boolean⟩, ⟨.getVar 0, .int⟩, ⟨.const (.int 100), .int⟩,
    ⟨.binary (.test .gt) 6 7, .boolean⟩, ⟨.binary .or 5 8, .boolean⟩, ⟨.exitLoop 0, .unreachable⟩,
    ⟨.nullary .void, .void⟩, ⟨.conditional 9 10 11, .void⟩,
    ⟨.getVar 0, .int⟩, ⟨.const (.int 1), .int⟩, ⟨.binary (.arith .int .sub) 13 14, .int⟩, ⟨.setVar 0 15, .void⟩,
    ⟨.getVar 0, .int⟩, ⟨.const (.int 5), .int⟩, ⟨.binary (.test .lt) 17 18, .boolean⟩, ⟨.continueLoop 0, .unreachable⟩,
    ⟨.nullary .void, .void⟩, ⟨.conditional 19 21 20, .void⟩, ⟨.sequence 16 22, .void⟩, ⟨.sequence 12 23, .void⟩,
    ⟨.loop 0 2 24, .void⟩, ⟨.getVar 0, .int⟩, ⟨.sequence 25 26, .int⟩, ⟨.sequence 1 27, .int⟩]
  body := 28
  returnType := .int

theorem drain_ends_alike : drain.WellTyped ∧ ∃ p q, compile drain {} {} = .ok p ∧
    compile drain {} (CompileOptions.plain {}) = .ok q ∧ p.code.size = 15 ∧ q.code.size = 17 ∧
      ∀ args m, (Image.load p {} {}).1.CallsAlike (Image.load q {} {}).1 args m := by
  have hf : drain.WellTyped := by decide +kernel
  have hsize : (compile drain {} {}).map (·.code.size) = .ok 15 := by decide +kernel
  have hsize' : (compile drain {} (CompileOptions.plain {})).map (·.code.size) = .ok 17 := by decide +kernel
  rcases compile_adopts_tails drain {} {} hf with ⟨e, he, -⟩ | ⟨p, q, hp, hq, -, hcalls⟩
  · rw [he] at hsize
    cases hsize
  · rw [hp] at hsize
    rw [hq] at hsize'
    exact ⟨hf, p, q, hp, hq, Except.ok.inj hsize, Except.ok.inj hsize', (hcalls {}).2⟩

end SlotCode
