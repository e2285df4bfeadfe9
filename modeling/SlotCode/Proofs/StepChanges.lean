/-
  SlotCode.Proofs.StepChanges — what one step can change.

  A step works on the machine in place, and what it has written before a check fails stays
  written. But every instruction makes its checks before it writes (`Image.step_eq`), so a
  step that fails has done nothing, except where the failing check comes after a native has
  run: the native may have failed, or its value may not fit the register that waits for it.
  What the native did to the world until then stays, and the machine stands where it stood.
  A step that succeeds writes at most the register that its instruction names, and moves on
  by one address unless it jumps or stops.

  Proved: what an effect that fails leaves behind (`Image.commit_failed`), and for every
  machine that has the registers of its next instruction `Image.step_changes_little`.
-/

import SlotCode.Proofs.FixedRegisters
import SlotCode.Proofs.StepLimit

namespace SlotCode

/-- The machine has the registers that its next instruction reads and writes. -/
def Machine.CoversNext (m : Machine) (p : Program) : Prop :=
  ∀ i, p.code[m.pc]? = some i → ∀ x, x ∈ p.reads i ∨ p.writes i = some x → m.registers.has x = true

/-- The step called a native that left the world `w` and did not succeed: it failed, or gave a value of another kind
    than the register of the result. -/
def Image.NativeLeft (im : Image) (m : Machine) (e : RuntimeError) (w : World) : Prop :=
  ∃ site c f args, im.program.code[m.pc]? = some (.call site) ∧ im.Calls m site c f args ∧
    ((∃ message, im.env.invoke c.function f args m.world = (.error (.failed message), w) ∧
        e = .native f.qualifiedName m.pc (.failed message)) ∨
      (∃ what, im.env.invoke c.function f args m.world = (.error (.missing what), w) ∧ e = .missing what) ∨
      ∃ v x, im.env.invoke c.function f args m.world = (.ok v, w) ∧ c.result = some x ∧ v.kind ≠ x.kind ∧
        e = .native f.qualifiedName m.pc (.wrongKind x.kind))

/-! ## One step -/

section

variable {im : Image} {m : Machine} {i : Instruction}

/-- A write that fails changes nothing: the value is of another kind than the register, or there is no such register. -/
theorem Machine.write_failed {x : TypedSlot} {v : Value} {refused e : RuntimeError} {m' : Machine}
    (h : m.write x v refused = .failed e m') :
    m' = m ∧ ((v.kind ≠ x.kind ∧ e = refused) ∨ (m.registers.has x = false ∧ e = .missing (.register x))) := by
  unfold Machine.write Registers.set at h
  by_cases hkind : v.kind = x.kind
  · cases hhas : m.registers.has x with
    | true => simp [hkind, hhas] at h
    | false =>
      simp only [hkind, hhas, ne_eq, not_true, if_false, Bool.false_eq_true] at h
      cases h
      exact ⟨rfl, .inr ⟨rfl, rfl⟩⟩
  · simp only [hkind, ne_eq, not_false_eq_true, if_true] at h
    cases h
    exact ⟨rfl, .inl ⟨hkind, rfl⟩⟩

theorem Machine.write_ok {x : TypedSlot} {v : Value} {refused : RuntimeError} {m' : Machine}
    (h : m.write x v refused = .ok m') : ∃ r, m' = { m with registers := r, pc := m.pc + 1 } := by
  unfold Machine.write at h
  split at h
  · cases h
    exact ⟨_, rfl⟩
  · cases h
  · cases h

/-- An effect that fails leaves the machine, apart from what a native did to the world. -/
theorem Image.commit_failed {eff : Effect} {e : RuntimeError} {m' : Machine}
    (hi : im.program.code[m.pc]? = some i) (hsuits : eff.Suits im m i)
    (hx : ∀ x, eff.target? = some x → m.registers.has x = true)
    (h : im.commit m eff = .failed e m') : ∃ w, m' = { m with world := w } ∧ (w = m.world ∨ im.NativeLeft m e w) := by
  cases eff with
  | next | store | jump | halt => cases h
  | write x v =>
    obtain ⟨rfl, -⟩ := Machine.write_failed h
    exact ⟨_, rfl, .inl rfl⟩
  | invoke id f args result =>
    obtain ⟨site, c, rfl, hcalls, rfl, rfl⟩ := hsuits
    simp only [Image.commit] at h
    rcases hinvoke : im.env.invoke c.function f args m.world with ⟨(message | what) | v, w⟩
    · rw [hinvoke] at h
      cases h
      exact ⟨w, rfl, .inr ⟨site, c, f, args, hi, hcalls, .inl ⟨message, hinvoke, rfl⟩⟩⟩
    · rw [hinvoke] at h
      cases h
      exact ⟨w, rfl, .inr ⟨site, c, f, args, hi, hcalls, .inr (.inl ⟨what, hinvoke, rfl⟩)⟩⟩
    · rw [hinvoke] at h
      cases hresult : c.result with
      | none =>
        rw [hresult] at h
        cases h
      | some x =>
        rw [hresult] at h
        obtain ⟨rfl, ⟨hkind, he⟩ | ⟨hhas, -⟩⟩ := Machine.write_failed h
        · exact ⟨w, rfl, .inr ⟨site, c, f, args, hi, hcalls, .inr (.inr ⟨v, x, hinvoke, hresult, hkind, he⟩)⟩⟩
        · cases (hx x hresult).symm.trans hhas

/-- An effect that succeeds moves on by one address unless it jumps or halts. -/
theorem Image.commit_moves {eff : Effect} {m' : Machine} (hsuits : eff.Suits im m i) (h : im.commit m eff = .ok m') :
    (i = .stop → m' = { m with stopped := true }) ∧
      (i ≠ .stop → m'.stopped = m.stopped ∧ m'.pc = (m.taken? i).getD (m.pc + 1)) := by
  have next : i ≠ .stop ∧ m.taken? i = none → m'.stopped = m.stopped ∧ m'.pc = m.pc + 1 →
      (i = .stop → m' = { m with stopped := true }) ∧
        (i ≠ .stop → m'.stopped = m.stopped ∧ m'.pc = (m.taken? i).getD (m.pc + 1)) := by
    rintro ⟨hi, htaken⟩ hmoved
    rw [htaken]
    exact ⟨fun hstop => absurd hstop hi, fun _ => hmoved⟩
  cases eff with
  | next =>
    cases h
    exact next hsuits.1 ⟨rfl, rfl⟩
  | write x v =>
    obtain ⟨r, rfl⟩ := Machine.write_ok h
    exact next hsuits.1 ⟨rfl, rfl⟩
  | store r o =>
    obtain ⟨kind, array, index, value, rfl⟩ := hsuits
    cases h
    exact next (Machine.taken?_of_straight rfl) ⟨rfl, rfl⟩
  | invoke id f args result =>
    obtain ⟨site, c, rfl, -, -, -⟩ := hsuits
    refine next (Machine.taken?_of_straight rfl) ?_
    simp only [Image.commit] at h
    generalize im.env.invoke id f args m.world = answer at h
    rcases answer with ⟨(_ | _) | v, w⟩
    · cases h
    · cases h
    · cases result with
      | none =>
        cases h
        exact ⟨rfl, rfl⟩
      | some x =>
        obtain ⟨r, rfl⟩ := Machine.write_ok h
        exact ⟨rfl, rfl⟩
  | jump target =>
    have htaken : m.taken? i = some target := hsuits
    cases h
    refine ⟨fun hstop => ?_, fun _ => ⟨rfl, by rw [htaken]; rfl⟩⟩
    rw [hstop] at htaken
    cases htaken
  | halt =>
    cases h
    exact ⟨fun _ => rfl, fun hi => absurd hsuits hi⟩

/-- Only an array or a native changes the world. -/
theorem Image.commit_world {eff : Effect} {m' : Machine} (hsuits : eff.Suits im m i) (h : im.commit m eff = .ok m') :
    m'.world = m.world ∨ (∃ kind array index value, i = .arraySet kind array index value) ∨ ∃ site, i = .call site := by
  cases eff with
  | next | jump | halt =>
    cases h
    exact .inl rfl
  | write x v =>
    obtain ⟨r, rfl⟩ := Machine.write_ok h
    exact .inl rfl
  | store r o => exact .inr (.inl hsuits)
  | invoke id f args result =>
    obtain ⟨site, -, hcall, -⟩ := hsuits
    exact .inr (.inr ⟨site, hcall⟩)

/-- What a step that fails leaves behind. -/
theorem Image.step_failed {e : RuntimeError} {m' : Machine} (hm : m.CoversNext im.program) (h : im.step m = .failed e m') :
    ∃ w, m' = { m with world := w } ∧ (w = m.world ∨ im.NativeLeft m e w) := by
  rw [Image.step_eq] at h
  cases hi : im.program.code[m.pc]? with
  | none =>
    simp only [hi] at h
    cases h
    exact ⟨_, rfl, .inl rfl⟩
  | some i =>
    have hsuits := answers_suits im m i
    simp only [hi] at h
    cases he : im.effect m i with
    | error err =>
      rw [he] at h
      cases h
      exact ⟨_, rfl, .inl rfl⟩
    | ok eff =>
      rw [he] at h hsuits
      exact Image.commit_failed hi hsuits (fun x hx => hm i hi x (.inr (hsuits.target?_eq.symm.trans hx))) h

/-- A step that succeeds lets the effect of its instruction happen. -/
theorem Image.step_ok {m' : Machine} (h : im.step m = .ok m') :
    ∃ i eff, im.program.code[m.pc]? = some i ∧ im.effect m i = .ok eff ∧ im.commit m eff = .ok m' := by
  rw [Image.step_eq] at h
  split at h
  · cases h
  · rename_i i hi
    split at h
    · rename_i eff he
      exact ⟨i, eff, hi, he, h⟩
    · cases h

/-- A machine that has not stopped dispatches the instruction at its program counter first. -/
theorem Image.head?_dispatches (im : Image) (m : Machine) (h : m.stopped = false) {n : Nat} (hn : 0 < n) :
    (im.dispatches n m).head? = some m := by
  obtain ⟨k, rfl⟩ : ∃ k, n = k + 1 := ⟨n - 1, by omega⟩
  simp [Image.dispatches, h]

/-- A step that fails leaves every register, the program counter and the flag as they were, and the world too unless a
    native ran before the failure; so a later `resume` begins with the same instruction. A step that succeeds changes no
    register but the destination of its instruction, goes on to the next address unless it takes a jump, and only sets the
    flag if the instruction is `stop`. -/
theorem Image.step_changes_little (im : Image) (m : Machine) (hm : m.CoversNext im.program) :
    (∀ e m', im.step m = .failed e m' →
      m'.registers = m.registers ∧ m'.pc = m.pc ∧ m'.stopped = m.stopped ∧
        (m'.world = m.world ∨ im.NativeLeft m e m'.world) ∧
        ∀ (options : ExecutionOptions) fuel, m.stopped = false → 0 < options.maxSteps.getD fuel →
          (im.dispatches (options.maxSteps.getD fuel) m').head?.map (fun s => im.program.code[s.pc]?) =
            some im.program.code[m.pc]?) ∧
    ∀ m', im.step m = .ok m' → ∃ i, im.program.code[m.pc]? = some i ∧
      (∀ x, m'.registers.has x = m.registers.has x) ∧
      (∀ x, im.program.writes i ≠ some x → m'.registers.get? x = m.registers.get? x) ∧
      (i = .stop → m' = { m with stopped := true }) ∧
      (i ≠ .stop → m'.stopped = m.stopped ∧ m'.pc = (m.taken? i).getD (m.pc + 1)) ∧
      (m'.world = m.world ∨ (∃ kind array index value, i = .arraySet kind array index value) ∨ ∃ site, i = .call site) := by
  refine ⟨fun e m' h => ?_, fun m' h => ?_⟩
  · obtain ⟨w, rfl, hw⟩ := Image.step_failed hm h
    refine ⟨rfl, rfl, rfl, hw, fun options fuel hgoing hpos => ?_⟩
    rw [im.head?_dispatches { m with world := w } hgoing hpos]
    rfl
  · obtain ⟨i, eff, hi, he, hcommit⟩ := Image.step_ok h
    have hsuits := answers_suits im m i
    rw [he] at hsuits
    obtain ⟨hstop, hmoves⟩ := Image.commit_moves hsuits hcommit
    refine ⟨i, hi, fun x => ?_, fun x hx => ?_, hstop, hmoves, Image.commit_world hsuits hcommit⟩
    · have hhas := im.has_step (x := x) m
      rwa [h] at hhas
    · have hget := im.get?_commit m (e := eff) (x := x) fun hwrite => hx (hsuits.target?_eq.symm.trans hwrite)
      rwa [hcommit] at hget

end

/-- Calls a native that publishes its argument as a static field and then gives a long where an int is awaited. -/
def publisher : Image where
  program := { code := #[.call 0, .stop], counts := ⟨2, 0, 0, 0, 0⟩, sites := #[⟨0, none, [⟨.int, 0⟩], some ⟨.int, 1⟩⟩] }
  env :=
    { functions := #[⟨"Board", "publish", .static, [.int], .int,
        fun _ _ args w => (.ok (.long 0), { w with statics := args.toArray })⟩] }
  texts := #[]

theorem publisher_changes_little : (Machine.start publisher {}).CoversNext publisher.program ∧ ∃ e m',
    publisher.step (.start publisher {}) = .failed e m' ∧ m'.registers = .new ⟨2, 0, 0, 0, 0⟩ ∧ m'.pc = 0 ∧
      m'.stopped = false ∧ m'.world.statics = #[.int 0] ∧ publisher.NativeLeft (.start publisher {}) e m'.world ∧
      ((publisher.dispatches 1 m').head?.map fun s => publisher.program.code[s.pc]?) = some (some (.call 0)) := by
  have hcovers : (Machine.start publisher {}).CoversNext publisher.program := by
    intro i hi x hx
    cases hi
    have hx : x ∈ [TypedSlot.mk .int 0] ∨ some (TypedSlot.mk .int 1) = some x := hx
    rcases hx with hx | hx
    · cases List.mem_singleton.1 hx
      rfl
    · cases hx
      rfl
  obtain ⟨e, m', hstep, hstatics⟩ : ∃ e m', publisher.step (.start publisher {}) = .failed e m' ∧
      m'.world.statics = #[.int 0] := ⟨_, _, rfl, rfl⟩
  obtain ⟨hregisters, hpc, hstopped, hworld, hagain⟩ := (publisher.step_changes_little _ hcovers).1 e m' hstep
  refine ⟨hcovers, e, m', hstep, hregisters, hpc, hstopped, hstatics, hworld.resolve_left fun hsame => ?_,
    hagain {} 1 rfl (by decide)⟩
  rw [hsame] at hstatics
  cases hstatics

end SlotCode
