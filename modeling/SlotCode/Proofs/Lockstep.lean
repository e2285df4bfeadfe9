/-
  SlotCode.Proofs.Lockstep — two programs that do the same, one with more jumps than the other.

  The first program runs from one address and the second from another, on the same
  registers in the same world. `InStep n` says that the second keeps up with the first for
  `n` steps: while the first runs so does the second, having taken at least as many steps,
  and when the first ends so does the second, with the same registers and the same world, and for
  the same reason up to the addresses in it. What is in step for every number of steps
  ends alike or not at all.

  Proved: an instruction that both programs have keeps them in step, and so do a jump of
  both, a condition whose two ways are in step, and a jump of the second alone. In all
  but the last the programs need only be in step for fewer steps afterwards, so that what
  goes round in a loop is settled by induction.
-/

import SlotCode.Proofs.MachineSteps
import SlotCode.Proofs.SealedCode

namespace SlotCode

/-! ## Alike up to addresses -/

/-- The error without the addresses in it. -/
def RuntimeError.placeless : RuntimeError → RuntimeError
  | .divisionByZero _ => .divisionByZero 0
  | .indexOutOfBounds index length _ => .indexOutOfBounds index length 0
  | .nullPointer _ => .nullPointer 0
  | .classCast className _ => .classCast className 0
  | .unreachable _ => .unreachable 0
  | .invalidJump _ _ => .invalidJump 0 0
  | .invalidInstruction _ => .invalidInstruction 0
  | .invalidArguments cause => .invalidArguments cause
  | .native function _ cause => .native function 0 cause
  | .missing what => .missing what

/-- The machines differ at most in where they are. -/
structure Machine.Alike (m m' : Machine) : Prop where
  registers : m'.registers = m.registers
  stopped : m'.stopped = m.stopped
  world : m'.world = m.world

/-- Both checks pass with the same result, or both fail for the same reason. -/
def SameCheck {α : Type} (x y : Except RuntimeError α) : Prop := x.mapError (·.placeless) = y.mapError (·.placeless)

namespace SameCheck

variable {α β : Type}

theorem refl (x : Except RuntimeError α) : SameCheck x x := rfl

theorem cases {x y : Except RuntimeError α} (h : SameCheck x y) :
    (∃ a, x = .ok a ∧ y = .ok a) ∨ ∃ e e', x = .error e ∧ y = .error e' ∧ e.placeless = e'.placeless := by
  cases x with
  | ok a =>
    cases y with
    | ok b =>
      cases h
      exact .inl ⟨a, rfl, rfl⟩
    | error e => cases h
  | error e =>
    cases y with
    | ok b => cases h
    | error e' => exact .inr ⟨e, e', rfl, rfl, Except.error.inj h⟩

theorem bind {x y : Except RuntimeError α} {f g : α → Except RuntimeError β} (h : SameCheck x y)
    (hf : ∀ a, SameCheck (f a) (g a)) : SameCheck (x >>= f) (y >>= g) := by
  rcases h.cases with ⟨a, rfl, rfl⟩ | ⟨e, e', rfl, rfl, he⟩
  · exact hf a
  · exact congrArg Except.error he

theorem nonNull (pc pc' : Nat) (r : Option Ref) : SameCheck (nonNull pc r) (nonNull pc' r) := by
  cases r <;> rfl

theorem elements (pc pc' : Nat) (o : Object) : SameCheck (o.elements pc) (o.elements pc') := by
  cases o <;> rfl

theorem elementIndex (pc pc' : Nat) (index : Int32) (length : Nat) :
    SameCheck (elementIndex pc index length) (elementIndex pc' index length) := by
  unfold SlotCode.elementIndex
  split <;> rfl

theorem expectSome (pc pc' : Nat) (a : Option α) : SameCheck (expectSome pc a) (expectSome pc' a) := by
  cases a <;> rfl

end SameCheck

/-! ## One instruction in both programs -/

/-- The images of two programs that differ in their code alone. -/
structure Image.Counterparts (im im' : Image) : Prop where
  env : im'.env = im.env
  texts : im'.texts = im.texts
  sites : im'.program.sites = im.program.sites
  sealed : im.program.Sealed
  sealed' : im'.program.Sealed

namespace Image.Counterparts

variable {im im' : Image} {m m' : Machine} {ins : Instruction}

/-- The checks of an instruction do not depend on where it stands. -/
theorem sameCheck_effect (h : im.Counterparts im') (pc : Nat) (hs : ins.isStraight = true) :
    SameCheck (im.effect m ins) (im'.effect { m with pc } ins) := by
  obtain ⟨program, env, texts⟩ := im'
  obtain ⟨henv, htexts, hsites, -, -⟩ := h
  dsimp only at henv htexts hsites
  subst henv htexts
  cases ins with
  | goto | jumpIf | nop | stop => cases hs
  | const | null | move | unreachable | not | test | getStatic | instanceOf => rfl
  | text r index => exact .bind (.expectSome _ _ _) fun _ => rfl
  | arith w op r a b =>
    cases w with
    | int =>
      refine .bind (.refl _) fun x => .bind (.refl _) fun y => ?_
      cases op.onInt x y <;> rfl
    | long =>
      have hdivided : ∀ distance, SameCheck (m.onLong op r a distance) ({ m with pc }.onLong op r a distance) := by
        refine fun distance => .bind (.refl _) fun x => ?_
        cases op.onLong x distance <;> rfl
      unfold effect
      dsimp only
      split
      · exact .bind (.refl _) hdivided
      · exact .bind (.refl _) hdivided
  | real p op r a b => cases p <;> rfl
  | neg kind r a => cases kind <;> rfl
  | inv kind r a => cases kind <;> rfl
  | convert c r a => exact .bind (.refl _) fun _ => .bind (.expectSome _ _ _) fun _ => rfl
  | order kind r a b => cases kind <;> rfl
  | same op r a b =>
    refine .bind (.refl _) fun _ => .bind (.refl _) fun _ => ?_
    cases op <;> rfl
  | arrayLength r a =>
    exact .bind (.refl _) fun _ => .bind (.nonNull _ _ _) fun _ => .bind (.elements _ _ _) fun _ => rfl
  | nullCheck r a => exact .bind (.refl _) fun _ => .bind (.nonNull _ _ _) fun _ => rfl
  | arrayGet kind r array index =>
    refine .bind (.refl _) fun _ => .bind (.nonNull _ _ _) fun _ => .bind (.refl _) fun _ => ?_
    exact .bind (.elements _ _ _) fun _ => .bind (.elementIndex _ _ _ _) fun _ => .bind (.expectSome _ _ _) fun _ => rfl
  | arraySet kind array index value =>
    refine .bind (.refl _) fun _ => .bind (.nonNull _ _ _) fun _ => .bind (.refl _) fun _ => .bind (.refl _) fun _ => ?_
    exact .bind (.elements _ _ _) fun _ => .bind (.elementIndex _ _ _ _) fun _ => .bind (.expectSome _ _ _) fun _ => rfl
  | getField kind r object field =>
    refine .bind (.refl _) fun _ => .bind (.nonNull _ _ _) fun object => ?_
    dsimp only
    cases m.world.heap.get object with
    | record => exact .bind (.expectSome _ _ _) fun _ => rfl
    | _ => rfl
  | cast r a target =>
    refine .bind (.refl _) fun object => ?_
    cases object with
    | none => rfl
    | some object =>
      refine .bind (.refl _) fun fits => ?_
      cases fits
      · exact .bind (.refl _) fun _ => rfl
      · rfl
  | lowerBound index =>
    refine .bind (.refl _) fun i => ?_
    dsimp only
    split <;> rfl
  | upperBound index array =>
    refine .bind (.refl _) fun _ => .bind (.nonNull _ _ _) fun _ => .bind (.elements _ _ _) fun _ => .bind (.refl _) fun _ => ?_
    dsimp only
    split <;> rfl
  | call site =>
    unfold effect
    dsimp only
    rw [hsites]
    refine .bind (.expectSome _ _ _) fun s => .bind (.refl _) fun f => ?_
    cases s.receiver with
    | none => rfl
    | some slot => exact .bind (.refl _) fun _ => .bind (.nonNull _ _ _) fun _ => rfl

/-- What a step of each program makes of the same registers and world. -/
def SameStep (m : Machine) (pc pc' : Nat) (r r' : StepResult) : Prop :=
  (∃ registers world, r = .ok { m with registers, world, pc := pc + 1 } ∧ r' = .ok { m with registers, world, pc := pc' + 1 }) ∨
    ∃ e e' world, r = .failed e { m with world, pc } ∧ r' = .failed e' { m with world, pc := pc' } ∧ e.placeless = e'.placeless

theorem sameStep_write (m : Machine) (pc pc' : Nat) (x : TypedSlot) (v : Value) {e e' : RuntimeError}
    (he : e.placeless = e'.placeless) :
    SameStep m pc pc' (Machine.write { m with pc } x v e) (Machine.write { m with pc := pc' } x v e') := by
  unfold Machine.write
  dsimp only
  rcases m.registers.set x v with what | registers | registers
  · exact .inr ⟨_, _, m.world, rfl, rfl, rfl⟩
  · exact .inr ⟨e, e', m.world, rfl, rfl, he⟩
  · exact .inl ⟨registers, m.world, rfl, rfl⟩

theorem sameStep_commit (h : im.Counterparts im') (m : Machine) (pc pc' : Nat) {e : Effect} (hs : e.isStraight = true) :
    SameStep m pc pc' (im.commit { m with pc } e) (im'.commit { m with pc := pc' } e) := by
  cases e with
  | jump | halt => cases hs
  | next => exact .inl ⟨m.registers, m.world, rfl, rfl⟩
  | store r o => exact .inl ⟨m.registers, m.world.store r o, rfl, rfl⟩
  | write x v => exact sameStep_write m pc pc' x v rfl
  | invoke id f args result =>
    simp only [commit, h.env]
    rcases im.env.invoke id f args m.world with ⟨(what | message) | v, world⟩
    · exact .inr ⟨_, _, world, rfl, rfl, rfl⟩
    · exact .inr ⟨_, _, world, rfl, rfl, rfl⟩
    · cases result with
      | none => exact .inl ⟨m.registers, world, rfl, rfl⟩
      | some x =>
        have hplace : (RuntimeError.native f.qualifiedName pc (.wrongKind x.kind)).placeless =
            (RuntimeError.native f.qualifiedName pc' (.wrongKind x.kind)).placeless := rfl
        rcases sameStep_write { m with world } pc pc' x v hplace with hok | hfailed
        · exact .inl hok
        · exact .inr hfailed

/-- An instruction that stands in both programs does the same in both. -/
theorem sameStep_step (h : im.Counterparts im') (m : Machine) {pc pc' : Nat} (hi : im.program.code[pc]? = some ins)
    (hi' : im'.program.code[pc']? = some ins) (hs : ins.isStraight = true) :
    SameStep m pc pc' (im.step { m with pc }) (im'.step { m with pc := pc' }) := by
  have hsuits := answers_straight im { m with pc } hs
  rw [step_eq, step_eq]
  simp only [hi, hi']
  rcases (h.sameCheck_effect (m := { m with pc }) pc' hs).cases with ⟨e, he, he'⟩ | ⟨e, e', he, he', hsame⟩
  · rw [he] at hsuits
    rw [he, he']
    exact h.sameStep_commit m pc pc' (hsuits.isStraight hs)
  · rw [he, he']
    exact .inr ⟨e, e', m.world, rfl, rfl, hsame⟩

end Image.Counterparts

/-! ## Keeping up -/

/-- The runs ended in the same way. -/
def Ending.Alike : Ending → Ending → Prop
  | .stopped, .stopped => True
  | .failed e, .failed e' => e.placeless = e'.placeless
  | _, _ => False

/-- What the first program has come to after `k` steps from `m`, the second comes to from `m'`. -/
structure Image.Tracks (im im' : Image) (k : Nat) (m m' : Machine) : Prop where
  running : (im.advance k m).1 = .running → ∃ j, k ≤ j ∧ (im'.advance j m').1 = .running
  ended : (im.advance k m).1 ≠ .running → ∃ j, (im.advance k m).1.Alike (im'.advance j m').1 ∧
    (im.advance k m).2.Alike (im'.advance j m').2

namespace Image.Tracks

variable {im im' : Image} {k : Nat} {m m₁ m' m₁' : Machine}

theorem zero (h : m.stopped = false) (h' : m'.stopped = false) : im.Tracks im' 0 m m' := by
  have hrun : (im.advance 0 m).1 = .running := by simp [advance, h]
  refine ⟨fun _ => ⟨0, Nat.le_refl 0, by simp [advance, h']⟩, fun hend => absurd hrun hend⟩

theorem advance_ok (h : m.stopped = false) (hstep : im.step m = .ok m₁) (n : Nat) : im.advance (n + 1) m = im.advance n m₁ := by
  rw [advance]
  simp [h, hstep]

theorem advance_stopped (h : m.stopped = true) (n : Nat) : im.advance n m = (.stopped, m) := by
  cases n <;> simp [advance, h]

/-- A step of both. -/
theorem step (h : m.stopped = false) (h' : m'.stopped = false) (hstep : im.step m = .ok m₁) (hstep' : im'.step m' = .ok m₁')
    (hk : im.Tracks im' k m₁ m₁') : im.Tracks im' (k + 1) m m' := by
  refine ⟨fun hrun => ?_, fun hend => ?_⟩
  · rw [advance_ok h hstep] at hrun
    obtain ⟨j, hj, hrun'⟩ := hk.running hrun
    exact ⟨j + 1, by omega, by rwa [advance_ok h' hstep']⟩
  · rw [advance_ok h hstep] at hend ⊢
    obtain ⟨j, hj⟩ := hk.ended hend
    exact ⟨j + 1, by rwa [advance_ok h' hstep']⟩

/-- A step of the second alone. -/
theorem lag (h' : m'.stopped = false) (hstep' : im'.step m' = .ok m₁') (hk : im.Tracks im' k m m₁') : im.Tracks im' k m m' := by
  refine ⟨fun hrun => ?_, fun hend => ?_⟩
  · obtain ⟨j, hj, hrun'⟩ := hk.running hrun
    exact ⟨j + 1, by omega, by rwa [advance_ok h' hstep']⟩
  · obtain ⟨j, hj⟩ := hk.ended hend
    exact ⟨j + 1, by rwa [advance_ok h' hstep']⟩

theorem failed {e e' : RuntimeError} (h : m.stopped = false) (h' : m'.stopped = false) (hstep : im.step m = .failed e m₁)
    (hstep' : im'.step m' = .failed e' m₁') (he : e.placeless = e'.placeless) (hm : m₁.Alike m₁') :
    im.Tracks im' (k + 1) m m' := by
  have hrun : im.advance (k + 1) m = (.failed e, m₁) := by
    rw [advance]
    simp [h, hstep]
  have hrun' : im'.advance 1 m' = (.failed e', m₁') := by
    rw [advance]
    simp [h', hstep']
  refine ⟨fun hrunning => ?_, fun _ => ⟨1, ?_⟩⟩
  · rw [hrun] at hrunning
    cases hrunning
  · rw [hrun, hrun']
    exact ⟨he, hm⟩

theorem stopped (h : m.stopped = true) (hm : m.Alike m') : im.Tracks im' k m m' := by
  have h' : m'.stopped = true := hm.stopped.trans h
  refine ⟨fun hrunning => ?_, fun _ => ⟨0, ?_⟩⟩
  · rw [advance_stopped h] at hrunning
    cases hrunning
  · rw [advance_stopped h, advance_stopped h']
    exact ⟨trivial, hm⟩

end Image.Tracks

theorem Program.Sealed.target_lt {p : Program} (h : p.Sealed) {i a : Nat} {ins : Instruction} (hi : p.code[i]? = some ins)
    (ha : ins.target? = some (.address a)) : a < p.code.size := by
  obtain ⟨b, hb, hlt⟩ := h.targets i ins _ hi ha
  cases hb
  exact hlt

/-- At `x` is a jump on the number in `cond`: control goes to `no` if it is zero and to `yes` otherwise. -/
def Image.Forks (im : Image) (x : Nat) (cond : Slot) (yes no : Nat) : Prop :=
  ∃ polarity a, im.program.code[x]? = some (.jumpIf polarity cond (.address a)) ∧
    if polarity then yes = a ∧ no = x + 1 else no = a ∧ yes = x + 1

theorem Image.Forks.step {im : Image} {x yes no : Nat} {cond : Slot} (h : im.Forks x cond yes no) (hs : im.program.Sealed)
    (m : Machine) : im.step { m with pc := x } = match m.registers.int cond with
      | .ok i => .ok { m with pc := if i != 0 then yes else no }
      | .error what => .failed (.missing what) { m with pc := x } := by
  obtain ⟨polarity, a, hat, hends⟩ := h
  have ha := hs.target_lt hat rfl
  cases hi : m.registers.int cond with
  | error what =>
    simp only [Image.step_eq, hat, effect, hi]
    rfl
  | ok i =>
    simp only [Image.step_eq, hat, effect, hi, Fault.lift_ok, pure_bind, Program.jumpTo, Label.index, ha, if_true]
    cases polarity
    · obtain ⟨rfl, rfl⟩ := hends
      cases i != 0 <;> rfl
    · obtain ⟨rfl, rfl⟩ := hends
      cases i != 0 <;> rfl

/-- From `x` in the first program and `y` in the second, the second keeps up for `n` steps. -/
def Image.InStep (im im' : Image) (n x y : Nat) : Prop :=
  ∀ (m : Machine) (k : Nat), m.stopped = false → k ≤ n → im.Tracks im' k { m with pc := x } { m with pc := y }

/-- In step for fewer steps than `n`. -/
def Image.InStepBelow (im im' : Image) (n x y : Nat) : Prop := ∀ k < n, im.InStep im' k x y

namespace Image.InStep

variable {im im' : Image} {n k x y : Nat}

theorem mono (h : im.InStep im' n x y) (hk : k ≤ n) : im.InStep im' k x y := fun m j hm hj => h m j hm (by omega)

theorem below (h : im.InStep im' n x y) : im.InStepBelow im' n x y := fun _ hk => h.mono (by omega)

/-- It is enough that the first steps lead to where the programs are in step for fewer. -/
theorem of_steps (h : ∀ (m : Machine) (k : Nat), m.stopped = false → k < n →
    im.Tracks im' (k + 1) { m with pc := x } { m with pc := y }) : im.InStep im' n x y := by
  intro m k hm hk
  cases k with
  | zero => exact .zero hm hm
  | succ k => exact h m k hm (by omega)

theorem straight {ins : Instruction} (hc : im.Counterparts im') (hx : im.program.code[x]? = some ins)
    (hy : im'.program.code[y]? = some ins) (hs : ins.isStraight = true) (h : im.InStepBelow im' n (x + 1) (y + 1)) :
    im.InStep im' n x y := by
  refine of_steps fun m k hm hk => ?_
  rcases hc.sameStep_step m hx hy hs with ⟨registers, world, hok, hok'⟩ | ⟨e, e', world, hfailed, hfailed', he⟩
  · exact .step hm hm hok hok' (h k hk { m with registers, world } k hm (Nat.le_refl k))
  · exact .failed hm hm hfailed hfailed' he ⟨rfl, rfl, rfl⟩

/-- Both jump. -/
theorem goto {a b : Nat} (hc : im.Counterparts im') (hx : im.program.code[x]? = some (.goto (.address a)))
    (hy : im'.program.code[y]? = some (.goto (.address b))) (h : im.InStepBelow im' n a b) : im.InStep im' n x y := by
  refine of_steps fun m k hm hk => ?_
  have hstep : im.step { m with pc := x } = .ok { m with pc := a } := step_goto hx (hc.sealed.target_lt hx rfl)
  have hstep' : im'.step { m with pc := y } = .ok { m with pc := b } := step_goto hy (hc.sealed'.target_lt hy rfl)
  exact .step hm hm hstep hstep' (h k hk m k hm (Nat.le_refl k))

/-- The second jumps to where the first is. -/
theorem lag {b : Nat} (hc : im.Counterparts im') (hy : im'.program.code[y]? = some (.goto (.address b)))
    (h : im.InStep im' n x b) : im.InStep im' n x y := by
  intro m k hm hk
  have hstep' : im'.step { m with pc := y } = .ok { m with pc := b } := step_goto hy (hc.sealed'.target_lt hy rfl)
  exact .lag hm hstep' (h m k hm hk)

/-- Both ask for the same number, and each way leads to where they are in step. -/
theorem fork {cond : Slot} {yes no yes' no' : Nat} (hc : im.Counterparts im') (hx : im.Forks x cond yes no)
    (hy : im'.Forks y cond yes' no') (hyes : im.InStepBelow im' n yes yes') (hno : im.InStepBelow im' n no no') :
    im.InStep im' n x y := by
  refine of_steps fun m k hm hk => ?_
  have hstep := hx.step hc.sealed m
  have hstep' := hy.step hc.sealed' m
  cases hi : m.registers.int cond with
  | error what =>
    rw [hi] at hstep hstep'
    exact .failed hm hm hstep hstep' rfl ⟨rfl, rfl, rfl⟩
  | ok i =>
    rw [hi] at hstep hstep'
    refine .step hm hm hstep hstep' ?_
    cases i != 0
    · exact hno k hk m k hm (Nat.le_refl k)
    · exact hyes k hk m k hm (Nat.le_refl k)

/-- Both stop. -/
theorem stop (hx : im.program.code[x]? = some .stop) (hy : im'.program.code[y]? = some .stop) : im.InStep im' n x y := by
  refine of_steps fun m k hm _ => ?_
  have hstep : im.step { m with pc := x } = .ok { m with pc := x, stopped := true } := by
    simp only [step_eq, hx, effect, commit]
    rfl
  have hstep' : im'.step { m with pc := y } = .ok { m with pc := y, stopped := true } := by
    simp only [step_eq, hy, effect, commit]
    rfl
  exact .step hm hm hstep hstep' (.stopped rfl ⟨rfl, rfl, rfl⟩)

end Image.InStep

theorem Image.InStepBelow.mono {im im' : Image} {n k x y : Nat} (h : im.InStepBelow im' n x y) (hk : k ≤ n) :
    im.InStepBelow im' k x y :=
  fun j hj => h j (by omega)

/-! ## Whole runs -/

namespace Image

variable {im im' : Image} {m m' : Machine}

/-- Once a run has ended, more steps change nothing. -/
theorem advance_ended {j k : Nat} (hend : (im.advance j m).1 ≠ .running) (hk : j ≤ k) : im.advance k m = im.advance j m := by
  induction j generalizing m k with
  | zero =>
    cases hs : m.stopped with
    | false =>
      refine absurd ?_ hend
      simp [advance, hs]
    | true => rw [Tracks.advance_stopped hs, Tracks.advance_stopped hs]
  | succ j ih =>
    obtain ⟨k, rfl⟩ : ∃ i, k = i + 1 := ⟨k - 1, by omega⟩
    cases hs : m.stopped with
    | true => rw [Tracks.advance_stopped hs, Tracks.advance_stopped hs]
    | false =>
      cases hstep : im.step m with
      | failed e r =>
        simp [advance, hs, hstep]
      | ok m₁ =>
        rw [Tracks.advance_ok hs hstep] at hend ⊢
        rw [Tracks.advance_ok hs hstep]
        exact ih hend (by omega)

/-- Runs that are in step end alike, or neither ends. -/
theorem InStep.ends_iff {x y : Nat} (h : ∀ n, im.InStep im' n x y) (hm : m.stopped = false) :
    (∀ k, (im.advance k { m with pc := x }).1 ≠ .running → ∃ j,
      (im.advance k { m with pc := x }).1.Alike (im'.advance j { m with pc := y }).1 ∧
        (im.advance k { m with pc := x }).2.Alike (im'.advance j { m with pc := y }).2) ∧
    ∀ j, (im'.advance j { m with pc := y }).1 ≠ .running → ∃ k,
      (im.advance k { m with pc := x }).1.Alike (im'.advance j { m with pc := y }).1 ∧
        (im.advance k { m with pc := x }).2.Alike (im'.advance j { m with pc := y }).2 := by
  refine ⟨fun k hend => (h k m k hm (Nat.le_refl k)).ended hend, fun j hend' => ?_⟩
  have htracks := h j m j hm (Nat.le_refl j)
  by_cases hrun : (im.advance j { m with pc := x }).1 = .running
  · -- The second would still be running after at least as many steps.
    obtain ⟨i, hi, hrun'⟩ := htracks.running hrun
    rw [advance_ended hend' hi] at hrun'
    exact absurd hrun' hend'
  · obtain ⟨i, halike, hmachine⟩ := htracks.ended hrun
    have hended : (im'.advance i { m with pc := y }).1 ≠ .running := fun he => by
      rw [he] at halike
      cases hr : (im.advance j { m with pc := x }).1 <;> rw [hr] at halike <;> exact halike
    have hsame : im'.advance i { m with pc := y } = im'.advance j { m with pc := y } := by
      rcases Nat.le_total i j with hij | hij
      · exact (advance_ended hended hij).symm
      · exact advance_ended hend' hij
    exact ⟨j, hsame ▸ halike, hsame ▸ hmachine⟩

end Image

end SlotCode
