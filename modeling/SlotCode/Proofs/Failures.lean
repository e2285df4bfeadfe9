/-
  SlotCode.Proofs.Failures — where lowered code can fail.

  `canFail` tells for each instruction whether one of its checks can fail. Lowering leaves
  no room for most other failures: operands are of the kinds that their instructions take,
  texts and jump targets exist. What it cannot know is what a static field holds. A host
  and its natives may put any value there, and an instruction that reads the field into a
  register of another kind fails, although `canFail` denies it.

  Proved: an instruction that `canFail` denies looks up what is missing, writes a value of
  the right kind, or reads a static field (`answers_unfailing`). So in every run of lowered
  code a step fails against `canFail` exactly at a static field that holds a value of
  another kind than is read (`compile_fails_where_told`), and there it does
  (`mislaid_static_fails`).
-/

import SlotCode.Proofs.StepChanges

namespace SlotCode

/-- Whether something was looked up that does not exist. -/
def RuntimeError.isMissing : RuntimeError → Bool
  | .missing _ => true
  | _ => false

/-- A value that is written is of the kind of its register, or comes from a static field. -/
def Effect.Trusts (im : Image) (m : Machine) (i : Instruction) : Effect → Prop
  | .write x v => v.kind = x.kind ∨ ∃ field, i = .getStatic x.kind x.slot field ∧ im.env.staticValue m.world field = .ok v
  | _ => True

theorem Arith.IntOp.onInt_isSome {op : Arith.IntOp} (h : op.divides = false) (a b : Int32) :
    (op.onInt a b).isSome = true := by
  cases op <;> first | rfl | cases h

theorem Arith.IntOp.onLong_isSome {op : Arith.IntOp} (h : op.divides = false) (a b : Int64) :
    (op.onLong a b).isSome = true := by
  cases op <;> first | rfl | cases h

section

variable {im : Image} {m : Machine} {t : Tables} {i : Instruction} {env : Environment}

/-- An instruction that `canFail` denies, and that the machine can run, fails only for want of what it looks up. -/
theorem answers_unfailing (hi : i.canFail = false) (hrefers : i.Refers env t) (htexts : t.texts = im.texts.size)
    (hjump : ∀ target, i.target? = some target → ∃ a, im.program.jumpTo m.pc target = .ok (.jump a)) :
    Answers (im.effect m i) (Effect.Trusts im m i) fun e => e.isMissing = true := by
  have look : ∀ {α : Type} (x : Except Missing α), Answers (liftM x : Except RuntimeError α) (fun a => x = .ok a)
      fun e => e.isMissing = true := fun x => .lift (fun _ => rfl) x
  cases i with
  | const r value => exact .inl (Value.kind_ofScalar value)
  | text r index =>
    refine .expectSome (fun hnone => ?_) fun ref _ => .inl rfl
    exact absurd (Array.getElem?_eq_none_iff.1 hnone) (Nat.not_le.2 (htexts ▸ hrefers))
  | null r => exact .inl rfl
  | move kind r a =>
    refine .bind (look _) fun v hv => .inl ?_
    have hkind := Registers.kind_of_get? (Registers.get?_of_get hv)
    exact hkind
  | arith w op r a b =>
    have hop : op.divides = false := hi
    cases w with
    | int =>
      refine .bind (look _) fun x _ => .bind (look _) fun y _ => ?_
      obtain ⟨v, hv⟩ := Option.isSome_iff_exists.1 (Arith.IntOp.onInt_isSome hop x y)
      rw [hv]
      exact .inl rfl
    | long =>
      have divided : ∀ distance, Answers (m.onLong op r a distance) (Effect.Trusts im m (.arith .long op r a b))
          fun e => e.isMissing = true := by
        refine fun distance => .bind (look _) fun x _ => ?_
        obtain ⟨v, hv⟩ := Option.isSome_iff_exists.1 (Arith.IntOp.onLong_isSome hop x distance)
        rw [hv]
        exact .inl rfl
      unfold Image.effect
      dsimp only
      split
      · cases m.registers.int b with
        | ok y => exact divided y.toInt64
        | error what => rfl
      · exact .bind (look _) fun distance _ => divided distance
  | real p op r a b => cases p <;> exact .bind (look _) fun _ _ => .bind (look _) fun _ _ => .inl rfl
  | neg kind r a =>
    cases kind with
    | object => exact absurd rfl hrefers
    | _ => exact .bind (look _) fun _ _ => .inl rfl
  | inv kind r a =>
    rcases hrefers with rfl | rfl
    · exact .bind (look _) fun _ _ => .inl rfl
    · exact .bind (look _) fun _ _ => .inl rfl
  | not r a => exact .bind (look _) fun _ _ => .inl rfl
  | convert c r a =>
    refine .bind (look _) fun v hv => ?_
    have hkind := Registers.kind_of_get? (Registers.get?_of_get hv)
    refine .expectSome (fun hnone => ?_) fun y hy => .inl ?_
    · cases c <;> cases v <;> cases hkind <;> cases hnone
    · obtain ⟨x, -, hx⟩ := Option.bind_eq_some_iff.1 hy
      exact (Value.kind_ofScalar y).trans (Arith.Conversion.kind_apply? hx)
  | test op r a b => exact .bind (look _) fun _ _ => .bind (look _) fun _ _ => .inl rfl
  | order kind r a b =>
    cases kind with
    | object => exact absurd rfl hrefers
    | _ => exact .bind (look _) fun _ _ => .bind (look _) fun _ _ => .inl rfl
  | same op r a b =>
    refine .bind (look _) fun _ _ => .bind (look _) fun _ _ => ?_
    rcases hrefers with rfl | rfl <;> exact .inl rfl
  | getStatic kind r field => exact .bind (look _) fun v hv => .inr ⟨field, rfl, hv⟩
  | instanceOf r a target =>
    refine .bind (look _) fun object _ => ?_
    cases object with
    | none => exact .inl rfl
    | some object => exact .bind (look _) fun _ _ => .inl rfl
  | goto target =>
    obtain ⟨a, ha⟩ := hjump target rfl
    have heffect : im.effect m (.goto target) = .ok (.jump a) := ha
    rw [heffect]
    trivial
  | jumpIf polarity cond target =>
    obtain ⟨a, ha⟩ := hjump target rfl
    refine .bind (look _) fun c _ => ?_
    split
    · rw [ha]
      trivial
    · trivial
  | nop => exact hrefers.elim
  | stop => trivial
  | _ => cases hi

/-- An instruction that `canFail` denies fails exactly when it reads a static field of another kind. -/
theorem Image.step_unfailing (hcode : im.program.code[m.pc]? = some i) (hi : i.canFail = false) (hrefers : i.Refers env t)
    (htexts : t.texts = im.texts.size)
    (hjump : ∀ target, i.target? = some target → ∃ a, im.program.jumpTo m.pc target = .ok (.jump a)) :
    (∃ e m', im.step m = .failed e m' ∧ e.isMissing = false) ↔
      ∃ kind r field v, i = .getStatic kind r field ∧ im.env.staticValue m.world field = .ok v ∧ v.kind ≠ kind := by
  have htrusts := answers_unfailing hi hrefers htexts hjump
  have hsuits := answers_suits im m i
  constructor
  · rintro ⟨e, m', h, he⟩
    simp only [Image.step_eq, hcode] at h
    cases heffect : im.effect m i with
    | error err =>
      rw [heffect] at htrusts h
      cases h
      cases he.symm.trans htrusts
    | ok eff =>
      rw [heffect] at htrusts hsuits h
      cases eff with
      | next | store | jump | halt => cases h
      | write x v =>
        obtain ⟨-, ⟨hkind, -⟩ | ⟨-, rfl⟩⟩ := Machine.write_failed h
        · obtain ⟨field, hget, hv⟩ := htrusts.resolve_left hkind
          exact ⟨x.kind, x.slot, field, v, hget, hv, hkind⟩
        · cases he
      | invoke id f args result =>
        obtain ⟨site, -, rfl, -⟩ := hsuits
        cases hi
  · rintro ⟨kind, r, field, v, rfl, hv, hkind⟩
    have heffect : im.effect m (.getStatic kind r field) = .ok (.write ⟨kind, r⟩ v) := by
      simp only [Image.effect, hv]
      rfl
    refine ⟨.invalidInstruction m.pc, m, ?_, rfl⟩
    simp only [Image.step_eq, hcode, heffect, Image.commit]
    simp [Machine.write, Registers.set, hkind]

end

/-- In every run of a well-typed function that starts at the first instruction, with whatever the registers, the world and
    the static fields hold, and after any number of steps: an instruction that `canFail` denies fails with a runtime error
    exactly when it reads a static field that holds a value of another kind than it awaits. -/
theorem compile_fails_where_told (f : Function) (env : Environment) (options : CompileOptions) (p : Program) (hf : f.WellTyped)
    (h : compile f env options = .ok p) (im : Image) (start : Machine) (hprogram : im.program = p)
    (htexts : im.texts.size = p.texts.size) (hstart : start.pc = 0) (n : Nat) :
    ∃ i, p.code[(im.advance n start).2.pc]? = some i ∧ (i.canFail = false →
      ((∃ e m', im.step (im.advance n start).2 = .failed e m' ∧ e.isMissing = false) ↔
        ∃ kind r field v, i = .getStatic kind r field ∧ im.env.staticValue (im.advance n start).2.world field = .ok v ∧
          v.kind ≠ kind)) := by
  subst hprogram
  have hsealed := compile_ok_sealed h
  obtain ⟨params, vars, ⟨P⟩⟩ := compile_passage h
  have hfits := P.fits hf hsealed
  have hinside : (im.advance n start).2.pc < im.program.code.size :=
    (hsealed.advance n start (by rw [hstart]; exact hsealed.size_pos)).1
  have hi := Array.getElem?_eq_getElem hinside
  refine ⟨_, hi, fun hcan => Image.step_unfailing hi hcan (hfits.code _ _ hi).refers htexts.symm fun target htarget => ?_⟩
  obtain ⟨a, -, ha⟩ := hsealed.jumpTo hi htarget
  exact ⟨a, ha⟩

/-- Reads a static field. -/
def readLimit : Function where
  params := []
  locals := []
  nodes := #[⟨.getStatic ⟨"Config", "limit", .int⟩, .int⟩]
  body := 0
  returnType := .int

/-- An environment in which the field is declared as an int, and a world in which it holds null. -/
def mislaid : Environment × World := (Environment.defineStatic {} {} ⟨"Config", "limit", .int⟩ .null).2

/-- The code of `readLimit`, loaded. -/
def limitReader : Image where
  program := { code := #[.getStatic .int 0 0, .stop], counts := ⟨1, 0, 0, 0, 0⟩, result := some ⟨.int, 0⟩ }
  env := mislaid.1
  texts := #[]

theorem compile_readLimit : compile readLimit mislaid.1 {} = .ok limitReader.program := by
  decide +kernel

/-- Reading the field fails while it holds null, and no longer once it holds an int. -/
theorem readLimit_fails_where_told : readLimit.WellTyped ∧ compile readLimit mislaid.1 {} = .ok limitReader.program ∧
    (∃ e m', limitReader.step (.start limitReader mislaid.2) = .failed e m' ∧ e.isMissing = false) ∧
    ¬∃ e m', limitReader.step (.start limitReader { mislaid.2 with statics := #[.int 3] }) = .failed e m' ∧
      e.isMissing = false := by
  have hf : readLimit.WellTyped := by decide
  have told := fun world =>
    compile_fails_where_told _ _ _ _ hf compile_readLimit limitReader (.start limitReader world) rfl rfl rfl 0
  refine ⟨hf, compile_readLimit, ?_, ?_⟩
  · obtain ⟨i, hi, hfails⟩ := told mislaid.2
    cases hi
    exact (hfails rfl).2 ⟨.int, 0, 0, .null, rfl, rfl, by decide⟩
  · obtain ⟨i, hi, hfails⟩ := told { mislaid.2 with statics := #[.int 3] }
    cases hi
    intro hfailed
    obtain ⟨kind, r, field, v, hget, hv, hkind⟩ := (hfails rfl).1 hfailed
    cases hget
    cases hv
    exact hkind rfl

/-- A host that puts null into an int field makes an instruction fail that `canFail` denies. -/
theorem mislaid_static_fails : readLimit.WellTyped ∧ compile readLimit mislaid.1 {} = .ok limitReader.program ∧
    limitReader = (Image.load limitReader.program mislaid.1 mislaid.2).1 ∧ ∃ i m', limitReader.program.code[0]? = some i ∧
      i.canFail = false ∧ limitReader.step (.start limitReader mislaid.2) = .failed (.invalidInstruction 0) m' :=
  ⟨by decide, compile_readLimit, rfl, _, _, rfl, rfl, rfl⟩

end SlotCode
