/-
  SlotCode.Proofs.Realization — a call of a lowered tree ends as the evaluation of the tree does.

  The walk follows evaluation node by node; here the whole call is put around it. The
  arguments are bound, the code of the body runs, a value in a fixed slot is moved out of
  it, and the program stops. If evaluation completes, so does the call, with the same
  value; if it fails, the call fails for the same reason; if it has no fuel left, the call
  makes at least as many steps as there was fuel. Locals, heap and native calls agree.

  Main statement: `compile_realizes`.
-/

import SlotCode.Proofs.CallSetup
import SlotCode.Proofs.FaithfulWalk
import SlotCode.Proofs.Passage

namespace SlotCode

open Lowering

/-! ## Literals -/

/-- The object that was made for a text of the program. -/
def Image.literal (im : Image) (s : String) : Option Ref := (im.program.texts.idxOf? s).bind (im.texts[·]?)

namespace Image

/-- Loading puts the texts behind the heap, in order, and changes nothing else. -/
theorem load_texts (texts : List String) : ∀ (refs : Array Ref) (w : World),
    texts.foldl (fun (p : Array Ref × World) s => (p.1.push (p.2.alloc (.text s)).1, (p.2.alloc (.text s)).2)) (refs, w) =
      (refs ++ (List.range' w.heap.cells.size texts.length).toArray,
        { w with heap := ⟨w.heap.cells ++ (texts.map Object.text).toArray⟩ }) := by
  induction texts with
  | nil => intro refs w; simp
  | cons s texts ih =>
    intro refs w
    rw [List.foldl_cons, ih]
    refine Prod.ext (Array.toList_inj.1 ?_) ?_
    · simp [World.alloc, Heap.alloc, List.range'_succ]
    · simp [World.alloc, Heap.alloc]

theorem load_eq (p : Program) (env : Environment) (w : World) :
    load p env w = (⟨p, env, (List.range' w.heap.cells.size p.texts.size).toArray⟩,
      { w with heap := ⟨w.heap.cells ++ (p.texts.toList.map Object.text).toArray⟩ }) := by
  have h := load_texts p.texts.toList #[] w
  unfold load
  rw [← Array.foldl_toList]
  simp only [Array.length_toList, Array.empty_append] at h
  rw [show p.texts.toList.foldl _ (#[], w) = _ from h]

/-- Right after loading, the object with the number of a text is that text. -/
theorem load_object {p : Program} {i : Nat} {s : String} (h : p.texts[i]? = some s) (env : Environment) (w : World) :
    (load p env w).1.texts[i]? = some (w.heap.cells.size + i) ∧
      (load p env w).2.heap.get (w.heap.cells.size + i) = .text s := by
  have hlt := (Array.getElem?_eq_some_iff.1 h).1
  rw [load_eq]
  constructor
  · simp [hlt]
  · show (w.heap.cells ++ (p.texts.toList.map Object.text).toArray).getD _ _ = _
    rw [Array.getD_eq_getD_getElem?, Array.getElem?_append_right (Nat.le_add_right _ _)]
    simp [h]

theorem getElem?_of_idxOf? {xs : Array String} {x : String} {i : Nat} (h : xs.idxOf? x = some i) : xs[i]? = some x := by
  obtain ⟨l⟩ := xs
  rw [List.idxOf?_toArray, List.idxOf?_eq_some_iff] at h
  obtain ⟨hi, hx, -⟩ := h
  simpa using List.getElem?_eq_some_iff.2 ⟨hi, hx⟩

theorem load_literal {p : Program} {env : Environment} {w : World} {s : String} {r : Ref}
    (h : (load p env w).1.literal s = some r) : (load p env w).2.heap.get r = .text s := by
  obtain ⟨i, hi, hr⟩ := Option.bind_eq_some_iff.1 h
  have htext : p.texts[i]? = some s := getElem?_of_idxOf? (by rwa [load_eq] at hi)
  obtain ⟨hobject, hheap⟩ := load_object htext env w
  rw [← Option.some.inj (hobject.symm.trans hr)]
  exact hheap

end Image

/-! ## Calls -/

/-- The machine has the registers that a program counts. -/
def Machine.Covers (m : Machine) (p : Program) : Prop :=
  ∀ x : TypedSlot, x.slot < p.counts.get x.kind → m.registers.has x = true

/-- The machine shows a store: the same world, and the locals in the registers of the variables. -/
structure Machine.Shows (m : Machine) (p : Program) (σ : Store) : Prop where
  world : m.world = σ.world
  locals : p.vars.map m.registers.get? = σ.locals.map some

namespace Image

/-- A call ends as an evaluation with the given outcome does. Where evaluation has used up its fuel, so has
    a call with as much fuel. -/
def Realizes (im : Image) (args : List Value) (m : Machine) (fuel : Nat) :
    Option (Except Abrupt (Option Value) × Store) → Prop
  | none => ∃ m₁, im.call {} fuel args m = (.unfinished, m₁)
  | some (.ok v, σ) => ∃ n m₁, m₁.Shows im.program σ ∧ ∀ k, n ≤ k → im.call {} k args m = (.done v, m₁)
  | some (.error (.fault e), σ) =>
    ∃ n m₁ pc, m₁.Shows im.program σ ∧ ∀ k, n ≤ k → im.call {} k args m = (.failed (.runtime (e.at pc)), m₁)
  | some (.error _, _) => False

variable {im : Image} {lo hi n k : Nat} {m m₁ : Machine}

/-- Before its last step a run is still going. -/
theorem Runs.going (h : im.Runs lo hi n m m₁) : ∀ {k : Nat}, k < n → ∃ m₂, im.advance k m = (.running, m₂) := by
  induction h with
  | refl =>
    intro k hk
    omega
  | step _ _ hgo hstep _ ih =>
    intro k hk
    cases k with
    | zero => exact ⟨_, by rw [Image.advance, hgo]; rfl⟩
    | succ k =>
      obtain ⟨m₂, hm₂⟩ := ih (by omega : k < _)
      exact ⟨m₂, by simp [Image.advance, hgo, hstep, hm₂]⟩

theorem advance_stopped (h : m.stopped = true) (k : Nat) : im.advance k m = (.stopped, m) := by
  cases k <;> simp [advance, h]

theorem advance_stop (hc : im.program.code[m.pc]? = some .stop) (hgo : m.stopped = false) (k : Nat) :
    im.advance (k + 1) m = (.stopped, { m with stopped := true }) := by
  have hstep : im.step m = .ok { m with stopped := true } := by simp [step_eq, hc, effect, commit, pure, Except.pure]
  rw [advance, hgo, hstep]
  exact advance_stopped rfl k

theorem result_none (h : im.program.result = none) : im.result m = .ok none := by rw [result, h]

theorem result_some {x : TypedSlot} {v : Value} (h : im.program.result = some x) (hx : m.registers.get? x = some v) :
    im.result m = .ok (some v) := by
  rw [result, h]
  simp [Registers.get_of_get? hx]

/-- Once the arguments are bound, a call is a run from the first address. -/
theorem call_eq {args : List Value} {r : Registers} (hlen : args.length = im.program.params.length)
    (hbind : bindArgs 0 (im.program.params.zip args) m.reset.registers = (none, r)) (k : Nat) :
    im.call {} k args m = match im.advance k { m.reset with registers := r } with
      | (.stopped, m) =>
        match im.result m with
        | .ok v => (.done v, m)
        | .error what => (.failed (.runtime (.missing what)), m)
      | (.failed e, m) => (.failed (.runtime e), m)
      | (.running, m) => (.unfinished, m) := by
  simp only [call, hlen, hbind, resume, Option.getD_none, ne_eq, not_true, if_false]
  rcases im.advance k { m.reset with registers := r } with ⟨_ | e | _, m₁⟩ <;> rfl

end Image

/-! ## A run that follows the body -/

variable {S : Scene} {A : Anchor} {σ : Store} {m m₁ : Machine}

theorem Agrees.shows (h : Agrees S A none σ m) {p : Program} (hp : p.vars = S.ctx.vars) : m.Shows p σ := by
  refine ⟨h.world, List.ext_getElem? fun j => ?_⟩
  rw [hp, List.getElem?_map, List.getElem?_map]
  cases hj : S.ctx.vars[j]? with
  | none =>
    have hle : σ.locals.length ≤ j := by
      rw [h.count]
      exact List.getElem?_eq_none_iff.1 hj
    simp [hle]
  | some x =>
    obtain ⟨v, hv, hr⟩ := h.vars j x hj nofun
    simp [hv, hr]

/-- Where a run of the whole body ends: at `stop`, with the value in the result's register. -/
structure AtStop (S : Scene) (A : Anchor) (v : Option Value) (σ : Store) (m : Machine) : Prop where
  code : S.code[m.pc]? = some .stop
  agrees : Agrees S A none σ m
  result : S.image.result m = .ok v

/-- A run that follows the evaluation of the body, as a call. -/
theorem Follows.realizes {lo hi : Nat} {o : Option (Except Abrupt (Option Value) × Store)} {r : Registers}
    (h : Follows S {} A lo hi 0 o { m.reset with registers := r } 0 (AtStop S A))
    (hvars : S.image.program.vars = S.ctx.vars) (hlen : S.args.length = S.image.program.params.length)
    (hbind : Image.bindArgs 0 (S.image.program.params.zip S.args) m.reset.registers = (none, r)) :
    S.image.Realizes S.args m S.fuel o := by
  have hcall := Image.call_eq hlen hbind
  cases h with
  | spent hn hfuel =>
    obtain ⟨m₂, hm₂⟩ := Image.Runs.going hn (by omega : S.fuel < _)
    exact ⟨m₂, by rw [hcall, hm₂]⟩
  | done hn hq hend =>
    rename_i n m₁ v σ
    refine ⟨n + 1, { m₁ with stopped := true }, ⟨hend.agrees.world, (hend.agrees.shows hvars).locals⟩, fun k hk => ?_⟩
    obtain ⟨j, rfl⟩ := Nat.exists_eq_add_of_le hk
    have hresult : S.image.result { m₁ with stopped := true } = .ok v := hend.result
    rw [hcall, Nat.add_assoc, hn.advance, Nat.add_comm 1 j, Image.advance_stop hend.code hend.agrees.going]
    simp only [hresult]
  | failed hn hfail ha =>
    rename_i n m₁ m₂ e σ
    refine ⟨n + 1, m₂, m₁.pc, ha.shows hvars, fun k hk => ?_⟩
    obtain ⟨j, rfl⟩ := Nat.exists_eq_add_of_le hk
    rw [hcall, Nat.add_assoc, hn.advance, Nat.add_comm 1 j, Image.advance, hfail.going, hfail.step]
    rfl
  | left hn hpos hland ha => cases hland <;> contradiction

/-! ## A whole function -/

namespace Lowering.Passage

variable {ctx : Context} {p : Program}

/-- A call of the program in an image of it. -/
theorem valid (P : Passage ctx p) (hf : ctx.function.WellShaped) {im : Image} (hcode : im.program.Sealed)
    (henv : im.env = ctx.env) (htexts : im.program.texts.toList.Nodup) (args : List Value) (fuel : Nat) :
    Scene.Valid ⟨ctx, im, args, fuel⟩ := by
  obtain ⟨hbound, -, -⟩ := Demand.analyze_ok P.analyzed
  obtain ⟨-, hapart, hparams, hvars⟩ := P.fixed
  exact ⟨hf, hbound, hapart, hparams, hvars, henv, htexts, hcode⟩

/-- The walk lowered the body as it is evaluated. -/
theorem built (P : Passage ctx p) {S : Scene} (hctx : S.ctx = ctx) (hS : S.Valid) :
    Built S (S.reading.eval S.fuel (ctx.function.nodes.size + 1) ctx.function.bodyRead ctx.function.body)
      ctx.function.body ctx.function.bodyRead [] none none (.start ctx P.demand P.pool) P.walked P.visited := by
  subst hctx
  exact (walk_faithful hS _ 0).build .body (books_start hS.shaped.tree P.analyzed P.fixed.1) hintFits_none offerFits_none
    P.walks

/-- Every text stands in the program once. -/
theorem texts_nodup (P : Passage ctx p) : p.texts.toList.Nodup := by
  rw [P.tables.2.1]
  exact P.bound.table.nodup

variable {S : Scene}

/-- The state of a passage with the code ended. -/
def stopped (P : Passage ctx p) : State := { P.bound with draft := P.bound.draft.add .stop }

/-- Binding the result keeps the books. -/
theorem along_bound (P : Passage ctx p) (hb : Books ctx P.walked) : Along ctx P.walked P.bound := by
  rcases resultBinding_ok P.binds with ⟨-, hbound, -⟩ | ⟨x, -, -, -, hbound⟩
  · rw [hbound]
    exact hb.along
  · rw [hbound]
    exact (hb.along.acquire x.kind).redraft (Draft.before_add hb.clean _)

theorem grows_stopped (P : Passage ctx p) (hb : Books ctx P.bound) : Grows P.bound P.stopped :=
  .redraft (Draft.before_add hb.clean .stop)

/-- The ended state is the program, and no block or loop is open in it. -/
theorem final (P : Passage ctx p) (hp : S.image.program = p) (hgrows : Grows (.start ctx P.demand P.pool) P.stopped) :
    Final S {} P.stopped := by
  obtain ⟨hcounts, htexts, hsites, -, -⟩ := P.tables
  have hblocks : P.stopped.blocks = [] := List.forall₂_nil_left_iff.1 hgrows.blocks
  have hloops : P.stopped.loops = [] := List.forall₂_nil_left_iff.1 hgrows.loops
  refine ⟨?_, ?_, ?_, ?_, ?_, ?_⟩
  · rw [Scene.code, hp]
    exact Draft.becomes_finish P.finished
  · rw [hblocks]
    exact .nil
  · rw [hloops]
    exact .nil
  · rw [hp, htexts]
    exact fun _ _ h => h
  · rw [hp, hsites]
    exact fun _ _ h => h
  · intro k
    rw [hp, hcounts]
    simp [Pool.counts, stopped]

/-- What was delivered for the body is bound as the result. -/
theorem follows_binding (P : Passage S.ctx p) (hp : S.image.program = p) (hb : Books S.ctx P.walked)
    (hfinal : Final S {} P.stopped) {A : Anchor} (hA : ∀ x, A.live x = false) {o : Option Operand} {τ : Store}
    {m : Machine} (hpc : m.pc = P.walked.draft.label)
    (hd : Delivered S A P.walked.pool.isLive none τ m P.visited.slot o) :
    Follows S {} A 0 P.bound.draft.label 0 (Eval.on (match o with
      | some o => do return some (← Eval.read o)
      | none => return none) τ) m 0 (AtStop S A) := by
  have hstop : S.code[P.bound.draft.label]? = some .stop := Final.emitted hfinal Instruction.noConfusion rfl
  have halong := P.along_bound hb
  subst hp
  rcases resultBinding_ok P.binds with ⟨hslot, hbound, -⟩ | ⟨x, hslot, -, hr, hbound⟩
  · -- The value, if there is one, is the result where it stands.
    rw [hbound, ← hpc] at hstop
    generalize hresult : S.image.program.result = result at hslot
    rw [← hslot] at hd
    cases hd with
    | nothing ha => exact .ok (Nat.le_refl 0) ⟨hstop, ha, Image.result_none hresult⟩
    | held ha hheld =>
      obtain ⟨v, hread, hx⟩ := hheld.read ha
      exact .silent hread (.ok (Nat.le_refl 0) ⟨hstop, ha, Image.result_some hresult hx⟩)
    | stored hhint => cases hhint
  · -- The value stands in a fixed slot and is moved to one of its own.
    have hacquired := hb.pool.acquire x.kind
    obtain ⟨hparams, hvars⟩ := not_or.1 (mt List.mem_append.2 hacquired.loose)
    have hmove := (P.grows_stopped halong.books).final hfinal
    rw [hbound] at hmove hstop ⊢
    have hcode : S.code[P.walked.draft.label]? = some (.move x.kind (P.walked.pool.acquire x.kind).1 x.slot) :=
      Final.emitted (s := { P.walked with pool := (P.walked.pool.acquire x.kind).2 }) hmove Instruction.noConfusion rfl
    rw [hslot] at hd
    cases hd with
    | held ha hheld =>
      obtain ⟨v, hread, hx⟩ := hheld.read ha
      have hhas := hmove.covered ha hacquired.has
      refine .silent hread (.writes (Image.performs_move (by rwa [hpc]) hhas hx rfl) (Nat.zero_le _) ?_ ha hparams hhas
        fun hstored => .ok (Nat.zero_le _) ⟨?_, hstored.agrees.unskip (hA _) hparams hvars, Image.result_some hr hstored.value⟩)
      · simp [hpc]
      · rw [← hstop, Draft.label_add]
        simp [Machine.wrote, hpc]
    | stored hhint => cases hhint

/-- The run from the first address follows the evaluation of the body, up to `stop`. -/
theorem follows_body (P : Passage S.ctx p) (hp : S.image.program = p) (hS : S.Valid) {A : Anchor}
    (hA : ∀ x, A.live x = false) {σ : Store} {m : Machine} (ha : Agrees S A none σ m) (hpc : m.pc = 0) :
    Follows S {} A 0 P.bound.draft.label 0 ((S.reading.body S.fuel).on σ) m 0 (AtStop S A) := by
  have hbuilt := P.built rfl hS
  have hbound := P.along_bound hbuilt.along.books
  have hstopped := P.grows_stopped hbound.books
  have hfinal := P.final hp ((hbuilt.grows.trans hbound.since.toGrows).trans hstopped)
  have hready : Ready S {} A [] (.start S.ctx P.demand P.pool) (.start S.ctx P.demand P.pool) P.walked σ m := by
    refine ⟨(hbound.since.toGrows.trans hstopped).final hfinal, rfl, fun x hx => ?_, ha, hpc⟩
    rw [hA] at hx
    cases hx
  have htaken : P.visited.taken = false := by
    cases ht : P.visited.taken with
    | false => rfl
    | true =>
      obtain ⟨o, ho, -⟩ := hbuilt.taken ht
      cases ho
  refine ((hbuilt.runs htaken hready).widen (Nat.zero_le _) hbound.since.label).bind ?_
  rintro o τ m₁ ⟨hend, -, hd⟩
  exact P.follows_binding hp hbuilt.along.books hfinal hA hend hd

end Lowering.Passage

/-- A call of the program of a passage ends as the evaluation of its function does. -/
theorem Lowering.Passage.realizes {ctx : Context} {p : Program} (P : Passage ctx p) {S : Scene} (hctx : S.ctx = ctx)
    (hp : S.image.program = p) (hS : S.Valid) (hkinds : S.args.map Value.kind = ctx.params.map TypedSlot.kind)
    {m : Machine} (hcovers : m.Covers p) :
    S.image.Realizes S.args m S.fuel (S.reading.run S.fuel m.world) := by
  subst hctx hp
  obtain ⟨hcounts, -, -, hparams, hvars⟩ := P.tables
  have hfixed : ∀ x ∈ S.ctx.params ++ S.ctx.vars, x.slot < S.image.program.counts.get x.kind := by
    intro x hx
    have hhas := (P.along_bound (P.built rfl hS).along.books).books.pool.fixed_has hx
    rw [hcounts]
    simpa [Pool.counts, Pool.has] using hhas
  obtain ⟨r, hbind, ha⟩ := agrees_start hS hkinds hcovers hfixed
  rw [← hparams] at hbind
  refine Follows.realizes (P.follows_body rfl hS (fun _ => rfl) ha rfl) hvars ?_ hbind
  rw [hparams]
  simpa using congrArg List.length hkinds

/-- A call of the loaded program ends as the evaluation of its function does. -/
theorem Lowering.Passage.load_realizes {ctx : Context} {p : Program} (P : Passage ctx p) (hf : ctx.function.WellShaped)
    (hsealed : p.Sealed) (w : World) {args : List Value}
    (hargs : args.map (fun v => some v.kind) = ctx.function.params.map ValueType.kind?) {m : Machine} (fuel : Nat)
    (hcovers : m.Covers p) :
    (Image.load p ctx.env w).1.Realizes args m fuel
      (Reading.run ⟨ctx.function, ctx.env, args, (Image.load p ctx.env w).1.literal⟩ fuel m.world) := by
  have himage : (Image.load p ctx.env w).1.program = p := by rw [Image.load_eq]
  have henv : (Image.load p ctx.env w).1.env = ctx.env := by rw [Image.load_eq]
  have hkinds : args.map Value.kind = ctx.params.map TypedSlot.kind := by
    have hparams := P.fixed.2.2.1
    rw [← hargs] at hparams
    have hmapped := congrArg (List.map (Option.getD · Kind.int)) hparams
    simpa [Function.comp_def] using hmapped
  have hS : Scene.Valid ⟨ctx, (Image.load p ctx.env w).1, args, fuel⟩ :=
    P.valid hf (by rwa [himage]) henv (by rw [himage]; exact P.texts_nodup) args fuel
  exact P.realizes rfl himage hS hkinds hcovers

/-- A call of a lowered tree ends as its evaluation does: it completes with the same value, or fails for the
    same reason, or goes on for as long as the evaluation does; then the world and the locals are the same.
    The texts of the program are objects of the loaded image. -/
theorem compile_realizes {f : Function} {env : Environment} {options : CompileOptions} {p : Program} (hf : f.WellShaped)
    (hp : compile f env options = .ok p) (w : World) {args : List Value}
    (hargs : args.map (fun v => some v.kind) = f.params.map ValueType.kind?) :
    (∀ s r, (Image.load p env w).1.literal s = some r → (Image.load p env w).2.heap.get r = .text s) ∧
      ∀ m fuel, m.Covers p → (Image.load p env w).1.Realizes args m fuel
        (Reading.run ⟨f, env, args, (Image.load p env w).1.literal⟩ fuel m.world) := by
  refine ⟨fun s r => Image.load_literal, fun m fuel hcovers => ?_⟩
  obtain ⟨params, vars, ⟨P⟩⟩ := compile_passage hp
  exact P.load_realizes hf (compile_ok_sealed hp) w hargs fuel hcovers

/-- Counts its parameter down to zero in a loop, and returns what is left. -/
def countdown : Function where
  params := [.int]
  locals := [.int]
  nodes := #[⟨.param 0, .int⟩, ⟨.setVar 0 0, .void⟩, ⟨.nullary .void, .void⟩, ⟨.getVar 0, .int⟩, ⟨.getVar 0, .int⟩,
    ⟨.const (.int 1), .int⟩, ⟨.binary (.arith .int .sub) 4 5, .int⟩, ⟨.setVar 0 6, .void⟩, ⟨.exitLoop 0, .unreachable⟩,
    ⟨.conditional 3 7 8, .void⟩, ⟨.loop 0 2 9, .void⟩, ⟨.getVar 0, .int⟩, ⟨.sequence 10 11, .int⟩,
    ⟨.sequence 1 12, .int⟩]
  body := 13
  returnType := .int

theorem compile_countdown : countdown.WellShaped ∧ ∃ p, compile countdown {} {} = .ok p ∧
    ∃ n m₁, ∀ k, n ≤ k → (Image.load p {} {}).1.call {} k [.int 3] (.start (Image.load p {} {}).1 {}) =
      (.done (some (.int 0)), m₁) := by
  have hf : countdown.WellShaped :=
    Function.wellShaped_of_chart (show countdown.Charted (countdown.places 14 (13, true, [])) by decide +kernel)
      (by decide +kernel) (by decide +kernel)
  have hp : compile countdown {} {} = .ok
      { code := #[.move .int 1 0, .jumpIf false 1 (.address 5), .const 3 (.int 1), .arith .int .sub 1 1 3,
          .goto (.address 6), .goto (.address 7), .goto (.address 1), .move .int 2 1, .stop],
        counts := ⟨4, 0, 0, 0, 0⟩, params := [⟨.int, 0⟩], vars := [⟨.int, 1⟩], result := some ⟨.int, 2⟩ } := by
    decide +kernel
  have hrun : ∀ literal, ∃ σ, Reading.run ⟨countdown, {}, [.int 3], literal⟩ 5 {} = some (.ok (some (.int 0)), σ) :=
    fun _ => ⟨_, rfl⟩
  refine ⟨hf, _, hp, ?_⟩
  generalize Program.mk _ _ _ _ _ _ _ = p at hp ⊢
  obtain ⟨σ, hσ⟩ := hrun (Image.load p {} {}).1.literal
  have hreal := (compile_realizes hf hp {} (show [Value.int 3].map _ = _ from rfl)).2 (.start (Image.load p {} {}).1 {}) 5
    fun x => (Registers.has_new _ x).2
  rw [show Machine.world (.start (Image.load p {} {}).1 {}) = {} from rfl, hσ] at hreal
  obtain ⟨n, m₁, -, hcall⟩ := hreal
  exact ⟨n, m₁, hcall⟩

end SlotCode
