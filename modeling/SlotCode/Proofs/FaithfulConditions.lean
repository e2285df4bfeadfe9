/-
  SlotCode.Proofs.FaithfulConditions — conditions go where their truth says.

  A condition is followed by where control ends up once its branch is decided. Connectives
  put the branches of their operands together, so their truth is that of the operands; a
  connective that is read as a value turns where control is back into a number.
-/

import SlotCode.Proofs.FaithfulOperators

namespace SlotCode

open Lowering Arith

/-- The truth of a connective, from the truth of its operands. -/
def Connective.truth (r : Reading) (child : ChildEval) : Connective → Eval Bool
  | .not operand => return !(← r.truth child false operand)
  | .shortCircuit decisive first second => do
    if (← r.truth child false first) = decisive then return decisive else r.truth child false second

variable {S : Scene} {g : Landings} {A : Anchor} {open_ : List (BlockId × Bool)} {s₀ s t : State} {σ τ : Store}
  {m : Machine} {x : TypedSlot} {id : NodeId} {hint : Option TypedSlot} {offer : Option Offer} {demanded : Bool}
  {w : Walk} {ev : ChildEval} {visited : Visited} {b : Branch}

/-! ## Branches -/

theorem Lowering.onSlot_ok {cond : Slot} (hr : drafting (Branch.onSlot cond) s = .ok (b, t)) :
    b = ⟨[], [], ⟨s.draft.label, cond, false⟩, s.draft.label + 1⟩ ∧ t = { s with draft := s.draft.reserve.2 } := by
  obtain ⟨d, hact, rfl⟩ := drafting_ok hr
  obtain ⟨p, d₁, hreserve, hact⟩ := drafting_bind_ok hact
  cases hreserve
  obtain ⟨n, d₂, hlabel, hact⟩ := drafting_bind_ok hact
  cases hlabel
  cases hact
  refine ⟨?_, rfl⟩
  simp [Draft.label]

theorem Builds.branchOn (hS : S.Valid) (hw : Builds S w ev)
    (hst : S.ctx.function.Stands id (S.ctx.function.reads false id .operand) open_) (hb : Books S.ctx s)
    (hk : S.ctx.function.kind? id = some .int) (hr : branchOn w id s = .ok (b, t)) :
    Branched S (S.reading.truth ev false id) open_ s s t b := by
  obtain ⟨y, s₁, hoperand, hr⟩ := bind_ok hr
  obtain ⟨b', s₂, hon, hr⟩ := bind_ok hr
  obtain ⟨_, s₃, hrelease, hr⟩ := bind_ok hr
  cases hr
  obtain ⟨rfl, rfl⟩ := onSlot_ok hon
  have hchild := hw.operand hst hb hoperand
  have hreserved : Along S.ctx s₁ { s₁ with draft := s₁.draft.reserve.2 } :=
    hchild.along.books.along.redraft (Draft.before_reserve hchild.along.books.clean)
  have hfreed := release_ok (hchild.along.trans hreserved) hchild.lent.redraft hrelease
  have hlabel : t.draft.label = s₁.draft.label + 1 := by
    rw [hfreed.draft]
    simp [Draft.reserve, Draft.label]
  refine ⟨hfreed.along, hfreed.along.since.toGrows, hlabel, fun hdecides hready => ?_⟩
  have hfinal := (hreserved.since.toGrows.trans hfreed.grows).final hready.final
  have hrun := hchild.runs ⟨hfinal, hready.scope, hready.live, hready.agrees, hready.pc⟩
  refine (hrun.widen (Nat.le_refl _) (by omega)).bind ?_
  rintro o τ m₁ ⟨hpc, ha, hheld⟩
  obtain ⟨v, hv, hy⟩ := hheld.read ha
  obtain ⟨ky, y⟩ := y
  obtain rfl : ky = .int := Option.some.inj (hchild.kind.symm.trans hk)
  obtain ⟨i, rfl, -⟩ := Registers.int_of_get? hy
  refine .silent hv ?_
  refine .decides hS hdecides hpc rfl rfl (hpc ▸ hchild.along.since.label) (by omega) ha.going hy ?_
  exact .ok (Nat.le_refl _) ⟨rfl, ha.goto _⟩

theorem Branched.inRegion {e : Eval Bool} {act : Lower Branch}
    (h : ∀ regions next u, act { s with regions := regions, nextRegion := next } = .ok (b, u) →
      Branched S e open_ { s with regions := regions, nextRegion := next } { s with regions := regions, nextRegion := next } u b)
    (hb : Books S.ctx s) (hr : Lowering.inRegion act s = .ok (b, t)) : Branched S e open_ s s t b := by
  obtain ⟨u, rest, hact, rfl⟩ := inRegion_ok hr
  have hinner := h _ _ u hact
  have halong := ((hb.along.inRegion _ _).trans hinner.along).inRegion rest u.nextRegion
  refine ⟨halong, halong.since.toGrows, hinner.fall, fun hdecides hready => ?_⟩
  have hf := hready.final
  exact hinner.runs hdecides
    ⟨⟨hf.code, hf.blocks, hf.loops, hf.texts, hf.sites, hf.sizes⟩, hready.scope, hready.live, hready.agrees, hready.pc⟩

namespace Faithful

theorem compose_not {operand : NodeId} (hw : Faithful S w ev)
    (hst : S.ctx.function.Stands operand (S.ctx.function.reads false operand .operand) open_) (hb : Books S.ctx s)
    (hr : compose w (.not operand) s = .ok (b, t)) :
    Branched S ((Connective.not operand).truth S.reading ev) open_ s s t b := by
  obtain ⟨b₁, s₁, hcondition, hr⟩ := bind_ok hr
  cases hr
  have h := hw.condition hst hb hcondition
  refine ⟨h.along, h.grows, h.fall, fun hdecides hready => ?_⟩
  refine (h.runs hdecides.of_negate hready).bind ?_
  rintro truth τ m₁ ⟨hpc, ha⟩
  refine .ok (Nat.le_refl _) ⟨?_, ha⟩
  cases truth <;> exact hpc

/-- The first operand leaves where the whole does when it is decisive, and falls into the second otherwise. -/
theorem compose_shortCircuit {decisive : Bool} {first second : NodeId} (hw : Faithful S w ev)
    (hst₁ : S.ctx.function.Stands first (S.ctx.function.reads false first .operand) open_)
    (hst₂ : S.ctx.function.Stands second (S.ctx.function.reads false second .operand) open_)
    (hb : Books S.ctx s) (hr : compose w (.shortCircuit decisive first second) s = .ok (b, t)) :
    Branched S ((Connective.shortCircuit decisive first second).truth S.reading ev) open_ s s t b := by
  obtain ⟨b₁, s₁, hcondition₁, hr⟩ := bind_ok hr
  obtain ⟨ps, s₂, hdrafting, hr⟩ := bind_ok hr
  obtain ⟨b₂, s₃, hcondition₂, hr⟩ := bind_ok hr
  cases hr
  obtain ⟨d, hdefer, rfl⟩ := drafting_ok hdrafting
  have hfirst := hw.condition hst₁ hb hcondition₁
  obtain ⟨hbefore, hlabel, -⟩ := Branch.before_defer (a := 0) hfirst.along.books.clean hdefer
  have hdeferred := hfirst.along.books.along.redraft hbefore
  have hsecond := Branched.inRegion (fun _ _ u hact => hw.condition hst₂ (hdeferred.inRegion _ _).books hact)
    hdeferred.books hcondition₂
  have hlabel₁ : s₁.draft.label ≤ t.draft.label := hdeferred.since.label.trans hsecond.along.since.label
  refine ⟨hfirst.along.trans (hdeferred.trans hsecond.along), hfirst.grows.trans (hdeferred.since.toGrows.trans hsecond.grows),
    ?_, fun {yes no _ _ _ _} hdecides hready => ?_⟩
  · rw [Branch.fallThrough_addSites]
    exact hsecond.fall
  · obtain ⟨hd₂, haims⟩ := hdecides.of_addSites
    have hfinal₂ := hsecond.grows.final hready.final
    have hfinal₁ := hdeferred.since.toGrows.final hfinal₂
    obtain ⟨-, -, hd₁⟩ := Branch.before_defer (a := if decisive then yes else no) hfirst.along.books.clean hdefer
    have hrun₁ := hfirst.runs (hd₁ _ hfinal₂.code haims) ⟨hfinal₁, hready.scope, hready.live, hready.agrees, hready.pc⟩
    refine (hrun₁.widen (Nat.le_refl _) hlabel₁).bind ?_
    rintro truth τ m₁ ⟨hpc, ha⟩
    by_cases htruth : truth = decisive
    · rw [if_pos htruth]
      refine .ok (Nat.le_refl _) ⟨?_, ha⟩
      subst htruth
      cases truth <;> exact hpc
    · rw [if_neg htruth]
      have hfalls : m₁.pc = d.label := by
        rw [hlabel, hfirst.fall, hpc]
        cases truth <;> cases decisive <;> first | rfl | exact absurd rfl htruth
      have hlive : ∀ y, _ → s₁.pool.isLive y = true := fun y hy => hfirst.along.since.live y (hready.live y hy)
      have hrun₂ := hsecond.runs hd₂ ⟨hready.final, hready.scope, hlive, ha, hfalls⟩
      exact (hrun₂.widen (hfirst.grows.label.trans hdeferred.since.label) (Nat.le_refl _)).credit (Nat.zero_le _) (Nat.le_refl _)

theorem compose {c : Connective} (hw : Faithful S w ev)
    (hst : ∀ a ∈ c.operands, S.ctx.function.Stands a (S.ctx.function.reads false a .operand) open_) (hb : Books S.ctx s)
    (hr : Lowering.compose w c s = .ok (b, t)) : Branched S (c.truth S.reading ev) open_ s s t b := by
  cases c with
  | not operand => exact hw.compose_not (hst operand List.mem_cons_self) hb hr
  | shortCircuit decisive first second =>
    exact hw.compose_shortCircuit (hst first List.mem_cons_self) (hst second (List.mem_cons_of_mem _ List.mem_cons_self)) hb hr

end Faithful

/-! ## Connectives read as values -/

/-- A jump left open and patched later. -/
theorem Draft.Becomes.jump_at {d : Draft} {code : Array Instruction} {p a : Nat} (h : d.Becomes code)
    (hp : d.code[p]? = some (.goto .pending)) (ha : Patch.Aims ⟨p⟩ code a) : code[p]? = some (.goto (.address a)) := by
  obtain ⟨a', ha'⟩ := h.open_ hp rfl
  obtain ⟨ins, hins, htarget⟩ := ha
  rw [ha'] at hins
  cases hins
  cases htarget
  exact ha'

/-- The code that makes a number of where control is: one where it falls in, zero for the jumps `ps`. -/
structure Numbered (d e : Draft) (r : Slot) (ps : List Patch) : Prop where
  before : d.Before e
  label : e.label = d.label + 3
  one : ∀ code, e.Becomes code → code[d.label]? = some (.const r (.int 1))
  skip : ∀ code, e.Becomes code → code[d.label + 1]? = some (.goto (.address (d.label + 3)))
  zero : ∀ code, e.Becomes code → code[d.label + 2]? = some (.const r (.int 0))
  aims : ∀ code, e.Becomes code → ∀ p ∈ ps, p.Aims code (d.label + 2)

theorem Lowering.numbered_ok {r : TypedSlot} {ps : List Patch} (hclean : s.draft.Clean)
    (hr : (do
      emit (.const r.slot (.int 1))
      let skip ← gotoPending
      drafting (Drafting.patchAll ps (.address (← label)))
      emit (.const r.slot (.int 0))
      drafting (Drafting.patch skip (.address (← label)))
      return { slot := some r } : Lower Visited) s = .ok (visited, t)) :
    visited = ⟨some r, false⟩ ∧ ∃ e, t = { s with draft := e } ∧ Numbered s.draft e r.slot ps := by
  obtain ⟨_, s₁, hone, hr₁⟩ := bind_ok hr
  obtain ⟨skip, s₂, hskip, hr₂⟩ := bind_ok hr₁
  obtain ⟨here, s₃, hlabel₁, hr₃⟩ := bind_ok hr₂
  obtain ⟨_, s₄, hpatch₁, hr₄⟩ := bind_ok hr₃
  obtain ⟨_, s₅, hzero, hr₅⟩ := bind_ok hr₄
  obtain ⟨after, s₆, hlabel₂, hr₆⟩ := bind_ok hr₅
  obtain ⟨_, s₇, hpatch₂, hr₇⟩ := bind_ok hr₆
  cases hr₇
  obtain rfl := emit_ok hone
  obtain ⟨rfl, rfl⟩ := gotoPending_ok hskip
  obtain ⟨rfl, rfl⟩ := label_ok hlabel₁
  obtain ⟨d₄, hall, rfl⟩ := drafting_ok hpatch₁
  obtain rfl := emit_ok hzero
  obtain ⟨rfl, rfl⟩ := label_ok hlabel₂
  obtain ⟨e, hone_, rfl⟩ := drafting_ok hpatch₂
  -- The four edits in a row, each seen from the finished draft.
  have h₁ := Draft.before_add hclean (.const r.slot (.int 1))
  have h₂ := Draft.before_add h₁.clean (.goto .pending)
  obtain ⟨h₃, hl₃, haims⟩ := before_patchAll h₂.clean hall
  have h₄ := Draft.before_add h₃.clean (.const r.slot (.int 0))
  obtain ⟨h₅, hl₅, haim⟩ := before_patchEdit h₄.clean hone_
  simp only [Draft.label_add] at hl₃ hl₅ haims haim
  refine ⟨rfl, e, rfl, h₁.trans (h₂.trans (h₃.trans (h₄.trans h₅))), by omega, fun code hc => ?_, fun code hc => ?_,
    fun code hc => ?_, fun code hc => ?_⟩
  · have hbecomes := (h₂.trans (h₃.trans (h₄.trans h₅))).becomes code hc
    exact hbecomes.at ((Draft.getElem?_push _ _ _).trans (if_pos rfl)) nofun rfl
  · have hbecomes := (h₃.trans (h₄.trans h₅)).becomes code hc
    have haim := haim code hc
    rw [hl₃] at haim
    refine hbecomes.jump_at ?_ haim
    exact (Draft.getElem?_push _ _ _).trans (if_pos (Draft.label_add _ _).symm)
  · have hbecomes := h₅.becomes code hc
    have hat : d₄.label = s.draft.label + 2 := by omega
    rw [← hat]
    exact hbecomes.at ((Draft.getElem?_push _ _ _).trans (if_pos rfl)) nofun rfl
  · exact haims code ((h₄.trans h₅).becomes code hc)

namespace Entry

/-- Nobody reads the truth: both ways lead to the next position. -/
theorem logicalEffect {c : Connective} (hw : Faithful S w ev) (h : Entry S s₀ s id false open_ hint)
    (hc : S.ctx.function.Completes id)
    (hst : ∀ a ∈ c.operands, S.ctx.function.Stands a (S.ctx.function.reads false a .operand) open_) {s₁ : State}
    (hcompose : compose w c s = .ok (b, s₁)) (hr : drafting (b.resolve true (.address s₁.draft.label)) s₁ = .ok ((), t)) :
    Lowered S (c.truth S.reading ev >>= fun truth => pure (given false (.ofBool truth))) id false open_ hint offer s₀ s t {} := by
  obtain ⟨d, hresolve, rfl⟩ := drafting_ok hr
  have hbranch := hw.compose hst h.along.books hcompose
  obtain ⟨hbefore, hlabel, hdecides⟩ := Branch.before_resolve hbranch.along.books.clean hresolve
  refine h.ofEffect (hbranch.along.redraft hbefore) (fun hready => ?_) hc
  have hfinal := (Grows.redraft hbefore).final hready.final
  have hrun := hbranch.runs (hdecides _ hready.final.code)
    ⟨hfinal, hready.scope, hready.live, hready.agrees, hready.pc⟩
  refine (hrun.widen (Nat.le_refl _) (Nat.le_of_eq hlabel.symm)).bind ?_
  rintro truth τ m₁ ⟨hpc, ha⟩
  refine .ok (Nat.zero_le _) ⟨?_, rfl, ha⟩
  rw [hpc, ← hbranch.fall]
  show _ = d.label
  rw [hlabel]
  cases truth <;> rfl

/-- One where control falls through, zero where the condition leaves. -/
theorem logicalValue {c : Connective} (hS : S.Valid) (hw : Faithful S w ev) (h : Entry S s₀ s id demanded open_ hint)
    (hc : S.ctx.function.Completes id) (hk : S.ctx.function.kind? id = some .int)
    (hst : ∀ a ∈ c.operands, S.ctx.function.Stands a (S.ctx.function.reads false a .operand) open_)
    (hr : Lowering.logicalValue S.ctx w id c hint s = .ok (visited, t)) :
    Lowered S (c.truth S.reading ev >>= fun truth => pure (given demanded (.ofBool truth))) id demanded open_ hint offer s₀ s t
      visited := by
  obtain ⟨b, s₁, hcompose, hr⟩ := bind_ok hr
  have hbranch := hw.compose hst h.along.books hcompose
  obtain ⟨read, _, hread, hr⟩ := bind_ok hr
  cases hread
  rw [hS.isDemanded hbranch.along.books h.stands] at hr
  cases demanded with
  | false =>
    obtain ⟨here, _, hlabel, hr₁⟩ := bind_ok hr
    obtain ⟨rfl, rfl⟩ := label_ok hlabel
    obtain ⟨_, s₂, hresolve, hr₂⟩ := bind_ok hr₁
    cases hr₂
    exact h.logicalEffect hw hc hst hcompose hresolve
  | true =>
    obtain ⟨ps, s₂, hdrafting, hr₁⟩ := bind_ok hr
    obtain ⟨r, s₃, hslot, hr₂⟩ := bind_ok hr₁
    obtain ⟨d, hdefer, rfl⟩ := drafting_ok hdrafting
    obtain ⟨hbefore, hlabel, hdecides⟩ := Branch.before_defer (a := s₃.draft.label + 2) hbranch.along.books.clean hdefer
    have hdeferred := hbranch.along.redraft hbefore
    have hslotted := (h.advance hdeferred).resultSlot hslot
    obtain ⟨rfl, e, rfl, hnum⟩ := numbered_ok hslotted.along.books.clean hr₂
    have hdraft : s₃.draft.label = s₁.draft.label := (congrArg _ hslotted.draft).trans hlabel
    have hend : Along S.ctx s₃ { s₃ with draft := e } := hslotted.along.books.along.redraft hnum.before
    have htarget := hslotted.target r rfl
    have hkr : r.kind = .int := Option.some.inj (htarget.kind.symm.trans hk)
    refine hslotted.lowered hdeferred.since.toGrows hend fun hready => ?_
    have hcode := hready.final.code
    have hfinal₂ := (hslotted.grows.trans hend.since.toGrows).final hready.final
    have hfinal₁ := (Grows.redraft hbefore).final hfinal₂
    have haims := hnum.aims _ hcode
    have hrun := hbranch.runs (hdecides _ hfinal₂.code haims)
      ⟨hfinal₁, hready.scope, fun y hy => h.along.since.live y (hready.live y hy), hready.agrees, hready.pc⟩
    have hlo := hbranch.grows.label
    have hhi : e.label = s₁.draft.label + 3 := by rw [hnum.label, hdraft]
    refine (hrun.widen (Nat.le_refl _) (by show _ ≤ e.label; omega)).bind ?_
    rintro truth τ m₁ ⟨hpc, ha⟩
    have hhas : m₁.registers.has r = true := hready.final.covered ha htarget.has
    cases truth with
    | true =>
      have hat : m₁.pc = s₃.draft.label := by rw [hpc, hdraft, hbranch.fall]; rfl
      have hconst : S.code[m₁.pc]? = some (.const r.slot (.int 1)) := hat ▸ hnum.one _ hcode
      have hone := Image.performs_const hconst hhas hkr.symm
      refine .writes hone (by omega) (by show _ < e.label; omega) ha htarget.loose hhas fun hstored => ?_
      have hskip : S.code[(m₁.wrote r (.int 1)).pc]? = some (.goto (.address e.label)) := by
        rw [show (m₁.wrote r (.int 1)).pc = s₃.draft.label + 1 from congrArg (· + 1) hat, hnum.label]
        exact hnum.skip _ hcode
      refine .goto hS hskip ?_ ?_ hstored.agrees.going ?_
      · show s.draft.label ≤ m₁.pc + 1
        omega
      · show m₁.pc + 1 < e.label
        omega
      · exact .ok (Nat.zero_le _) ⟨rfl, hc, hslotted.delivers hend.since hready.live ⟨hstored.agrees.goto _, hstored.value⟩⟩
    | false =>
      have hat : m₁.pc = s₃.draft.label + 2 := hpc
      have hconst : S.code[m₁.pc]? = some (.const r.slot (.int 0)) := hat ▸ hnum.zero _ hcode
      have hzero := Image.performs_const hconst hhas hkr.symm
      refine .writes hzero (by omega) (by show _ < e.label; omega) ha htarget.loose hhas fun hstored => ?_
      refine .ok (Nat.zero_le _) ⟨?_, hc, hslotted.delivers hend.since hready.live hstored⟩
      show m₁.pc + 1 = e.label
      omega

/-- A short-circuit operator as a connective. -/
theorem node_shortCircuit {op : BinaryOp} {decisive : Bool} {a c : NodeId} {type : ValueType}
    (hop : op.form = .shortCircuit decisive) : S.reading.node ev demanded S.fuel ⟨.binary op a c, type⟩ =
      ((Connective.shortCircuit decisive a c).truth S.reading ev >>= fun truth => pure (given demanded (.ofBool truth))) := by
  have hdecisive : op.decisive? = some decisive := by cases op <;> cases hop <;> rfl
  simp only [Reading.node, hdecisive, Connective.truth, bind_assoc]
  refine bind_congr fun truth => ?_
  by_cases h : truth = decisive
  · rw [if_pos h, if_pos h, pure_bind]
  · rw [if_neg h, if_neg h]
    rfl

theorem binary {op : BinaryOp} {a c : NodeId} {type : ValueType} (hS : S.Valid) (hw : Faithful S w ev)
    (h : Entry S s₀ s id demanded open_ hint) (hn : S.ctx.function.node? id = some ⟨.binary op a c, type⟩)
    (hr : Lowering.binary S.ctx w id op a c hint s = .ok (visited, t)) :
    Visits S ev ⟨.binary op a c, type⟩ id demanded open_ hint offer s₀ s t visited := by
  cases hop : op.form with
  | instruction make => exact h.binaryInstruction hop hS hw.toBuilds hn hr
  | shortCircuit decisive =>
    have hkind : S.ctx.function.kind? id = some .int := by
      rw [hS.shaped.kind_eq h.stands hn rfl]
      cases op <;> cases hop <;> rfl
    have hedges : (Expr.binary op a c).edges = [(a, .operand), (c, .operand)] := by
      cases op <;> cases hop <;> rfl
    have hst : ∀ x ∈ [a, c], S.ctx.function.Stands x (S.ctx.function.reads false x .operand) open_ := by
      intro x hx
      refine h.stands.child hn (e := .operand) ?_
      rw [hedges]
      simpa using hx
    simp only [Lowering.binary, hop] at hr
    unfold Visits
    rw [node_shortCircuit hop]
    exact h.logicalValue hS hw (hS.completes h.stands hn rfl) hkind hst hr

end Entry

end SlotCode
