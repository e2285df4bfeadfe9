/-
  SlotCode.Proofs.Coverage — the registers that are surely written where control comes to.

  A `Coverage` gives every address a set of registers: parameters, variables and what
  every path to the address has written. It is right for code when every instruction
  reads only what its address has, and when every address that control may go to has at
  most what was there before and the register just written (`Draft.Sourced`).

  While lowering runs, the coverage of the next position may still be cut down, since
  nothing leaves that position yet; what is behind stays. `Covered` is the invariant:
  the code so far is sourced, the slot of a value built in an open region is covered at
  the next position, and so is, for every open block or loop, what was covered when it
  was opened (`Bases`). The open jumps out of a block or loop come from positions that
  cover at least that.

  `Onward` says that lowering has only added to what it knew. Proved: how the invariant
  follows a change of the books (`Covered.quiet`), an instruction more (`Covered.push`) and
  an edit behind the next position (`Covered.mend`); and where paths meet, the coverage
  becomes what all of them have (`Covered.meet`).
-/

import Mathlib.Data.Set.Basic
import SlotCode.Proofs.TypedBooks

namespace SlotCode

/-! ## Code and what it may read -/

/-- The registers that are surely written when control comes to an address. -/
def Coverage := Nat → Set TypedSlot

namespace Coverage

instance : CoeFun Coverage fun _ => Nat → Set TypedSlot := ⟨fun K => K⟩

/-- Another set at one address. -/
def put (K : Coverage) (n : Nat) (M : Set TypedSlot) : Coverage := fun i => if i = n then M else K i

theorem put_self (K : Coverage) (n : Nat) (M : Set TypedSlot) : K.put n M n = M := if_pos rfl

theorem put_of_ne (K : Coverage) {n i : Nat} (M : Set TypedSlot) (h : i ≠ n) : K.put n M i = K i := if_neg h

end Coverage

namespace Instruction

/-- Where control may go from the instruction at `i`. -/
def next (i : Nat) : Instruction → List Nat
  | .goto (.address a) => [a]
  | .jumpIf _ _ (.address a) => [i + 1, a]
  | .goto .pending | .unreachable | .stop => []
  | _ => [i + 1]

/-- The registers read and the register written; those of a call are in its site. -/
def operands (sites : Array CallSite) : Instruction → Option (List TypedSlot × Option TypedSlot)
  | .call site => sites[site]?.map fun c => (c.reads, c.result)
  | i => some (i.reads, i.writes)

/-- The instruction at `i` reads what is covered, and control goes, within `n`, only where no more is
    covered than is then written. -/
def Sourced (K : Coverage) (sites : Array CallSite) (n i : Nat) (ins : Instruction) : Prop :=
  ∃ reads write, ins.operands sites = some (reads, write) ∧ (∀ x ∈ reads, x ∈ K i) ∧
    ∀ j ∈ ins.next i, j ≤ n ∧ ∀ x ∈ K j, x ∈ K i ∨ write = some x

variable {K K' : Coverage} {sites sites' : Array CallSite} {n n' i : Nat} {ins : Instruction}

theorem operands_mono (h : ∀ (k : Nat) c, sites[k]? = some c → sites'[k]? = some c) {o : List TypedSlot × Option TypedSlot}
    (ho : ins.operands sites = some o) : ins.operands sites' = some o := by
  cases ins with
  | call site =>
    obtain ⟨c, hc, hco⟩ := Option.map_eq_some_iff.1 ho
    exact Option.map_eq_some_iff.2 ⟨c, h site c hc, hco⟩
  | _ => exact ho

/-- An instruction that writes a register is no call by its own fields, and control falls through. -/
theorem of_writes {x : TypedSlot} (h : ins.writes = some x) (sites : Array CallSite) (i : Nat) :
    ins.operands sites = some (ins.reads, some x) ∧ ins.next i = [i + 1] := by
  cases ins <;> simp_all [writes, operands, next]

/-- An open jump may go to any address that covers no more than it does. -/
theorem Sourced.retarget (h : ins.Sourced K sites n i) (hopen : ins.target? = some .pending) {a : Nat} (ha : a ≤ n)
    (hcover : ∀ x ∈ K a, x ∈ K i) : (ins.retarget (.address a)).Sourced K sites n i := by
  obtain ⟨reads, write, hop, hreads, hnext⟩ := h
  cases ins with
  | goto target =>
    refine ⟨reads, write, hop, hreads, fun j hj => ?_⟩
    obtain rfl := List.mem_singleton.1 hj
    exact ⟨ha, fun x hx => .inl (hcover x hx)⟩
  | jumpIf expected cond target =>
    cases Option.some.inj hopen
    refine ⟨reads, write, hop, hreads, fun j hj => ?_⟩
    rcases List.mem_pair.1 hj with rfl | rfl
    · exact hnext _ List.mem_cons_self
    · exact ⟨ha, fun x hx => .inl (hcover x hx)⟩
  | _ => cases hopen

theorem Sourced.mono (h : ins.Sourced K sites n i) (hsites : ∀ (k : Nat) c, sites[k]? = some c → sites'[k]? = some c)
    (hn : n ≤ n') (hi : K' i = K i) (hK : ∀ j ≤ n, ∀ x ∈ K' j, x ∈ K j) : ins.Sourced K' sites' n' i := by
  obtain ⟨reads, write, hop, hreads, hnext⟩ := h
  refine ⟨reads, write, operands_mono hsites hop, fun x hx => hi ▸ hreads x hx, fun j hj => ?_⟩
  obtain ⟨hle, hcover⟩ := hnext j hj
  exact ⟨Nat.le_trans hle hn, fun x hx => hi ▸ hcover x (hK j hle x hx)⟩

end Instruction

namespace Draft

/-- Every instruction of the code is sourced. -/
def Sourced (K : Coverage) (sites : Array CallSite) (d : Draft) : Prop :=
  ∀ (i : Nat) (ins : Instruction), d.code[i]? = some ins → ins.Sourced K sites d.label i

variable {K K' : Coverage} {sites : Array CallSite} {d d' : Draft} {ins : Instruction}

theorem lt_label {i : Nat} (h : d.code[i]? = some ins) : i < d.label := (Array.getElem?_eq_some_iff.1 h).1

/-- The coverage of the next position may shrink, and what comes after it does not matter. -/
theorem Sourced.cut (h : d.Sourced K sites) (hsame : ∀ i < d.label, K' i = K i) (hcut : ∀ x ∈ K' d.label, x ∈ K d.label) :
    d.Sourced K' sites := by
  intro i ins hi
  refine (h i ins hi).mono (fun _ _ hc => hc) (Nat.le_refl _) (hsame i (lt_label hi)) fun j hj x hx => ?_
  rcases Nat.lt_or_eq_of_le hj with hlt | rfl
  · exact hsame j hlt ▸ hx
  · exact hcut x hx

theorem Sourced.push (h : d.Sourced K sites) (hd : d'.code = d.code.push ins) (hsame : ∀ i ≤ d.label, K' i = K i)
    (hins : ins.Sourced K' sites (d.label + 1) d.label) : d'.Sourced K' sites := by
  have hlabel : d'.label = d.label + 1 := by simp [label, hd]
  intro i other hi
  rw [hd, Array.getElem?_push] at hi
  rw [hlabel]
  split at hi
  · rename_i heq
    cases hi
    exact heq ▸ hins
  · refine (h i other hi).mono (fun _ _ hc => hc) (Nat.le_succ _) (hsame i (Nat.le_of_lt (lt_label hi))) ?_
    exact fun j hj x hx => hsame j hj ▸ hx

theorem Sourced.set (h : d.Sourced K sites) {p : Nat} (hd : d'.code = d.code.setIfInBounds p ins)
    (hins : ins.Sourced K sites d.label p) : d'.Sourced K sites := by
  have hlabel : d'.label = d.label := by simp [label, hd]
  intro i other hi
  rw [hd, Array.getElem?_setIfInBounds] at hi
  rw [hlabel]
  split at hi
  · rename_i heq
    split at hi
    · cases hi
      exact heq ▸ hins
    · cases hi
  · exact h i other hi

end Draft

/-- The node is typed as one that never completes. -/
def Function.NeverEnds (f : Function) (id : NodeId) : Prop := ∃ n, f.node? id = some n ∧ n.type = .unreachable

/-- Some exit names the block. -/
def Function.Leaves (f : Function) (name : BlockId) : Prop := ∃ id n, f.node? id = some n ∧ n.expr = .exitBlock name

namespace Lowering

/-! ## The invariant -/

/-- What lowering inside blocks, loops and regions relies on: what was covered when each open block and
    loop was opened, and the values that had been built in the open regions other than the innermost
    when that one was opened. -/
structure Bases where
  blocks : List (BlockId × Set TypedSlot)
  loops : List (Set TypedSlot)
  regions : List Region
  outer : NodeId → TypedSlot → Region → Prop

/-- What some open block or loop relies on. -/
def Bases.all (B : Bases) : Set TypedSlot := {x | (∃ base ∈ B.blocks, x ∈ base.2) ∨ ∃ base ∈ B.loops, x ∈ base}

/-- The jumps come from before `n`, from where at least `base` is covered. -/
def Leaving (K : Coverage) (n : Nat) (base : Set TypedSlot) (jumps : List Patch) : Prop :=
  ∀ p ∈ jumps, p.position < n ∧ ∀ x ∈ base, x ∈ K p.position

/-- Only a block that some exit names is left by jumps. -/
structure BlockFrame.Waits (f : Function) (K : Coverage) (n : Nat) (base : BlockId × Set TypedSlot) (frame : BlockFrame) :
    Prop where
  name : frame.block = base.1
  breaks : Leaving K n base.2 frame.breaks
  left : frame.breaks = [] ∨ f.Leaves base.1

/-- At the header of a loop no more than `base` is covered. -/
structure LoopFrame.Waits (K : Coverage) (n : Nat) (base : Set TypedSlot) (frame : LoopFrame) : Prop where
  bound : frame.header ≤ n
  header : ∀ x ∈ K frame.header, x ∈ base
  breaks : Leaving K n base frame.breaks

structure Covered (ctx : Context) (B : Bases) (K : Coverage) (s : State) : Prop where
  code : s.draft.Sourced K s.sites
  fixed : ∀ x ∈ ctx.params ++ ctx.vars, x ∈ K s.draft.label
  kinds : ∀ id x r, (s.node id).progress = .built (some x) r → ctx.function.kind? id = some x.kind
  held : ∀ id x r, (s.node id).progress = .built (some x) r → r ∈ s.regions → x ∈ K s.draft.label
  young : ∀ id slot r, (s.node id).progress = .built slot r → r < s.nextRegion
  regions : s.regions = B.regions
  sorted : (s.nextRegion :: s.regions).Pairwise (fun a b => b < a)
  opened : wholeFunction < s.nextRegion
  outer : ∀ id x r, (s.node id).progress = .built (some x) r → r ∈ s.regions.tail →
    B.outer id x r ∨ x ∈ ctx.params ++ ctx.vars
  bases : ∀ x ∈ B.all, x ∈ K s.draft.label
  blocks : List.Forall₂ (BlockFrame.Waits ctx.function K s.draft.label) B.blocks s.blocks
  loops : List.Forall₂ (LoopFrame.Waits K s.draft.label) B.loops s.loops
  tallies : s.demand.tallies = ctx.function.tallies
  /-- A node that never completes is lowered once only. -/
  spent : ∀ id, ctx.function.NeverEnds id →
    (s.left id).consumers ≤ if (s.node id).progress = .untouched then 1 else 0

/-- Nothing that is covered behind or here gets lost on the way to `t`. -/
structure Onward (s : State) (K : Coverage) (t : State) (K' : Coverage) : Prop where
  label : s.draft.label ≤ t.draft.label
  same : ∀ i ≤ s.draft.label, K' i = K i
  grows : ∀ x ∈ K s.draft.label, x ∈ K' t.draft.label
  left : ∀ id, (t.left id).consumers ≤ (s.left id).consumers

variable {α β : Type} {ctx : Context} {B : Bases} {K K' : Coverage} {s t : State} {id : NodeId}

theorem Onward.refl (s : State) (K : Coverage) : Onward s K s K :=
  ⟨Nat.le_refl _, fun _ _ => rfl, fun _ hx => hx, fun _ => Nat.le_refl _⟩

theorem Onward.trans {u : State} {K'' : Coverage} (h : Onward s K t K') (h' : Onward t K' u K'') : Onward s K u K'' :=
  ⟨Nat.le_trans h.label h'.label, fun i hi => (h'.same i (Nat.le_trans hi h.label)).trans (h.same i hi),
    fun x hx => h'.grows x (h.grows x hx), fun id => Nat.le_trans (h'.left id) (h.left id)⟩

theorem Onward.of_code (hdraft : t.draft = s.draft) (hdemand : t.demand = s.demand) (K : Coverage) : Onward s K t K :=
  ⟨by rw [hdraft], fun _ _ => rfl, fun x hx => by rw [hdraft]; exact hx, fun id => by rw [State.left, hdemand, State.left]⟩

/-- The values built in the regions open at `s` have been there at `s`, or are in fixed slots. -/
def Shut (ctx : Context) (s t : State) : Prop :=
  ∀ id x r, r ∈ s.regions → (t.node id).progress = .built (some x) r →
    (s.node id).progress = .built (some x) r ∨ x ∈ ctx.params ++ ctx.vars

/-! ## Changes of the books -/

/-- A step that leaves the code, the frames and the regions alone; it may use up consumers, add call
    sites, and change one node at a time. -/
structure Quietly (s t : State) : Prop where
  draft : t.draft = s.draft
  frames : t.blocks = s.blocks ∧ t.loops = s.loops
  regions : t.regions = s.regions ∧ t.nextRegion = s.nextRegion
  tallies : t.demand.tallies = s.demand.tallies
  sites : ∀ (k : Nat) c, s.sites[k]? = some c → t.sites[k]? = some c
  left : ∀ id, (t.left id).consumers ≤ (s.left id).consumers

theorem Quietly.onward (h : Quietly s t) (K : Coverage) : Onward s K t K :=
  ⟨by rw [h.draft], fun _ _ => rfl, fun x hx => by rw [h.draft]; exact hx, h.left⟩

/-- The invariant after a quiet step, when the nodes are in order. -/
theorem Covered.quiet (h : Covered ctx B K s) (hq : Quietly s t)
    (hbuilt : ∀ id slot r, (t.node id).progress = .built slot r → r < s.nextRegion ∧ ∀ x, slot = some x →
      (s.node id).progress = .built (some x) r ∨ (ctx.function.kind? id = some x.kind ∧ x ∈ K s.draft.label ∧
        (r ∈ s.regions.tail → x ∈ ctx.params ++ ctx.vars)))
    (hspent : ∀ id, ctx.function.NeverEnds id →
      (t.left id).consumers ≤ if (t.node id).progress = .untouched then 1 else 0) : Covered ctx B K t := by
  obtain ⟨hblocks, hloops⟩ := hq.frames
  obtain ⟨hregions, hnext⟩ := hq.regions
  refine ⟨?_, ?_, ?_, ?_, ?_, ?_, ?_, ?_, ?_, ?_, ?_, ?_, ?_, hspent⟩
  · intro i ins hi
    rw [hq.draft] at hi ⊢
    exact (h.code i ins hi).mono hq.sites (Nat.le_refl _) rfl fun _ _ _ hx => hx
  · rw [hq.draft]
    exact h.fixed
  · intro id x r hp
    exact ((hbuilt id _ r hp).2 x rfl).elim (h.kinds id x r) fun hx => hx.1
  · intro id x r hp hr
    rw [hregions] at hr
    rw [hq.draft]
    exact ((hbuilt id _ r hp).2 x rfl).elim (fun hp => h.held id x r hp hr) fun hx => hx.2.1
  · intro id slot r hp
    rw [hnext]
    exact (hbuilt id slot r hp).1
  · rw [hregions, h.regions]
  · rw [hregions, hnext]
    exact h.sorted
  · rw [hnext]
    exact h.opened
  · intro id x r hp hr
    rw [hregions] at hr
    exact ((hbuilt id _ r hp).2 x rfl).elim (fun hp => h.outer id x r hp hr) fun hx => .inr (hx.2.2 hr)
  · rw [hq.draft]
    exact h.bases
  · rw [hblocks, hq.draft]
    exact h.blocks
  · rw [hloops, hq.draft]
    exact h.loops
  · rw [hq.tallies]
    exact h.tallies

/-- A quiet step that builds and enters no node. -/
theorem Covered.books (h : Covered ctx B K s) (hq : Quietly s t)
    (hnodes : ∀ id, (t.node id).progress = (s.node id).progress) : Covered ctx B K t := by
  refine h.quiet hq (fun id slot r hp => ?_) fun id hid => ?_
  · rw [hnodes id] at hp
    exact ⟨h.young id slot r hp, fun x hx => .inl (hx ▸ hp)⟩
  · rw [hnodes id]
    exact Nat.le_trans (hq.left id) (h.spent id hid)

theorem quietly_setNode (s : State) (id : NodeId) (n : NodeState) : Quietly s (s.setNode id n) :=
  ⟨rfl, ⟨rfl, rfl⟩, ⟨rfl, rfl⟩, rfl, fun _ _ h => h, fun _ => Nat.le_refl _⟩

/-- One node is entered, built or vacated. -/
theorem Covered.setNode (h : Covered ctx B K s) {n : NodeState}
    (hbuilt : ∀ slot r, n.progress = .built slot r → r < s.nextRegion ∧ ∀ x, slot = some x →
      ctx.function.kind? id = some x.kind ∧ x ∈ K s.draft.label ∧ (r ∈ s.regions.tail → x ∈ ctx.params ++ ctx.vars))
    (hspent : ctx.function.NeverEnds id → (s.left id).consumers = 0) : Covered ctx B K (s.setNode id n) := by
  refine h.quiet (quietly_setNode s id n) (fun i slot r hp => ?_) fun i hi => ?_
  · rw [node_setNode] at hp
    split at hp
    · rename_i hid
      obtain ⟨hr, hx⟩ := hbuilt slot r hp
      exact ⟨hr, fun x hs => .inr (hid.1 ▸ hx x hs)⟩
    · exact ⟨h.young i slot r hp, fun x hx => .inl (hx ▸ hp)⟩
  · rw [node_setNode]
    split
    · rename_i hid
      rw [← hid.1] at hi ⊢
      exact (hspent hi).le.trans (Nat.zero_le _)
    · exact h.spent i hi

/-! ## Changes of the code -/

theorem Leaving.mono {n n' : Nat} {base : Set TypedSlot} {jumps : List Patch} (h : Leaving K n base jumps)
    (hsame : ∀ i < n, K' i = K i) (hn : n ≤ n') : Leaving K' n' base jumps := by
  intro p hp
  obtain ⟨hlt, hcover⟩ := h p hp
  exact ⟨Nat.lt_of_lt_of_le hlt hn, fun x hx => hsame _ hlt ▸ hcover x hx⟩

theorem BlockFrame.Waits.mono {f : Function} {n n' : Nat} {base : BlockId × Set TypedSlot} {frame : BlockFrame}
    (h : frame.Waits f K n base) (hsame : ∀ i < n, K' i = K i) (hn : n ≤ n') : frame.Waits f K' n' base :=
  ⟨h.name, h.breaks.mono hsame hn, h.left⟩

theorem LoopFrame.Waits.mono {n n' : Nat} {base : Set TypedSlot} {frame : LoopFrame} (h : frame.Waits K n base)
    (hsame : ∀ i < n, K' i = K i) (hcut : ∀ x ∈ K' n, x ∈ K n) (hn : n ≤ n') : frame.Waits K' n' base := by
  refine ⟨Nat.le_trans h.bound hn, fun x hx => h.header x ?_, h.breaks.mono hsame hn⟩
  rcases Nat.lt_or_eq_of_le h.bound with hlt | heq
  · exact hsame _ hlt ▸ hx
  · rw [heq] at hx ⊢
    exact hcut x hx

/-- The invariant after a change of the code or of its coverage. What is covered here is given anew. -/
theorem Covered.recode (h : Covered ctx B K s) {d : Draft} (hcode : d.Sourced K' s.sites) (hlabel : s.draft.label ≤ d.label)
    (hsame : ∀ i < s.draft.label, K' i = K i) (hcut : ∀ x ∈ K' s.draft.label, x ∈ K s.draft.label)
    (hfixed : ∀ x ∈ ctx.params ++ ctx.vars, x ∈ K' d.label)
    (hheld : ∀ id x r, (s.node id).progress = .built (some x) r → r ∈ s.regions → x ∈ K' d.label)
    (hbases : ∀ x ∈ B.all, x ∈ K' d.label) : Covered ctx B K' { s with draft := d } :=
  { h with
    code := hcode
    fixed := hfixed
    held := hheld
    bases := hbases
    blocks := h.blocks.imp fun _ _ hblock => hblock.mono hsame hlabel
    loops := h.loops.imp fun _ _ hloop => hloop.mono hsame hcut hlabel }

/-- Code grows by one instruction; `M` is what is covered after it. -/
theorem Covered.push (h : Covered ctx B K s) {d : Draft} {ins : Instruction} {reads : List TypedSlot}
    {write : Option TypedSlot} {M : Set TypedSlot} (hd : d.code = s.draft.code.push ins)
    (hop : ins.operands s.sites = some (reads, write)) (hreads : ∀ x ∈ reads, x ∈ K s.draft.label)
    (hM : ∀ x ∈ K s.draft.label, x ∈ M)
    (hnext : ∀ j ∈ ins.next s.draft.label, (j = s.draft.label + 1 ∧ ∀ x ∈ M, x ∈ K s.draft.label ∨ write = some x) ∨
      (j ≤ s.draft.label ∧ ∀ x ∈ K j, x ∈ K s.draft.label ∨ write = some x)) :
    Covered ctx B (K.put (s.draft.label + 1) M) { s with draft := d } ∧
      Onward s K { s with draft := d } (K.put (s.draft.label + 1) M) := by
  have hlabel : d.label = s.draft.label + 1 := by simp [Draft.label, hd]
  have hsame : ∀ i ≤ s.draft.label, K.put (s.draft.label + 1) M i = K i := fun i hi =>
    K.put_of_ne M (by omega)
  have hhere : K.put (s.draft.label + 1) M d.label = M := by rw [hlabel, Coverage.put_self]
  have hins : ins.Sourced (K.put (s.draft.label + 1) M) s.sites (s.draft.label + 1) s.draft.label := by
    refine ⟨reads, write, hop, fun x hx => hsame _ (Nat.le_refl _) ▸ hreads x hx, fun j hj => ?_⟩
    rw [hsame _ (Nat.le_refl _)]
    rcases hnext j hj with ⟨rfl, hcover⟩ | ⟨hle, hcover⟩
    · rw [Coverage.put_self]
      exact ⟨Nat.le_refl _, hcover⟩
    · rw [hsame j hle]
      exact ⟨Nat.le_succ_of_le hle, hcover⟩
  refine ⟨h.recode (h.code.push hd hsame hins) (by omega) (fun i hi => hsame i (Nat.le_of_lt hi))
    (fun x hx => hsame _ (Nat.le_refl _) ▸ hx) ?_ ?_ ?_,
    ⟨by show s.draft.label ≤ d.label; omega, hsame, ?_, fun _ => Nat.le_refl _⟩⟩
  · rw [hhere]
    exact fun x hx => hM x (h.fixed x hx)
  · rw [hhere]
    exact fun id x r hp hr => hM x (h.held id x r hp hr)
  · rw [hhere]
    exact fun x hx => hM x (h.bases x hx)
  · show ∀ x ∈ _, x ∈ K.put (s.draft.label + 1) M d.label
    rw [hhere]
    exact hM

/-- Where paths meet, what all of them cover is covered. At least what was covered where they parted
    is among it, and the values built since then are out of reach. -/
theorem Covered.meet (h : Covered ctx B K s) (h' : Covered ctx B K' t) (ho : Onward s K t K') (hshut : Shut ctx s t)
    {M : Set TypedSlot} (hM : ∀ x ∈ K s.draft.label, x ∈ M) (hM' : ∀ x ∈ M, x ∈ K' t.draft.label) :
    Covered ctx B (K'.put t.draft.label M) t ∧ Onward s K t (K'.put t.draft.label M) := by
  have hbehind : ∀ i < t.draft.label, K'.put t.draft.label M i = K' i := fun i hi =>
    K'.put_of_ne M (Nat.ne_of_lt hi)
  have hregions : t.regions = s.regions := h'.regions.trans h.regions.symm
  refine ⟨h'.recode (d := t.draft) (h'.code.cut hbehind ?_) (Nat.le_refl _) hbehind ?_ ?_ ?_ ?_,
    ⟨ho.label, fun i hi => ?_, ?_, ho.left⟩⟩
  · rw [Coverage.put_self]
    exact hM'
  · rw [Coverage.put_self]
    exact hM'
  · rw [Coverage.put_self]
    exact fun x hx => hM x (h.fixed x hx)
  · rw [Coverage.put_self]
    intro id x r hp hr
    rw [hregions] at hr
    rcases hshut id x r hr hp with hp | hx
    · exact hM x (h.held id x r hp hr)
    · exact hM x (h.fixed x hx)
  · rw [Coverage.put_self]
    exact fun x hx => hM x (h.bases x hx)
  · rcases Nat.lt_or_eq_of_le (Nat.le_trans hi ho.label) with hlt | rfl
    · rw [hbehind i hlt, ho.same i hi]
    · rw [Coverage.put_self]
      have hat : s.draft.label = t.draft.label := Nat.le_antisymm ho.label hi
      rw [hat] at hM
      refine Set.Subset.antisymm (fun x hx => ?_) hM
      rw [← ho.same _ hi]
      exact hM' x hx
  · rw [Coverage.put_self]
    exact hM

/-! ## Edits behind the next position -/

/-- The edit keeps the code sourced and as long as it is; what it hands out satisfies `Q`. -/
def Mends (K : Coverage) (sites : Array CallSite) (n : Nat) (act : Drafting α) (Q : α → Prop) : Prop :=
  ∀ d : Draft, d.label = n → d.Sourced K sites → ∀ a d', act d = .ok a d' → d'.label = n ∧ d'.Sourced K sites ∧ Q a

theorem Covered.mend (h : Covered ctx B K s) {act : Drafting α} {Q : α → Prop} {a : α}
    (hm : Mends K s.sites s.draft.label act Q) (hr : drafting act s = .ok (a, t)) :
    Covered ctx B K t ∧ Onward s K t K ∧ Q a := by
  obtain ⟨d, hd, rfl⟩ := drafting_ok hr
  obtain ⟨hlabel, hcode, hQ⟩ := hm s.draft rfl h.code a d hd
  refine ⟨h.recode hcode hlabel.ge (fun _ _ => rfl) (fun _ hx => hx) ?_ ?_ ?_,
    ⟨hlabel.ge, fun _ _ => rfl, fun x hx => ?_, fun _ => Nat.le_refl _⟩, hQ⟩
  · rw [hlabel]
    exact h.fixed
  · rw [hlabel]
    exact h.held
  · rw [hlabel]
    exact h.bases
  · show x ∈ K d.label
    rwa [hlabel]

/-- The sites and the tail of a condition come from where at least as much is covered as where control
    falls through. -/
structure Branch.Covered (K : Coverage) (n : Nat) (b : Branch) : Prop where
  tail : b.tail.position + 1 = b.fallThrough
  fall : b.fallThrough ≤ n
  cond : ⟨.int, b.tail.cond⟩ ∈ K b.tail.position
  flow : ∀ x ∈ K b.fallThrough, x ∈ K b.tail.position
  sites : Leaving K n (K b.fallThrough) (b.whenTrue ++ b.whenFalse)

namespace Mends

variable {sites : Array CallSite} {n a : Nat} {Q : α → Prop} {R : β → Prop}

theorem bind {x : Drafting α} {f : α → Drafting β} (hx : Mends K sites n x Q) (hf : ∀ a, Q a → Mends K sites n (f a) R) :
    Mends K sites n (x >>= f) R := by
  intro d hn hd b d' hr
  have hr : EStateM.bind x f d = .ok b d' := hr
  rw [EStateM.bind] at hr
  split at hr
  · rename_i a d₁ h₁
    obtain ⟨hn₁, hd₁, hQ⟩ := hx d hn hd a d₁ h₁
    exact hf a hQ d₁ hn₁ hd₁ b d' hr
  · cases hr

theorem pure {v : α} (h : Q v) : Mends K sites n (Pure.pure v) Q := by
  intro d hn hd a d' hr
  cases hr
  exact ⟨hn, hd, h⟩

theorem fillJump {position : Nat} {ins : Instruction} (h : ins.Sourced K sites n position) :
    Mends K sites n (Drafting.fillJump position ins) (· = ⟨position⟩) := by
  intro d hn hd a d' hr
  simp only [Drafting.fillJump, Drafting.edit, Draft.fillJump, Draft.fill] at hr
  split at hr
  · rename_i hfill
    split at hfill
    · split at hfill
      · cases hfill
        cases hr
        subst hn
        exact ⟨by simp [Draft.label], hd.set rfl h, rfl⟩
      · cases hfill
    · cases hfill
  · cases hr

theorem patch {p : Patch} (ha : a ≤ n) (hp : ∀ x ∈ K a, x ∈ K p.position) :
    Mends K sites n (Drafting.patch p (.address a)) fun _ => True := by
  intro d hn hd _ d' hr
  simp only [Drafting.patch, Drafting.edit, Draft.patch] at hr
  cases hi : d.code[p.position]? with
  | none =>
    simp only [hi] at hr
    cases hr
  | some ins =>
    simp only [hi] at hr
    split at hr
    · rename_i hpatch
      split at hpatch
      · cases hpatch
      · rename_i hopen
        cases hpatch
        cases hr
        subst hn
        exact ⟨by simp [Draft.label], hd.set rfl ((hd _ _ hi).retarget hopen ha hp), trivial⟩
      · cases hpatch
    · cases hr

theorem patchAll {ps : List Patch} (ha : a ≤ n) (hp : ∀ p ∈ ps, ∀ x ∈ K a, x ∈ K p.position) :
    Mends K sites n (Drafting.patchAll ps (.address a)) fun _ => True := by
  induction ps with
  | nil => exact .pure trivial
  | cons p ps ih =>
    refine .bind (.patch ha (hp p List.mem_cons_self)) fun _ _ => ?_
    exact ih fun q hq => hp q (List.mem_cons_of_mem _ hq)

variable {b : Branch}

/-- What leaves comes from where at least as much is covered as where control falls through. -/
theorem defer (hb : Branch.Covered K n b) (polarity : Bool) :
    Mends K sites n (b.defer polarity) (Leaving K n (K b.fallThrough)) := by
  have htail : b.tail.position < n := Nat.lt_of_lt_of_le (by rw [← hb.tail]; exact Nat.lt_succ_self _) hb.fall
  have hjump : ∀ expected, (Instruction.jumpIf expected b.tail.cond .pending).Sourced K sites n b.tail.position := by
    refine fun expected => ⟨_, _, rfl, fun x hx => ?_, fun j hj => ?_⟩
    · obtain rfl := List.mem_singleton.1 hx
      exact hb.cond
    · obtain rfl := List.mem_singleton.1 hj
      rw [hb.tail]
      exact ⟨hb.fall, fun x hx => .inl (hb.flow x hx)⟩
  have hsides : Leaving K n (K b.fallThrough) b.whenTrue ∧ Leaving K n (K b.fallThrough) b.whenFalse :=
    ⟨fun p hp => hb.sites p (List.mem_append_left _ hp), fun p hp => hb.sites p (List.mem_append_right _ hp)⟩
  have hleave : ∀ jumps, Leaving K n (K b.fallThrough) jumps → Leaving K n (K b.fallThrough) (jumps ++ [⟨b.tail.position⟩]) := by
    intro jumps hjumps p hp
    rcases List.mem_append.1 hp with hp | hp
    · exact hjumps p hp
    · obtain rfl := List.mem_singleton.1 hp
      exact ⟨htail, hb.flow⟩
  refine .bind (.fillJump (hjump _)) fun tail htail => ?_
  subst htail
  cases polarity with
  | false => exact .bind (.patchAll hb.fall fun p hp => (hsides.1 p hp).2) fun _ _ => .pure (hleave _ hsides.2)
  | true => exact .bind (.patchAll hb.fall fun p hp => (hsides.2 p hp).2) fun _ _ => .pure (hleave _ hsides.1)

theorem resolve (hb : Branch.Covered K n b) (polarity : Bool) (ha : a ≤ n) (hcover : ∀ x ∈ K a, x ∈ K b.fallThrough) :
    Mends K sites n (b.resolve polarity (.address a)) fun _ => True :=
  .bind (.defer hb polarity) fun _ hleave => .patchAll ha fun p hp x hx => (hleave p hp).2 x (hcover x hx)

end Mends

end Lowering

end SlotCode
