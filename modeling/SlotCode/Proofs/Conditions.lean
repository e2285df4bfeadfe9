/-
  SlotCode.Proofs.Conditions — a condition goes where its truth says, and runs no more than that takes.

  Negations, conjunctions and disjunctions with one consumer form a tree (`Spells`); below
  it are the leaves, whatever nodes they are. The code of the tree is that of its leaves,
  one after the other, each followed by one jump (`Spans`). Once the consumer has filled
  the branch, every one of these jumps leads on to the next leaf or out of the tree
  (`Wired`), so that a run through the tree is a run through the leaves that short-circuit
  evaluation comes to (`Tours`).

  Proved: `condition_goes_by_truth`, for every tree and every state in which lowering comes
  to one, for both ways of filling the branch, both polarities and any target.
-/

import SlotCode.Proofs.Cycles
import SlotCode.Proofs.FaithfulWalk
import SlotCode.Proofs.TidyWalk

namespace SlotCode

/-! ## Formulas -/

/-- Negations and short-circuit operators over leaves of some kind. -/
inductive Formula (α : Type) where
  | leaf (a : α)
  | not (operand : Formula α)
  /-- When the first operand equals `decisive`, so does the whole. -/
  | shortCircuit (decisive : Bool) (first second : Formula α)
  deriving DecidableEq

namespace Formula

def map {α β : Type} (g : α → β) : Formula α → Formula β
  | .leaf a => .leaf (g a)
  | .not operand => .not (operand.map g)
  | .shortCircuit decisive first second => .shortCircuit decisive (first.map g) (second.map g)

/-- From left to right. -/
def leaves {α : Type} : Formula α → List α
  | .leaf a => [a]
  | .not operand => operand.leaves
  | .shortCircuit _ first second => first.leaves ++ second.leaves

end Formula

/-- The tree of connectives that a node is the root of. A connective with more than one consumer is a leaf. -/
inductive Function.Spells (f : Function) : NodeId → Formula NodeId → Prop
  | leaf {id : NodeId} {n : Node} : f.node? id = some n →
      (n.expr.connective? = none ∨ (tallyAt f.tallies id).total ≠ 1) → f.Spells id (.leaf id)
  | not {id c : NodeId} {n : Node} {x : Formula NodeId} : f.node? id = some n → n.expr.connective? = some (.not c) →
      (tallyAt f.tallies id).total = 1 → f.Spells c x → f.Spells id (.not x)
  | shortCircuit {id c d : NodeId} {n : Node} {decisive : Bool} {x y : Formula NodeId} : f.node? id = some n →
      n.expr.connective? = some (.shortCircuit decisive c d) → (tallyAt f.tallies id).total = 1 →
      f.Spells c x → f.Spells d y → f.Spells id (.shortCircuit decisive x y)

/-! ## The code of a formula -/

/-- Where the code of a leaf stands: from `start` up to its tail, the jump on the number in `cond`. -/
structure LeafCode where
  node : NodeId
  start : Nat
  tail : Nat
  cond : Slot
  deriving DecidableEq

namespace Formula

/-- The first address. -/
def start : Formula LeafCode → Nat
  | .leaf c => c.start
  | .not operand => operand.start
  | .shortCircuit _ first _ => first.start

/-- The code of the leaves, with their tails, fills the addresses from `lo` up to `hi`. -/
def Spans : Formula LeafCode → (lo hi : Nat) → Prop
  | .leaf c, lo, hi => c.start = lo ∧ c.start ≤ c.tail ∧ hi = c.tail + 1
  | .not operand, lo, hi => operand.Spans lo hi
  | .shortCircuit _ first second, lo, hi => ∃ mid, first.Spans lo mid ∧ second.Spans mid hi

/-- The tails lead to the next leaf to be asked, to `yes` when the formula is true and to `no` when it is false. -/
def Wired (code : Array Instruction) : Formula LeafCode → (yes no : Nat) → Prop
  | .leaf c, yes, no => ∃ polarity x, code[c.tail]? = some (.jumpIf polarity c.cond (.address x)) ∧
      if polarity then yes = x ∧ no = c.tail + 1 else no = x ∧ yes = c.tail + 1
  | .not operand, yes, no => operand.Wired code no yes
  | .shortCircuit decisive first second, yes, no =>
      first.Wired code (if decisive then yes else second.start) (if decisive then second.start else no) ∧
        second.Wired code yes no

/-- Short-circuit evaluation, left to right, with the leaves that ran. A leaf is true if its code leaves another number
    than zero. -/
inductive Evaluates (im : Image) : Formula LeafCode → Machine → List LeafCode → Bool → Machine → Prop
  | leaf {c : LeafCode} {n : Nat} {m m' : Machine} {i : Int32} : im.Runs c.start c.tail n { m with pc := c.start } m' →
      m'.pc = c.tail → m'.stopped = false → m'.registers.get? ⟨.int, c.cond⟩ = some (.int i) →
      Evaluates im (.leaf c) m [c] (i != 0) m'
  | not {x : Formula LeafCode} {m m' : Machine} {cs : List LeafCode} {truth : Bool} : Evaluates im x m cs truth m' →
      Evaluates im (.not x) m cs (!truth) m'
  | decided {x y : Formula LeafCode} {m m' : Machine} {cs : List LeafCode} {decisive : Bool} :
      Evaluates im x m cs decisive m' → Evaluates im (.shortCircuit decisive x y) m cs decisive m'
  | second {x y : Formula LeafCode} {m m' m'' : Machine} {cs ds : List LeafCode} {decisive truth : Bool} :
      Evaluates im x m cs (!decisive) m' → Evaluates im y m' ds truth m'' →
      Evaluates im (.shortCircuit decisive x y) m (cs ++ ds) truth m''

end Formula

/-- A run through the code of some leaves, each followed by the step from its tail. -/
inductive Image.Tours (im : Image) : List LeafCode → Machine → Machine → Prop
  | done (m : Machine) : im.Tours [] m m
  | leaf {c : LeafCode} {cs : List LeafCode} {n : Nat} {m m₁ m₂ m₃ : Machine} : m.pc = c.start →
      im.Runs c.start c.tail n m m₁ → m₁.pc = c.tail → m₁.stopped = false → im.step m₁ = .ok m₂ →
      im.Tours cs m₂ m₃ →
      im.Tours (c :: cs) m m₃

theorem Image.Tours.append {im : Image} {cs ds : List LeafCode} {m m₁ m₂ : Machine} (h : im.Tours cs m m₁)
    (h' : im.Tours ds m₁ m₂) : im.Tours (cs ++ ds) m m₂ := by
  induction h with
  | done => exact h'
  | leaf hpc hrun htail hgo hstep _ ih => exact .leaf hpc hrun htail hgo hstep (ih h')

namespace Formula

variable {x : Formula LeafCode} {code : Array Instruction} {lo hi yes no : Nat}

theorem Spans.start_eq (h : x.Spans lo hi) : x.start = lo := by
  induction x generalizing lo hi with
  | leaf c => exact h.1
  | not operand ih => exact ih h
  | shortCircuit decisive first second ih _ =>
    obtain ⟨mid, hfirst, -⟩ := h
    exact ih hfirst

/-- The code goes at least to the first tail. -/
theorem Wired.start_lt (h : x.Wired code yes no) (hx : x.Spans lo hi) : lo < code.size := by
  induction x generalizing lo hi yes no with
  | leaf c =>
    obtain ⟨rfl, hle, rfl⟩ := hx
    obtain ⟨polarity, a, hat, -⟩ := h
    exact hle.trans_lt (Array.getElem?_eq_some_iff.1 hat).1
  | not operand ih => exact ih h hx
  | shortCircuit decisive first second ih _ =>
    obtain ⟨mid, hfirst, -⟩ := hx
    exact ih h.1 hfirst

/-- A run of the code goes through the leaves that evaluation comes to, and out of the formula as its truth says. -/
theorem Wired.tours {im : Image} (hw : x.Wired im.program.code yes no) (hx : x.Spans lo hi)
    (hyes : yes < im.program.code.size) (hno : no < im.program.code.size) {m m' : Machine} {cs : List LeafCode} {truth : Bool}
    (h : x.Evaluates im m cs truth m') :
    im.Tours cs { m with pc := lo } { m' with pc := if truth then yes else no } := by
  induction h generalizing lo hi yes no with
  | leaf hrun hpc hgo hcond =>
    rename_i c n m m' i
    obtain ⟨rfl, -, rfl⟩ := hx
    obtain ⟨polarity, a, hat, hends⟩ := hw
    rw [← hpc] at hat hends
    have ha : a < im.program.code.size := by
      cases polarity
      · exact hends.1 ▸ hno
      · exact hends.1 ▸ hyes
    refine .leaf rfl hrun hpc hgo (Image.step_jumpIf hat ha hcond) ?_
    have hgoes : (if (i != 0) == polarity then a else m'.pc + 1) = if i != 0 then yes else no := by
      cases polarity
      · obtain ⟨rfl, rfl⟩ := hends
        cases i != 0 <;> rfl
      · obtain ⟨rfl, rfl⟩ := hends
        cases i != 0 <;> rfl
    rw [hgoes]
    exact .done _
  | not _ ih =>
    rename_i truth _
    have := ih hw hx hno hyes
    cases truth <;> exact this
  | decided _ ih =>
    rename_i decisive _
    obtain ⟨mid, hfirst, hsecond⟩ := hx
    obtain ⟨hw₁, hw₂⟩ := hw
    have hmid := hsecond.start_eq ▸ hw₂.start_lt hsecond
    cases decisive
    · have hrun := ih hw₁ hfirst hmid hno
      exact hrun
    · have hrun := ih hw₁ hfirst hyes hmid
      exact hrun
  | second _ _ ih₁ ih₂ =>
    rename_i decisive _ _ _
    obtain ⟨mid, hfirst, hsecond⟩ := hx
    obtain ⟨hw₁, hw₂⟩ := hw
    have hstart := hsecond.start_eq
    have hmid := hstart ▸ hw₂.start_lt hsecond
    refine .append ?_ (ih₂ hw₂ hsecond hyes hno)
    rw [← hstart]
    cases decisive
    · exact ih₁ hw₁ hfirst hmid hno
    · exact ih₁ hw₁ hfirst hyes hmid

end Formula

/-! ## Filling a branch -/

namespace Branch

theorem defer_negate (b : Branch) (polarity : Bool) : b.negate.defer polarity = b.defer (!polarity) := by
  obtain ⟨whenTrue, whenFalse, ⟨position, cond, negated⟩, fallThrough⟩ := b
  cases polarity <;> cases negated <;> rfl

theorem resolve_negate (b : Branch) (polarity : Bool) (target : Label) :
    b.negate.resolve polarity target = b.resolve (!polarity) target := by
  rw [resolve, resolve, defer_negate]

end Branch

/-- Open jumps can be patched to any target. -/
theorem exists_patchAll {ps : List Patch} (target : Label) : ∀ {d : Draft}, (Patch.positions ps).Nodup →
    (∀ p ∈ ps, d.isOpen p.position = true) → ∃ e, Drafting.patchAll ps target d = .ok () e := by
  induction ps with
  | nil => exact fun _ _ => ⟨_, rfl⟩
  | cons p ps ih =>
    intro d honce hopen
    rw [Patch.positions_cons, Multiset.nodup_cons] at honce
    obtain ⟨ins, hins, hpending⟩ : ∃ ins, d.code[p.position]? = some ins ∧ ins.target? = some .pending := by
      have hp := hopen p List.mem_cons_self
      rw [Draft.isOpen, Option.any_eq_true] at hp
      obtain ⟨ins, hins, hjump⟩ := hp
      exact ⟨ins, hins, by simpa [Draft.isPendingJump] using hjump⟩
    have hpatch : Drafting.patch p target d =
        .ok () { d with code := d.code.setIfInBounds p.position (ins.retarget target) } := by
      simp [Drafting.patch, Drafting.edit, Draft.patch, hins, hpending, Except.map]
    have hrest : ∀ q ∈ ps,
        Draft.isOpen { d with code := d.code.setIfInBounds p.position (ins.retarget target) } q.position = true := by
      intro q hq
      have hne : p.position ≠ q.position := fun he => honce.1 (he ▸ List.mem_map_of_mem hq)
      rw [Draft.isOpen, Draft.getElem?_set _ _ _ hins, if_neg hne]
      exact hopen q (List.mem_cons_of_mem _ hq)
    obtain ⟨e, he⟩ := ih honce.2 hrest
    refine ⟨e, ?_⟩
    show (Drafting.patch p target >>= fun _ => Drafting.patchAll ps target) d = .ok () e
    simp only [bind, EStateM.bind, hpatch]
    exact he

/-- The code with every open jump closed at the same address. -/
def Draft.closing (d : Draft) (a : Nat) : Array Instruction :=
  d.code.map fun ins => if isPendingJump ins then ins.retarget (.address a) else ins

theorem Draft.becomes_closing (d : Draft) (a : Nat) : d.Becomes (d.closing a) := by
  intro i ins hi _
  split
  · exact ⟨a, by simp [closing, *]⟩
  · simp [closing, *]

/-- In codes that are wired alike, a tail of the same polarity has the same target. -/
theorem Formula.Wired.agree {x : Formula LeafCode} {code code' : Array Instruction} {yes no : Nat} (h : x.Wired code yes no)
    (h' : x.Wired code' yes no) {c : LeafCode} (hc : c ∈ x.leaves) :
    ∃ polarity a polarity' a', code[c.tail]? = some (.jumpIf polarity c.cond (.address a)) ∧
      code'[c.tail]? = some (.jumpIf polarity' c.cond (.address a')) ∧ (polarity = polarity' → a = a') := by
  induction x generalizing yes no with
  | leaf d =>
    obtain rfl := List.mem_singleton.1 hc
    obtain ⟨polarity, a, hat, hends⟩ := h
    obtain ⟨polarity', a', hat', hends'⟩ := h'
    refine ⟨polarity, a, polarity', a', hat, hat', ?_⟩
    rintro rfl
    cases polarity <;> exact hends.1.symm.trans hends'.1
  | not operand ih => exact ih h h' hc
  | shortCircuit decisive first second ih₁ ih₂ =>
    rcases List.mem_append.1 hc with hc | hc
    · exact ih₁ h.1 h'.1 hc
    · exact ih₂ h.2 h'.2 hc

/-- A tail that is wired in all that the draft becomes has its target already. -/
theorem Formula.Wired.resolved {x : Formula LeafCode} {d : Draft} {yes no : Nat}
    (h : ∀ code, d.Becomes code → x.Wired code yes no) {c : LeafCode} (hc : c ∈ x.leaves) :
    ∃ polarity a, d.code[c.tail]? = some (.jumpIf polarity c.cond (.address a)) := by
  obtain ⟨polarity, a, polarity', a', hat, hat', hsame⟩ := (h _ (d.becomes_closing 0)).agree (h _ (d.becomes_closing 1)) hc
  simp only [Draft.closing, Array.getElem?_map, Option.map_eq_some_iff] at hat hat'
  obtain ⟨ins, hins, hclosed⟩ := hat
  obtain ⟨ins', hins', hclosed'⟩ := hat'
  obtain rfl : ins = ins' := Option.some.inj (hins.symm.trans hins')
  by_cases hpending : Draft.isPendingJump ins = true
  · rw [if_pos hpending] at hclosed hclosed'
    -- An open jump could be closed at either address.
    cases ins <;> simp only [Instruction.retarget] at hclosed hclosed' <;> cases hclosed
    cases hclosed'
    cases hsame rfl
  · rw [if_neg hpending] at hclosed
    exact ⟨polarity, a, hclosed ▸ hins⟩

/-- The jump has its target, and a second one is refused. -/
structure Draft.Resolved (d : Draft) (position : Nat) : Prop where
  filled : position ∉ d.reserved
  target : ∃ ins a, d.code[position]? = some ins ∧ ins.target? = some (.address a)
  once : ∀ target, d.patch ⟨position⟩ target = .error (.patchedTwice position)

theorem Draft.Clean.resolved {d : Draft} {position a : Nat} {ins : Instruction} (h : d.Clean)
    (hins : d.code[position]? = some ins) (ha : ins.target? = some (.address a)) : d.Resolved position := by
  refine ⟨fun hreserved => ?_, ⟨ins, a, hins, ha⟩, fun target => ?_⟩
  · rw [h.empty position hreserved] at hins
    cases hins
    cases ha
  · simp [Draft.patch, hins, ha]

/-! ## Lowering a tree -/

/-- The code of the leaf, all but its tail, is what lowering the node for its value emitted. -/
def LeafCode.Lowered (ctx : Lowering.Context) (d : Draft) (c : LeafCode) : Prop :=
  ∃ room depth s t x, (Lowering.walk ctx room depth).operand c.node s = .ok (x, t) ∧ x.slot = c.cond ∧
    s.draft.label = c.start ∧ t.draft.label = c.tail ∧ t.draft.Before d

namespace Lowering

variable {ctx : Context} {base : Draft} {path : List NodeId} {m : Work} {s t : State} {id : NodeId} {n : Node} {w : Walk}
  {b : Branch} {depth : Nat} {k : Connective}

theorem Laid.rebase (h : Laid ctx base path m s) : Laid ctx s.draft path m s := { h with grown := .refl h.clean }

/-- A node with one consumer is not lowered for a second one. -/
theorem Laid.build_ne_ok (h : Laid ctx base path m s) (hid : ctx.function.Reachable id)
    (htotal : (tallyAt ctx.function.tallies id).total = 1)
    (hs : s.stage id ≠ .untouched) {u : Usage} {hint : Option TypedSlot} {offer : Option Offer} {v : Visited} :
    build ctx depth w id u hint offer s ≠ .ok (v, t) := by
  intro hr
  obtain ⟨_, _, hget, hr⟩ := bind_ok hr
  cases hget
  have hspent : (s.left id).consumers = 0 := by
    have hvisited := h.visited id
    rw [if_neg hs, htotal] at hvisited
    omega
  have hconsume : ∀ {x : Unit} {s' : State}, Lowering.consume id u s ≠ .ok (x, s') := fun hc => by
    have := ((h.consume hid u).ok rfl hc).2.2
    omega
  cases hp : (s.node id).progress with
  | untouched => exact hs (by rw [State.stage, hp]; rfl)
  | underway =>
    rw [hp] at hr
    cases hr
  | built slot region =>
    simp only [hp] at hr
    obtain ⟨_, _, hget, hr⟩ := bind_ok hr
    cases hget
    split at hr
    · cases hr
    · obtain ⟨_, _, hc, -⟩ := bind_ok hr
      exact hconsume hc

theorem composable?_run (hn : ctx.function.node? id = some n) : ctx.composable? id s =
    .ok (if s.demand.total id = 1 ∧ (s.node id).progress = .untouched then n.expr.connective? else none, s) := by
  have hnode : ctx.node id = pure n := by
    unfold Context.node
    rw [hn]
  unfold Context.composable?
  rw [hnode, pure_bind]
  show (if s.demand.total id = 1 ∧ (s.node id).progress = .untouched then pure n.expr.connective? else pure none : Lower _)
    s = _
  split <;> rfl

theorem entering_fits {α : Type} {slot : α → Option TypedSlot} {act : Lower α} {a : α}
    (hr : entering ctx depth id slot act s = .ok (a, t)) : depth + 1 ≤ ctx.options.maxDepth := by
  unfold entering at hr
  split at hr
  · cases hr
  · omega

/-- A connective with one consumer is lowered by the branches of its operands. -/
theorem Laid.composes (h : Laid ctx base path m s) (hid : ctx.function.Leads path id) (hn : ctx.function.node? id = some n)
    (hk : n.expr.connective? = some k) (htotal : (tallyAt ctx.function.tallies id).total = 1)
    (hr : condition ctx path.length w id s = .ok (b, t)) :
    ∃ s' u, Laid ctx s.draft (id :: path) m s' ∧ s'.draft = s.draft ∧ path.length + 1 ≤ ctx.options.maxDepth ∧
      compose w k s' = .ok (b, u) ∧ t.draft = u.draft := by
  obtain ⟨_, s₁, hexpect, hr₁⟩ := bind_ok hr
  obtain ⟨rfl, -⟩ := expectType_ok hexpect
  obtain ⟨k?, s₂, hcomposable, hr₂⟩ := bind_ok hr₁
  rw [composable?_run hn] at hcomposable
  by_cases hfresh : (s₁.node id).progress = .untouched
  · have hone : s₁.demand.total id = 1 := by
      rw [Demand.total, Demand.tally, h.tallies]
      exact htotal
    rw [if_pos ⟨hone, hfresh⟩, hk] at hcomposable
    cases hcomposable
    obtain ⟨_, s₃, hconsume, hr₃⟩ := bind_ok hr₂
    obtain ⟨h₃, hstage, hspent⟩ := (h.rebase.consume hid.reachable .value).ok rfl hconsume
    have huntouched : s₁.stage id = .untouched := by rw [State.stage, hfresh]; rfl
    have hvisited := h.visited id
    rw [if_pos huntouched, ← hspent] at hvisited
    have hcode : s₃.code = s₁.code := (quiet_consume id .value).view_eq hconsume
    obtain ⟨u, region, hcompose, rfl⟩ := entering_ok hr₃
    exact ⟨_, u, h₃.enter (h.bound id hid.reachable) (hstage ▸ huntouched) hvisited, congrArg (·.1) hcode, entering_fits hr₃,
      hcompose, rfl⟩
  · -- Whoever came first used the one consumer up.
    rw [if_neg fun hboth => hfresh hboth.2] at hcomposable
    cases hcomposable
    obtain ⟨x, s₃, hoperand, -⟩ := bind_ok hr₂
    obtain ⟨_, s₄, hvalue, -⟩ := bind_ok hoperand
    obtain ⟨_, s₅, halloc, hvalue₁⟩ := bind_ok hvalue
    obtain ⟨v, s₆, hbuild, -⟩ := bind_ok hvalue₁
    have htends : Tends s₁ s₅ := (Meets.ok (routine_alloc.meets h.clean) rfl halloc).2
    refine absurd hbuild ((h.of_tends htends).build_ne_ok hid.reachable htotal ?_)
    rw [htends.stage, State.stage]
    exact fun he => hfresh (by cases hp : (s₁.node id).progress <;> simp_all [Progress.stage])

/-- What lowering a tree leaves behind: a branch, and the code of the leaves that it is decided by. -/
structure Formed (ctx : Context) (shape : Formula NodeId) (d e : Draft) (b : Branch) (x : Formula LeafCode) : Prop where
  shape : x.map LeafCode.node = shape
  spans : x.Spans d.label e.label
  fall : b.fallThrough = e.label
  lowered : ∀ c ∈ x.leaves, c.Lowered ctx e
  wired : ∀ code yes no, e.Becomes code → b.Decides code yes no → x.Wired code yes no

/-- Lowering comes to a node: what is underway is the way to it, and there is room below. -/
structure Arrives (ctx : Context) (room : Nat) (path : List NodeId) (id : NodeId) (s : State) : Prop where
  laid : ∃ m, Laid ctx s.draft path m s
  leads : ctx.function.Leads path id
  limit : path.length ≤ ctx.options.maxDepth
  room : ctx.function.nodes.size < room + path.length

namespace Arrives

variable {room : Nat} {c : NodeId}

theorem works (h : Arrives ctx room path id s) :
    (walkOver ctx (walk ctx 0 0) room path.length).Works ctx path (walk ctx room path.length) :=
  walkOver_works _ room path h.limit h.room

theorem after_operand (h : Arrives ctx room path id s) {x : TypedSlot}
    (hr : (walk ctx room path.length).operand id s = .ok (x, t)) : s.draft.Before t.draft := by
  obtain ⟨m, hlaid⟩ := h.laid
  exact ((h.works.operand h.leads s.draft m).meets.ok hlaid hr).grown

theorem after_condition (h : Arrives ctx room path id s) (hr : (walk ctx room path.length).condition id s = .ok (b, t)) :
    s.draft.Before t.draft ∧ ∃ m, Laid ctx t.draft path m t := by
  obtain ⟨m, hlaid⟩ := h.laid
  have hdone := (h.works.condition id h.leads s.draft m).meets.ok hlaid hr
  exact ⟨hdone.grown, _, hdone.rebase⟩

/-- A connective hands on to its operands. -/
theorem composes (h : Arrives ctx (room + 1) path id s) (hn : ctx.function.node? id = some n)
    (hk : n.expr.connective? = some k) (htotal : (tallyAt ctx.function.tallies id).total = 1)
    (hr : (walk ctx (room + 1) path.length).condition id s = .ok (b, t)) :
    ∃ s' u, s'.draft = s.draft ∧ (∀ c ∈ k.operands, Arrives ctx room (id :: path) c s') ∧
      compose (walk ctx room (id :: path).length) k s' = .ok (b, u) ∧ t.draft = u.draft := by
  obtain ⟨m, hlaid⟩ := h.laid
  obtain ⟨s', u, hlaid', hdraft, hfits, hcompose, ht⟩ := hlaid.composes h.leads hn hk htotal hr
  refine ⟨s', u, hdraft, fun c hc => ⟨⟨m, hlaid'.rebase⟩, ?_, hfits, ?_⟩, hcompose, ht⟩
  · exact h.leads.children hn c (Expr.operands_connective hk ▸ hc)
  · have := h.room
    rw [List.length_cons]
    omega

/-- Lowering a tree for branching leaves the code of its leaves, one after the other. -/
theorem forms {shape : Formula NodeId} (hshape : ctx.function.Spells id shape) : ∀ {room : Nat} {path : List NodeId} {s t : State}
    {b : Branch}, Arrives ctx room path id s → (walk ctx room path.length).condition id s = .ok (b, t) →
      ∃ x, Formed ctx shape s.draft t.draft b x := by
  induction hshape with
  | leaf hn hleaf =>
    rename_i id n
    intro room path s t b h hr
    cases room with
    | zero => cases hr
    | succ room =>
      obtain ⟨_, s₀, hexpect, hr₁⟩ := bind_ok hr
      rw [(expectType_ok hexpect).1] at hr₁
      obtain ⟨k?, s₁, hcomposable, hr₂⟩ := bind_ok hr₁
      obtain ⟨m, hlaid⟩ := h.laid
      have hnone : (if s.demand.total id = 1 ∧ (s.node id).progress = .untouched then n.expr.connective? else none) = none := by
        rcases hleaf with hleaf | hleaf
        · simp [hleaf]
        · rw [if_neg]
          rw [Demand.total, Demand.tally, hlaid.tallies]
          exact fun hboth => hleaf hboth.1
      rw [composable?_run hn, hnone] at hcomposable
      cases hcomposable
      obtain ⟨x, s₂, hoperand, hr₃⟩ := bind_ok hr₂
      obtain ⟨b', s₃, hon, hr₄⟩ := bind_ok hr₃
      obtain ⟨_, s₄, hrelease, hr₅⟩ := bind_ok hr₄
      cases hr₅
      obtain ⟨hb, hs₃⟩ := onSlot_ok hon
      have hgrown : s.draft.Before s₂.draft := h.after_operand hoperand
      have hdraft : t.draft = s₂.draft.reserve.2 := by
        have hcode : t.code = s₃.code := (quiet_release id).view_eq hrelease
        rw [show t.draft = s₃.draft from congrArg (·.1) hcode, hs₃]
      have hlabel : t.draft.label = s₂.draft.label + 1 := by
        rw [hdraft]
        simp [Draft.reserve, Draft.label]
      refine ⟨.leaf ⟨id, s.draft.label, s₂.draft.label, x.slot⟩, rfl, ⟨rfl, hgrown.label, hlabel⟩, hb ▸ hlabel.symm,
        fun c hc => ?_, fun code yes no _ hdecides => ?_⟩
      · obtain rfl := List.mem_singleton.1 hc
        exact ⟨room + 1, path.length, s, s₂, x, hoperand, rfl, rfl, rfl, hdraft ▸ Draft.before_reserve hgrown.clean⟩
      · obtain ⟨polarity, a, htail, hends⟩ := hdecides.tail
        rw [hb] at htail hends
        exact ⟨polarity, a, by simpa using htail, hends⟩
  | not hn hk htotal _ ih =>
    rename_i id c n shape _
    intro room path s t b h hr
    cases room with
    | zero => cases hr
    | succ room =>
      obtain ⟨s', u, hs', harrive, hcompose, ht⟩ := h.composes hn hk htotal hr
      obtain ⟨b', u', hcondition, hreturn⟩ := bind_ok hcompose
      cases hreturn
      obtain ⟨x, hx⟩ := ih (harrive c (by simp [Connective.operands])) hcondition
      rw [ht, ← hs']
      exact ⟨.not x, congrArg _ hx.shape, hx.spans, hx.fall, hx.lowered,
        fun code yes no hc hdecides => hx.wired code no yes hc hdecides.of_negate⟩
  | shortCircuit hn hk htotal _ _ ih₁ ih₂ =>
    rename_i id c d n decisive shape₁ shape₂ _ _
    intro room path s t b h hr
    cases room with
    | zero => cases hr
    | succ room =>
      obtain ⟨s', u, hs', harrive, hcompose, ht⟩ := h.composes hn hk htotal hr
      have hfirst : Arrives ctx room (id :: path) c s' := harrive c (by simp [Connective.operands])
      have hsecond : Arrives ctx room (id :: path) d s' := harrive d (by simp [Connective.operands])
      obtain ⟨b₁, s₁, hcondition₁, hr₁⟩ := bind_ok hcompose
      obtain ⟨ps, s₂, hdrafting, hr₂⟩ := bind_ok hr₁
      obtain ⟨b₂, s₃, hregion, hr₃⟩ := bind_ok hr₂
      cases hr₃
      obtain ⟨d₂, hdefer, rfl⟩ := drafting_ok hdrafting
      obtain ⟨s₄, regions, hcondition₂, rfl⟩ := inRegion_ok hregion
      obtain ⟨hgrown₁, m, hlaid₁⟩ := hfirst.after_condition hcondition₁
      have hlaid₂ := (hlaid₁.of_tends (.redraft (Steady.defer b₁ decisive s₁.draft ps d₂ hlaid₁.clean hdefer))).rebase
      have hsecond' := (⟨⟨m, hlaid₂.openRegion⟩, hsecond.leads, hsecond.limit, hsecond.room⟩ : Arrives ctx room (id :: path) d
        { s₁ with draft := d₂, regions := s₁.nextRegion :: s₁.regions, nextRegion := s₁.nextRegion + 1 })
      have hgrown₂ : d₂.Before s₄.draft := (hsecond'.after_condition hcondition₂).1
      obtain ⟨x, hx⟩ := ih₁ hfirst hcondition₁
      obtain ⟨y, hy⟩ := ih₂ hsecond' hcondition₂
      obtain ⟨hbefore, hlabel, -⟩ := Branch.before_defer (a := 0) hlaid₁.clean hdefer
      have hmid : y.start = s₁.draft.label := hy.spans.start_eq.trans hlabel
      rw [ht, ← hs']
      refine ⟨.shortCircuit decisive x y, ?_, ⟨s₁.draft.label, hx.spans, hlabel ▸ hy.spans⟩, ?_, fun l hl => ?_,
        fun code yes no hc hdecides => ?_⟩
      · rw [Formula.map, hx.shape, hy.shape]
      · cases decisive <;> exact hy.fall
      · rcases List.mem_append.1 hl with hl | hl
        · obtain ⟨room', depth, s₅, s₆, z, hoperand, hslot, hstart, htail, hlast⟩ := hx.lowered l hl
          exact ⟨room', depth, s₅, s₆, z, hoperand, hslot, hstart, htail, hlast.trans (hbefore.trans hgrown₂)⟩
        · exact hy.lowered l hl
      · obtain ⟨hdecides₂, haims⟩ := hdecides.of_addSites
        have hbecomes : d₂.Becomes code := hgrown₂.becomes code hc
        have hdecides₁ := (Branch.before_defer hlaid₁.clean hdefer).2.2 code hbecomes haims
        have hwired := hx.wired code _ _ (hbefore.becomes code hbecomes) hdecides₁
        rw [hx.fall, ← hmid] at hwired
        refine ⟨?_, hy.wired code yes no hc hdecides₂⟩
        cases decisive <;> exact hwired

end Arrives

/-- Either way of filling the branch succeeds, whatever the target. -/
theorem Tidy.fills {g : Ledger} {room : Nat} (h : Tidy g s) (hr : (walk ctx room depth).condition id s = .ok (b, t))
    (polarity : Bool) (target : Nat) :
    ∃ sites d e, b.defer polarity t.draft = .ok sites d ∧ Drafting.patchAll sites (.address target) d = .ok () e ∧
      b.resolve polarity (.address target) t.draft = .ok () e := by
  have hbooks : Tidy (g.owing b) t := ((walk_tidies room depth).condition id g).ok h hr
  have howes : t.draft.Owes (b.sites + (t.exits + g.sites)) (b.tail.position ::ₘ g.tails) :=
    add_left_comm t.exits b.sites g.sites ▸ hbooks.owes
  obtain ⟨sites, d, hdefer, hopen, -⟩ := howes.defer polarity hbooks.of_owing
  have honce : (Patch.positions sites).Nodup :=
    (Multiset.nodup_add.1 (hopen.sites ▸ Draft.nodup_openJumps d)).1
  obtain ⟨e, hpatch⟩ := exists_patchAll (.address target) honce fun p hp => by
    rw [← Draft.mem_openJumps, hopen.sites]
    exact Multiset.mem_add.2 (.inl (List.mem_map_of_mem hp))
  refine ⟨sites, d, e, hdefer, hpatch, ?_⟩
  have hdefer' : b.defer polarity t.draft = .ok sites d := hdefer
  simp only [Branch.resolve, bind, EStateM.bind, hdefer']
  exact hpatch

end Lowering

open Lowering

/-- A tree of connectives is lowered to the code of its leaves, one after the other, each with one jump behind it. Whatever
    the polarity and the target, filling the branch succeeds, at once or with the sites patched later, and resolves each of
    these jumps once. Then the code leaves for the target when the truth of the tree equals the polarity and goes on after
    the last jump otherwise, through the leaves that evaluation comes to and no others. Filling the negated branch is
    filling the branch with the other polarity. -/
theorem condition_goes_by_truth {ctx : Context} {room : Nat} {path : List NodeId} {id : NodeId} {shape : Formula NodeId}
    {g : Ledger} {s t : State} {b : Branch} (harrive : Arrives ctx room path id s) (htidy : Tidy g s)
    (hshape : ctx.function.Spells id shape) (hr : (walk ctx room path.length).condition id s = .ok (b, t)) :
    (∃ x : Formula LeafCode, x.map LeafCode.node = shape ∧ x.Spans s.draft.label t.draft.label ∧
      (∀ c ∈ x.leaves, c.Lowered ctx t.draft) ∧ b.fallThrough = t.draft.label ∧
      ∀ polarity target, ∃ sites d e, b.defer polarity t.draft = .ok sites d ∧
        Drafting.patchAll sites (.address target) d = .ok () e ∧ b.resolve polarity (.address target) t.draft = .ok () e ∧
        (∀ c ∈ x.leaves, e.Resolved c.tail ∧ ∃ taken a, e.code[c.tail]? = some (.jumpIf taken c.cond (.address a))) ∧
        ∀ im m cs truth m', e.Becomes im.program.code → b.fallThrough < im.program.code.size →
          target < im.program.code.size → x.Evaluates im m cs truth m' →
            im.Tours cs { m with pc := s.draft.label } { m' with pc := if truth = polarity then target else b.fallThrough }) ∧
    (∀ polarity, b.negate.defer polarity = b.defer (!polarity)) ∧
    ∀ polarity target, b.negate.resolve polarity target = b.resolve (!polarity) target := by
  obtain ⟨x, hx⟩ := harrive.forms hshape hr
  have hclean : t.draft.Clean := (harrive.after_condition hr).1.clean
  refine ⟨⟨x, hx.shape, hx.spans, hx.lowered, hx.fall, fun polarity target => ?_⟩, b.defer_negate, b.resolve_negate⟩
  obtain ⟨sites, d, e, hdefer, hpatch, hresolve⟩ := htidy.fills hr polarity target
  obtain ⟨hbefore, -, hdecides⟩ := Branch.before_resolve hclean hresolve
  have hwired : ∀ code, e.Becomes code →
      x.Wired code (if polarity then target else b.fallThrough) (if polarity then b.fallThrough else target) :=
    fun code hc => hx.wired code _ _ (hbefore.becomes code hc) (hdecides code hc)
  refine ⟨sites, d, e, hdefer, hpatch, hresolve, fun c hc => ?_, fun im m cs truth m' hc hfall htarget heval => ?_⟩
  · obtain ⟨taken, a, hjump⟩ := Formula.Wired.resolved hwired hc
    exact ⟨hbefore.clean.resolved hjump rfl, taken, a, hjump⟩
  · cases polarity
    · have hrun := (hwired _ hc).tours hx.spans hfall htarget heval
      cases truth <;> exact hrun
    · have hrun := (hwired _ hc).tours hx.spans htarget hfall heval
      cases truth <;> exact hrun

/-- Whether the first parameter is set and the second is not. -/
def onlyFirst : Function where
  params := [.boolean, .boolean]
  locals := []
  nodes := #[⟨.param 0, .boolean⟩, ⟨.param 1, .boolean⟩, ⟨.unary .not 1, .boolean⟩, ⟨.binary .and 0 2, .boolean⟩]
  body := 3
  returnType := .boolean

def onlyFirstContext : Context := ⟨onlyFirst, {}, {}, [⟨.int, 0⟩, ⟨.int, 1⟩], []⟩

theorem onlyFirst_spells : onlyFirst.Spells 3 (.shortCircuit false (.leaf 0) (.not (.leaf 1))) :=
  .shortCircuit rfl rfl (by decide +kernel) (.leaf rfl (.inl rfl)) (.not rfl rfl (by decide +kernel) (.leaf rfl (.inl rfl)))

def onlyFirstStart : State :=
  .start onlyFirstContext ⟨onlyFirst.tallies, onlyFirst.tallies.map fun t => ⟨t.total, t.total - t.ignored⟩⟩
    ((Pool.empty.reserve .int).2.reserve .int).2

theorem onlyFirst_outset : Outset onlyFirstContext .value onlyFirstStart := ⟨⟨_, rfl, rfl⟩, ⟨_, rfl, rfl⟩, rfl⟩

theorem onlyFirst_lowered : ∃ t, (walk onlyFirstContext 5 0).condition 3 onlyFirstStart =
    .ok (⟨[], [⟨0⟩], ⟨1, 1, true⟩, 2⟩, t) ∧ t.draft = ⟨#[.jumpIf false 0 .pending, .nop], [1]⟩ := by
  have hrun : (match (walk onlyFirstContext 5 0).condition 3 onlyFirstStart with
      | .ok (b, t) => decide (b = ⟨[], [⟨0⟩], ⟨1, 1, true⟩, 2⟩ ∧ t.draft = ⟨#[.jumpIf false 0 .pending, .nop], [1]⟩)
      | .error _ => false) = true := by decide +kernel
  split at hrun
  · rename_i b t hr
    obtain ⟨rfl, ht⟩ := of_decide_eq_true hrun
    exact ⟨t, hr, ht⟩
  · cases hrun

/-- The code of `onlyFirst` as a condition that is left for the last address when false, with something after it. -/
def onlyFirstImage : Image :=
  ⟨{ code := #[.jumpIf false 0 (.address 3), .jumpIf true 1 (.address 3), .const 0 (.int 7), .stop] }, {}, #[]⟩

theorem onlyFirst_goes_by_truth : ∃ (t : State) (b : Branch) (e : Draft), Arrives onlyFirstContext 5 [] 3 onlyFirstStart ∧
    Tidy {} onlyFirstStart ∧ onlyFirst.Spells 3 (.shortCircuit false (.leaf 0) (.not (.leaf 1))) ∧
    (walk onlyFirstContext 5 0).condition 3 onlyFirstStart = .ok (b, t) ∧
    b.resolve false (.address 3) t.draft = .ok () e ∧ e.Becomes onlyFirstImage.program.code ∧
    -- Where the first parameter is not set, the second is not looked at.
    onlyFirstImage.Tours [⟨0, 0, 0, 0⟩] { registers := { ints := #[0, 0] }, world := {} }
      { registers := { ints := #[0, 0] }, pc := 3, world := {} } ∧
    onlyFirstImage.Tours [⟨0, 0, 0, 0⟩, ⟨1, 1, 1, 1⟩] { registers := { ints := #[1, 0] }, world := {} }
      { registers := { ints := #[1, 0] }, pc := 2, world := {} } := by
  obtain ⟨t, hr, ht⟩ := onlyFirst_lowered
  have harrive : Arrives onlyFirstContext 5 [] 3 onlyFirstStart := ⟨⟨0, onlyFirst_outset.laid⟩, .body, Nat.zero_le _, by decide⟩
  have htidy : Tidy {} onlyFirstStart := tidy_start _ _ _
  obtain ⟨⟨x, hshape, hspans, -, -, hfills⟩, -⟩ := condition_goes_by_truth harrive htidy onlyFirst_spells hr
  obtain ⟨sites, d, e, -, -, hresolve, hjumps, hruns⟩ := hfills false 3
  have hfilled : Branch.resolve ⟨[], [⟨0⟩], ⟨1, 1, true⟩, 2⟩ false (.address 3) t.draft =
      .ok () ⟨#[.jumpIf false 0 (.address 3), .jumpIf true 1 (.address 3)], []⟩ := by
    rw [ht]
    rfl
  obtain rfl : e = ⟨#[.jumpIf false 0 (.address 3), .jumpIf true 1 (.address 3)], []⟩ := by
    rw [hresolve] at hfilled
    cases hfilled
    rfl
  have hbecomes : Draft.Becomes ⟨#[.jumpIf false 0 (.address 3), .jumpIf true 1 (.address 3)], []⟩
      onlyFirstImage.program.code := by
    intro i ins hi hn
    match i with
    | 0 | 1 =>
      cases hi
      rfl
    | i + 2 => simp at hi
  obtain ⟨⟨n₀, start₀, tail₀, cond₀⟩, ⟨n₁, start₁, tail₁, cond₁⟩, rfl⟩ :
      ∃ c₀ c₁, x = .shortCircuit false (.leaf c₀) (.not (.leaf c₁)) := by
    rcases x with _ | _ | ⟨decisive, _ | _ | _, _ | ⟨_ | _ | _⟩ | _⟩ <;> simp_all [Formula.map]
  -- The code is too short for anything but the two jumps.
  obtain ⟨rfl, rfl⟩ : n₀ = 0 ∧ n₁ = 1 := by simpa [Formula.map] using hshape
  rw [ht] at hspans
  obtain ⟨mid, ⟨rfl, hle₀, rfl⟩, rfl, hle₁, htail₁⟩ := hspans
  obtain rfl : tail₁ = 1 := (Nat.succ.inj htail₁).symm
  obtain rfl : tail₀ = 0 := by simpa using hle₁
  obtain ⟨-, _, _, hjump₀⟩ := hjumps _ List.mem_cons_self
  obtain ⟨-, _, _, hjump₁⟩ := hjumps _ (List.mem_cons_of_mem _ List.mem_cons_self)
  cases hjump₀
  cases hjump₁
  refine ⟨t, _, _, harrive, htidy, onlyFirst_spells, hr, hresolve, hbecomes, ?_, ?_⟩
  · exact hruns onlyFirstImage { registers := { ints := #[0, 0] }, world := {} } _ false _ hbecomes (by decide) (by decide)
      (.decided (.leaf (i := 0) (.refl _) rfl rfl rfl))
  · exact hruns onlyFirstImage { registers := { ints := #[1, 0] }, world := {} } _ true _ hbecomes (by decide) (by decide)
      (.second (.leaf (i := 1) (.refl _) rfl rfl rfl) (.not (.leaf (i := 0) (.refl _) rfl rfl rfl)))

end SlotCode
