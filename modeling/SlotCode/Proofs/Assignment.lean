/-
  SlotCode.Proofs.Assignment — lowering knows which registers are written.

  `Assigned` is the invariant of the walk: some coverage is right for the code so far, and
  it has the `Facts` that the walk knows, which stay true as lowering goes on: registers
  that are covered, that control does not come here, that a condition waits for its
  consumer.

  Proved: one lemma for each step of the books, of the regions and of the code.
-/

import SlotCode.Proofs.Coverage

namespace SlotCode.Lowering

variable {α β : Type} {ctx : Context} {B : Bases} {K K' : Coverage} {s t : State} {id : NodeId}

/-! ## What is known along the way -/

/-- Something about the coverage that stays true as lowering goes on. -/
structure Facts where
  holds : Coverage → State → Prop
  stable : ∀ {s K t K'}, Onward s K t K' → holds K s → holds K' t

namespace Facts

/-- Registers that are covered. -/
def adding (F : Facts) (xs : List TypedSlot) : Facts :=
  ⟨fun K s => F.holds K s ∧ ∀ x ∈ xs, x ∈ K s.draft.label,
    fun ho h => ⟨F.stable ho h.1, fun x hx => ho.grows x (h.2 x hx)⟩⟩

/-- If `p`, then control does not come here. -/
def ending (F : Facts) (p : Prop) : Facts :=
  ⟨fun K s => F.holds K s ∧ (p → ∀ x, x ∈ K s.draft.label),
    fun ho h => ⟨F.stable ho h.1, fun hp x => ho.grows x (h.2 hp x)⟩⟩

/-- If `p`, then the registers are covered. -/
def landing (F : Facts) (p : Prop) (xs : List TypedSlot) : Facts :=
  ⟨fun K s => F.holds K s ∧ (p → ∀ x ∈ xs, x ∈ K s.draft.label),
    fun ho h => ⟨F.stable ho h.1, fun hp x hx => ho.grows x (h.2 hp x hx)⟩⟩

/-- A node that never completes has no consumer left. -/
def spending (F : Facts) (f : Function) (id : NodeId) : Facts :=
  ⟨fun K s => F.holds K s ∧ (f.NeverEnds id → (s.left id).consumers = 0),
    fun ho h => ⟨F.stable ho h.1, fun hid => Nat.le_zero.1 (h.2 hid ▸ ho.left id)⟩⟩

/-- A condition waits for its consumer. -/
def branching (F : Facts) (b : Branch) : Facts :=
  ⟨fun K s => F.holds K s ∧ Branch.Covered K s.draft.label b, fun {s K t K'} ho h => by
    obtain ⟨htail, hfall, hcond, hflow, hsites⟩ := h.2
    have hat : K' b.fallThrough = K b.fallThrough := ho.same _ hfall
    have hat' : K' b.tail.position = K b.tail.position := ho.same _ (by omega)
    refine ⟨F.stable ho h.1, htail, Nat.le_trans hfall ho.label, hat' ▸ hcond, hat ▸ hat' ▸ hflow, ?_⟩
    rw [hat]
    exact hsites.mono (fun i hi => ho.same i (Nat.le_of_lt hi)) ho.label⟩

/-- At least `M` is covered. -/
def covering (F : Facts) (M : Set TypedSlot) : Facts :=
  ⟨fun K s => F.holds K s ∧ ∀ x ∈ M, x ∈ K s.draft.label,
    fun ho h => ⟨F.stable ho h.1, fun x hx => ho.grows x (h.2 x hx)⟩⟩

/-- Jumps that come from where at least `M` is covered. -/
def leaving (F : Facts) (M : Set TypedSlot) (jumps : List Patch) : Facts :=
  ⟨fun K s => F.holds K s ∧ Leaving K s.draft.label M jumps, fun ho h =>
    ⟨F.stable ho h.1, h.2.mono (fun i hi => ho.same i (Nat.le_of_lt hi)) ho.label⟩⟩

/-- All that stays true from here on. -/
def since (s : State) (K : Coverage) : Facts := ⟨fun K' t => Onward s K t K', fun ho h => h.trans ho⟩

theorem of_code (F : Facts) {s t : State} {K : Coverage} (h : F.holds K s) (hdraft : t.draft = s.draft)
    (hdemand : t.demand = s.demand) : F.holds K t :=
  F.stable (.of_code hdraft hdemand K) h

/-- The registers are known to be covered. -/
def Covers (F : Facts) (xs : List TypedSlot) : Prop := ∀ K s, F.holds K s → ∀ x ∈ xs, x ∈ K s.draft.label

end Facts

def Assigned (ctx : Context) (B : Bases) (F : Facts) (s : State) : Prop := ∃ K, Covered ctx B K s ∧ F.holds K s

variable {F F' : Facts}

theorem Assigned.weaken (h : Assigned ctx B F s) (hF : ∀ K s, F.holds K s → F'.holds K s) : Assigned ctx B F' s := by
  obtain ⟨K, hK, hholds⟩ := h
  exact ⟨K, hK, hF K s hholds⟩

/-- A contract at one state that satisfies the precondition. -/
theorem Meets.start {P : State → Prop} {Q : α → State → Prop} {E : BuildError → Prop} {act : Lower α} (hs : P s)
    (h : Meets P act Q E) : Meets (· = s) act Q E :=
  h.pre fun _ ht => ht ▸ hs

/-- What depends only on a view that the step keeps may be carried along. -/
theorem Meets.beside {γ : Type} {view : State → γ} {P : State → Prop} {Q : α → State → Prop} {E : BuildError → Prop}
    {act : Lower α} {R : γ → Prop} (h : Meets P act Q Anyhow) (hk : Keeps view E act) :
    Meets (fun s => R (view s) ∧ P s) act (fun a s => R (view s) ∧ Q a s) Anyhow := by
  rintro s ⟨hR, hs⟩
  have hQ := h s hs
  have hview := hk s
  cases hr : act s with
  | error e => exact trivial
  | ok r =>
    rw [hr] at hQ hview
    have hview : view r.2 = view s := hview
    exact ⟨hview ▸ hR, hQ⟩

/-! ## Steps of the books -/

/-- What the invariant speaks of. -/
def State.coverPart (s : State) : Draft × (List BlockFrame × List LoopFrame) × (List Region × Region) × Demand ×
    Array CallSite × (NodeId → Progress) :=
  (s.draft, (s.blocks, s.loops), (s.regions, s.nextRegion), s.demand, s.sites, fun id => (s.node id).progress)

theorem assigned_keeps {act : Lower α} (h : Keeps State.coverPart Anyhow act) :
    Meets (Assigned ctx B F) act (fun _ => Assigned ctx B F) Anyhow := by
  refine h.stable fun s t e hs => ?_
  obtain ⟨K, hK, hF⟩ := hs
  obtain ⟨hdraft, e⟩ := Prod.mk.inj e
  obtain ⟨hframes, e⟩ := Prod.mk.inj e
  obtain ⟨hregions, e⟩ := Prod.mk.inj e
  obtain ⟨hdemand, e⟩ := Prod.mk.inj e
  obtain ⟨hsites, hnodes⟩ := Prod.mk.inj e
  have hleft : ∀ id, t.left id = s.left id := fun id => by rw [State.left, hdemand, State.left]
  have hq : Quietly s t := ⟨hdraft, Prod.mk.inj hframes, Prod.mk.inj hregions, by rw [hdemand],
    by rw [hsites]; exact fun _ _ h => h, fun id => (congrArg Left.consumers (hleft id)).le⟩
  exact ⟨K, hK.books hq (congrFun hnodes), F.stable (hq.onward K) hF⟩

theorem coverPart_setNode {n : NodeState} (h : n.progress = (s.node id).progress) :
    (s.setNode id n).coverPart = s.coverPart := by
  have hnodes : (fun i => ((s.setNode id n).node i).progress) = fun i => (s.node i).progress := by
    funext i
    rw [node_setNode]
    split
    · rename_i hi
      rw [h, hi.1]
    · rfl
  simp only [State.coverPart, hnodes]
  rfl

theorem assigned_alloc : Meets (Assigned ctx B F) (alloc id) (fun _ => Assigned ctx B F) Anyhow :=
  assigned_keeps (.update fun _ => coverPart_setNode rfl)

theorem assigned_borrow : Meets (Assigned ctx B F) (borrow id) (fun _ => Assigned ctx B F) Anyhow :=
  assigned_keeps (.update fun _ => coverPart_setNode rfl)

theorem assigned_acquire (kind : Kind) :
    Meets (Assigned ctx B F) (acquire kind) (fun x s => x.kind = kind ∧ Assigned ctx B F s) Anyhow := by
  intro s hs
  have hkeep : Meets (Assigned ctx B F) (acquire kind) (fun _ => Assigned ctx B F) Anyhow :=
    assigned_keeps (.modifyGet fun _ => rfl)
  exact ⟨rfl, hkeep s hs⟩

theorem assigned_isDemanded : Meets (Assigned ctx B F) (isDemanded id)
    (fun d s => d = (tallyAt ctx.function.tallies id).demanded ∧ Assigned ctx B F s) Anyhow := by
  intro s hs
  refine ⟨?_, hs⟩
  obtain ⟨K, hK, -⟩ := hs
  show (tallyAt s.demand.tallies id).demanded = _
  rw [hK.tallies]

/-- A node that never completes has had no consumer before and has none left. -/
theorem assigned_consume (u : Usage) (p : Progress) :
    Meets (fun s => (s.node id).progress = p ∧ Assigned ctx B F s) (consume id u)
      (fun _ s => (ctx.function.NeverEnds id → p = .untouched) ∧ Assigned ctx B (F.spending ctx.function id) s) Anyhow := by
  refine .read fun s ⟨hp, K, hK, hF⟩ => ?_
  unfold Demand.consume
  cases hl : s.demand.left[id]? with
  | none => exact .fail trivial
  | some l =>
    dsimp only
    cases htake : l.take u with
    | none => exact .fail trivial
    | some l' =>
      intro t ht
      subst ht
      have hat : t.left id = l := by simp [State.left, hl]
      have hless : 0 < l.consumers ∧ l'.consumers = l.consumers - 1 := by
        cases u <;> simp only [Left.take, Option.ite_none_right_eq_some, Option.some.injEq] at htake
        · exact ⟨htake.1.1, htake.2 ▸ rfl⟩
        · exact ⟨htake.1.1, htake.2 ▸ rfl⟩
      have hafter : ∀ i, State.left { t with demand := { t.demand with left := t.demand.left.setIfInBounds id l' } } i =
          if id = i then l' else t.left i := by
        intro i
        have hlt : id < t.demand.left.size := (Array.getElem?_eq_some_iff.1 hl).1
        simp only [State.left, Array.getD_eq_getD_getElem?, Array.getElem?_setIfInBounds]
        by_cases hi : id = i
        · simp [hi, hi ▸ hlt]
        · simp [hi]
      have hdecr : ∀ i,
          (State.left { t with demand := { t.demand with left := t.demand.left.setIfInBounds id l' } } i).consumers ≤
            (t.left i).consumers := by
        intro i
        rw [hafter]
        split
        · rename_i hi
          rw [← hi, hat]
          omega
        · exact Nat.le_refl _
      have hq : Quietly t { t with demand := { t.demand with left := t.demand.left.setIfInBounds id l' } } :=
        ⟨rfl, ⟨rfl, rfl⟩, ⟨rfl, rfl⟩, rfl, fun _ _ h => h, hdecr⟩
      have hone : ctx.function.NeverEnds id → (t.left id).consumers ≤ if p = .untouched then 1 else 0 := fun hid =>
        hp ▸ hK.spent id hid
      refine ⟨fun hid => ?_, K, hK.books hq fun _ => rfl, F.stable (hq.onward K) hF, fun hid => ?_⟩
      · by_contra hne
        have := hone hid
        rw [if_neg hne, hat] at this
        omega
      · rw [hafter, if_pos rfl]
        have := hone hid
        rw [hat] at this
        split at this <;> omega

/-- A node is entered once its consumer has been counted. -/
theorem assigned_underway : Meets (Assigned ctx B (F.spending ctx.function id)) (setProgress id .underway)
    (fun _ => Assigned ctx B (F.spending ctx.function id)) Anyhow := by
  rintro s ⟨K, hK, hF, hspent⟩
  exact ⟨K, hK.setNode nofun hspent, F.stable ((quietly_setNode s id _).onward K) hF, hspent⟩

/-- A node is built, in a covered slot of its kind; in an outer region, only in a fixed one. -/
theorem assigned_built {slot : Option TypedSlot} {region : Region}
    (hkind : ∀ x, slot = some x → ctx.function.kind? id = some x.kind)
    (hslot : F.Covers slot.toList) :
    Meets (fun s => (region < s.nextRegion ∧ (region ∈ s.regions.tail → ∀ x, slot = some x → x ∈ ctx.params ++ ctx.vars)) ∧
        Assigned ctx B (F.spending ctx.function id) s) (setProgress id (.built slot region))
      (fun _ => Assigned ctx B F) Anyhow := by
  rintro s ⟨⟨hregion, houter⟩, K, hK, hF, hspent⟩
  refine ⟨K, hK.setNode (fun other r hb => ?_) hspent, F.stable ((quietly_setNode s id _).onward K) hF⟩
  cases hb
  exact ⟨hregion, fun x hx => ⟨hkind x hx, hslot K s hF x (Option.mem_toList.2 hx), fun hr => houter hr x hx⟩⟩

theorem assigned_vacate : Meets (Assigned ctx B F) (vacate id) (fun _ => Assigned ctx B F) Anyhow := by
  have hlook : Meets (Assigned ctx B F) (nodeState id) (fun n s => n = s.node id ∧ Assigned ctx B F s) Anyhow :=
    fun s hs => ⟨rfl, hs⟩
  refine hlook.bind fun n => ?_
  split
  · rename_i slot region hp
    have hrelease : Meets (fun s => n = s.node id ∧ Assigned ctx B F s) (releaseSlot slot)
        (fun _ s => (s.node id).progress = .built (some slot) region ∧ Assigned ctx B F s) Anyhow := by
      refine .read fun s ⟨hn, hs⟩ => ?_
      cases hr : s.pool.release slot.kind slot.slot with
      | error e => exact .fail trivial
      | ok pool =>
        intro t ht
        subst ht
        obtain ⟨K, hK, hF⟩ := hs
        have hq : Quietly t { t with pool } := ⟨rfl, ⟨rfl, rfl⟩, ⟨rfl, rfl⟩, rfl, fun _ _ h => h, fun _ => Nat.le_refl _⟩
        exact ⟨hn ▸ hp, K, hK.books hq fun _ => rfl, F.stable (hq.onward K) hF⟩
    refine hrelease.bind fun _ => ?_
    rintro s ⟨hbuilt, K, hK, hF⟩
    have hspent : ctx.function.NeverEnds id → (s.left id).consumers = 0 := fun hid => by
      have := hK.spent id hid
      rw [hbuilt] at this
      exact Nat.le_zero.1 this
    refine ⟨K, hK.setNode (fun other r hb => ?_) hspent, F.stable ((quietly_setNode s id _).onward K) hF⟩
    cases hb
    exact ⟨hK.young id _ _ hbuilt, nofun⟩
  · exact .pure fun _ hs => hs.2

theorem assigned_release : Meets (Assigned ctx B F) (release id) (fun _ => Assigned ctx B F) Anyhow := by
  have hlook : Meets (Assigned ctx B F) (nodeState id) (fun n s => n = s.node id ∧ Assigned ctx B F s) Anyhow :=
    fun s hs => ⟨rfl, hs⟩
  refine hlook.bind fun n => ?_
  split
  · exact .fail trivial
  · have hless : Meets (fun s => n = s.node id ∧ Assigned ctx B F s) (modify (·.setNode id { n with pending := n.pending - 1 }))
        (fun _ => Assigned ctx B F) Anyhow := by
      refine .each fun s hs => ?_
      obtain ⟨rfl, hs⟩ := hs
      have hkeep : Meets (Assigned ctx B F) (modify fun t => t.setNode id { t.node id with pending := (s.node id).pending - 1 })
          (fun _ => Assigned ctx B F) Anyhow := assigned_keeps (.update fun _ => coverPart_setNode rfl)
      intro t ht
      subst ht
      exact hkeep t hs
    refine hless.bind fun _ => .bind (assigned_keeps .get) fun _ => ?_
    split
    · exact assigned_vacate
    · exact .pure fun _ hs => hs

theorem assigned_resultSlot (hint : Option TypedSlot) : Meets (Assigned ctx B F) (ctx.resultSlot id hint)
    (fun x s => ctx.function.kind? id = some x.kind ∧ Assigned ctx B F s) Anyhow := by
  unfold Context.resultSlot
  split
  · exact .fail trivial
  · rename_i kind hkind
    have hacquire : Meets (Assigned ctx B F) (acquire kind)
        (fun x s => ctx.function.kind? id = some x.kind ∧ Assigned ctx B F s) Anyhow :=
      (assigned_acquire kind).post fun x s hx => ⟨hx.1 ▸ hkind, hx.2⟩
    split
    · refine .bind (assigned_keeps .get) fun _ => ?_
      split
      · rename_i hsame
        exact assigned_borrow.bind fun _ => .pure fun t ht => ⟨hsame.1 ▸ hkind, ht⟩
      · exact hacquire
    · exact hacquire

/-- Only a node whose value is demanded gets a slot. -/
theorem assigned_demandedSlot (hint : Option TypedSlot) : Meets (Assigned ctx B F) (ctx.demandedSlot id hint)
    (fun r s => (∀ x, r = some x → ctx.function.kind? id = some x.kind ∧ (tallyAt ctx.function.tallies id).demanded = true) ∧
      Assigned ctx B F s) Anyhow := by
  refine assigned_isDemanded.bind fun d => .given fun hd => ?_
  split
  · rename_i hyes
    refine .map ((assigned_resultSlot hint).post fun x s hx => ⟨fun y hy => ?_, hx.2⟩)
    cases hy
    exact ⟨hx.1, hd ▸ hyes⟩
  · exact .pure fun s hs => ⟨nofun, hs⟩

theorem assigned_intern (text : String) : Meets (Assigned ctx B F) (intern text) (fun _ => Assigned ctx B F) Anyhow := by
  exact assigned_keeps fun _ => rfl

/-! ## Steps of the code -/

/-- An instruction after which control goes on. -/
theorem assigned_emit {ins : Instruction} {reads : List TypedSlot} {write : Option TypedSlot}
    (hop : ∀ sites, ins.operands sites = some (reads, write)) (hnext : ∀ i, ins.next i = [i + 1]) (hreads : F.Covers reads) :
    Meets (Assigned ctx B F) (emit ins) (fun _ => Assigned ctx B (F.adding write.toList)) Anyhow := by
  rintro s ⟨K, hK, hF⟩
  obtain ⟨hcovered, honward⟩ := hK.push (M := K s.draft.label ∪ {x | write = some x}) (d := s.draft.add ins) rfl (hop _)
    (hreads K s hF) (fun x hx => .inl hx) fun j hj => .inl ⟨List.mem_singleton.1 (hnext _ ▸ hj), fun x hx => hx⟩
  refine ⟨_, hcovered, F.stable honward hF, fun x hx => ?_⟩
  have hlabel : (s.draft.add ins).label = s.draft.label + 1 := by simp [Draft.label, Draft.add]
  show x ∈ Coverage.put _ _ _ (s.draft.add ins).label
  rw [hlabel, Coverage.put_self]
  exact .inr (Option.mem_toList.1 hx)

theorem assigned_write {ins : Instruction} {r : TypedSlot} (hwrite : ins.writes = some r) (hreads : F.Covers ins.reads) :
    Meets (Assigned ctx B F) (emit ins) (fun _ => Assigned ctx B (F.adding [r])) Anyhow :=
  assigned_emit (fun sites => (Instruction.of_writes hwrite sites 0).1) (fun i => (Instruction.of_writes hwrite #[] i).2) hreads

/-- An instruction that only checks or stores what it reads. -/
theorem assigned_read {ins : Instruction} {reads : List TypedSlot} (hop : ∀ sites, ins.operands sites = some (reads, none))
    (hnext : ∀ i, ins.next i = [i + 1]) (hreads : F.Covers reads) :
    Meets (Assigned ctx B F) (emit ins) (fun _ => Assigned ctx B F) Anyhow :=
  (assigned_emit hop hnext hreads).post fun _ _ hs => hs.weaken fun _ _ h => h.1

/-- A call is lowered to its site and the instruction that runs it. -/
theorem assigned_call {site : CallSite} (hreads : F.Covers site.reads) :
    Meets (Assigned ctx B F) (do emit (.call (← addSite site)))
      (fun _ => Assigned ctx B (F.adding site.result.toList)) Anyhow := by
  rintro s ⟨K, hK, hF⟩
  have hq : Quietly s { s with sites := s.sites.push site } :=
    ⟨rfl, ⟨rfl, rfl⟩, ⟨rfl, rfl⟩, rfl, fun k c hc => by
      rwa [Array.getElem?_push, if_neg (Nat.ne_of_lt (Array.getElem?_eq_some_iff.1 hc).1)], fun _ => Nat.le_refl _⟩
  have hop : (Instruction.call s.sites.size).operands (s.sites.push site) = some (site.reads, site.result) := by
    simp [Instruction.operands]
  obtain ⟨hcovered, honward⟩ := (hK.books hq fun _ => rfl).push (M := K s.draft.label ∪ {x | site.result = some x})
    (d := s.draft.add (.call s.sites.size)) rfl hop (hreads K s hF) (fun x hx => .inl hx)
    fun j hj => .inl ⟨List.mem_singleton.1 hj, fun x hx => hx⟩
  refine ⟨_, hcovered, F.stable ((hq.onward K).trans honward) hF, fun x hx => ?_⟩
  have hlabel : (s.draft.add (.call s.sites.size)).label = s.draft.label + 1 := by simp [Draft.label, Draft.add]
  show x ∈ Coverage.put _ _ _ (s.draft.add (.call s.sites.size)).label
  rw [hlabel, Coverage.put_self]
  exact .inr (Option.mem_toList.1 hx)

/-- After an instruction from which control goes at most back, everything is covered. -/
theorem Covered.stop (h : Covered ctx B K s) {d : Draft} {ins : Instruction} (hd : d.code = s.draft.code.push ins)
    (hop : ins.operands s.sites = some ([], none))
    (hnext : ∀ j ∈ ins.next s.draft.label, j ≤ s.draft.label ∧ ∀ x ∈ K j, x ∈ K s.draft.label) :
    ∃ K', Covered ctx B K' { s with draft := d } ∧ Onward s K { s with draft := d } K' ∧ ∀ x, x ∈ K' d.label := by
  obtain ⟨hcovered, honward⟩ := h.push (M := Set.univ) hd hop nofun (fun x _ => Set.mem_univ x) fun j hj =>
    .inr ⟨(hnext j hj).1, fun x hx => .inl ((hnext j hj).2 x hx)⟩
  refine ⟨_, hcovered, honward, fun x => ?_⟩
  have hlabel : d.label = s.draft.label + 1 := by simp [Draft.label, hd]
  rw [hlabel, Coverage.put_self]
  exact Set.mem_univ x

theorem assigned_unreachable :
    Meets (Assigned ctx B F) (emit .unreachable) (fun _ => Assigned ctx B (F.ending True)) Anyhow := by
  rintro s ⟨K, hK, hF⟩
  obtain ⟨K', hK', honward, hall⟩ := hK.stop (d := s.draft.add .unreachable) rfl rfl nofun
  exact ⟨K', hK', F.stable honward hF, fun _ => hall⟩

/-- Control goes back to where no more is covered. -/
theorem assigned_goto {a : Nat}
    (ha : ∀ K s, Covered ctx B K s → F.holds K s → a ≤ s.draft.label ∧ ∀ x ∈ K a, x ∈ K s.draft.label) :
    Meets (Assigned ctx B F) (emit (.goto (.address a))) (fun _ => Assigned ctx B (F.ending True)) Anyhow := by
  rintro s ⟨K, hK, hF⟩
  obtain ⟨K', hK', honward, hall⟩ := hK.stop (d := s.draft.add (.goto (.address a))) rfl rfl fun j hj => by
    obtain rfl := List.mem_singleton.1 hj
    exact ha K s hK hF
  exact ⟨K', hK', F.stable honward hF, fun _ => hall⟩

/-- An open jump leaves from here, where at least `M` is covered. -/
theorem assigned_gotoPending {M : Set TypedSlot}
    (hM : ∀ K s, Covered ctx B K s → F.holds K s → ∀ x ∈ M, x ∈ K s.draft.label) :
    Meets (Assigned ctx B F) gotoPending (fun p => Assigned ctx B ((F.leaving M [p]).ending True)) Anyhow := by
  rintro s ⟨K, hK, hF⟩
  obtain ⟨K', hK', honward, hall⟩ := hK.stop (d := s.draft.add (.goto .pending)) rfl rfl nofun
  refine ⟨K', hK', ⟨F.stable honward hF, fun p hp => ?_⟩, fun _ => hall⟩
  obtain rfl := List.mem_singleton.1 hp
  refine ⟨by simp [Draft.label, Draft.add], fun x hx => ?_⟩
  rw [honward.same _ (Nat.le_refl _)]
  exact hM K s hK hF x hx

/-- A condition on a covered slot. -/
theorem assigned_onSlot {cond : Slot} (hcond : F.Covers [⟨.int, cond⟩]) :
    Meets (Assigned ctx B F) (drafting (Branch.onSlot cond))
      (fun b s => b.fallThrough = s.draft.label ∧ Assigned ctx B (F.branching b) s) Anyhow := by
  rintro s ⟨K, hK, hF⟩
  obtain ⟨hcovered, honward⟩ := hK.push (M := K s.draft.label) (d := s.draft.reserve.2) rfl (rfl : Instruction.nop.operands _ = _)
    (List.forall_mem_nil _) (fun _ hx => hx) fun j hj => .inl ⟨List.mem_singleton.1 hj, fun x hx => .inl hx⟩
  have hlabel : s.draft.reserve.2.label = s.draft.label + 1 := by simp [Draft.label, Draft.reserve]
  have hhere : K.put (s.draft.label + 1) (K s.draft.label) s.draft.label = K s.draft.label := honward.same _ (Nat.le_refl _)
  refine ⟨rfl, _, hcovered, F.stable honward hF, hlabel.symm, Nat.le_refl _, ?_, fun x hx => ?_, List.forall_mem_nil _⟩
  · rw [hhere]
    exact hcond K s hF _ List.mem_cons_self
  · rw [hhere]
    have hx : x ∈ K.put (s.draft.label + 1) (K s.draft.label) s.draft.reserve.2.label := hx
    rwa [hlabel, Coverage.put_self] at hx

/-! ## Paths that part and meet -/

/-- Since `u`, no value has been built for the regions that were open there. -/
def Parted (ctx : Context) (u : State) (B : Bases) (F : Facts) (s : State) : Prop :=
  s.regions = u.regions ∧ Shut ctx u s ∧ Assigned ctx B F s

variable {u : State} {K₁ : Coverage} {M : Set TypedSlot}

theorem Covered.parted (h : Covered ctx B K u) (hF : F.holds K u) : Parted ctx u B F u :=
  ⟨rfl, fun _ _ _ _ hp => .inl hp, K, h, hF⟩

theorem Parted.weaken (h : Parted ctx u B F s) (hF : ∀ K s, F.holds K s → F'.holds K s) : Parted ctx u B F' s :=
  ⟨h.1, h.2.1, h.2.2.weaken hF⟩

theorem parted_drafting {act : Drafting α} {Q : α → Facts}
    (h : Meets (Assigned ctx B F) (drafting act) (fun a => Assigned ctx B (Q a)) Anyhow) :
    Meets (Parted ctx u B F) (drafting act) (fun a => Parted ctx u B (Q a)) Anyhow := by
  rintro s ⟨hregions, hshut, hs⟩
  split
  · rename_i a t hr
    have hQ := h.ok hs hr
    obtain ⟨d, -, rfl⟩ := drafting_ok hr
    exact ⟨hregions, hshut, hQ⟩
  · exact trivial

theorem parted_label : Meets (Parted ctx u B F) label (fun n s => n = s.draft.label ∧ Parted ctx u B F s) Anyhow :=
  fun _ hs => ⟨rfl, hs⟩

/-- What is lowered in a region of its own builds no value for the regions around it. -/
theorem parted_inRegion {Q : α → Facts} {R : α → Nat → Prop} {act : Lower α}
    (h : ∀ B, Meets (Assigned ctx B F) act (fun a s => R a s.draft.label ∧ Assigned ctx B (Q a) s) Anyhow) :
    Meets (Parted ctx u B F) (inRegion act) (fun a s => R a s.draft.label ∧ Parted ctx u B (Q a) s) Anyhow := by
  refine .each fun s hs => ?_
  obtain ⟨hu, hshut, K, hK, hF⟩ := hs
  let B' : Bases := ⟨B.blocks, B.loops, s.nextRegion :: s.regions, fun id x r => (s.node id).progress = .built (some x) r⟩
  have hopen : Covered ctx B' K { s with regions := s.nextRegion :: s.regions, nextRegion := s.nextRegion + 1 } :=
    { hK with
      held := fun id x r hp hr => (List.mem_cons.1 hr).elim (fun he => absurd he (Nat.ne_of_lt (hK.young id _ r hp)))
        (hK.held id x r hp)
      young := fun id slot r hp => Nat.lt_succ_of_lt (hK.young id slot r hp)
      regions := rfl
      sorted := List.pairwise_cons.2 ⟨fun r hr => (List.mem_cons.1 hr).elim (fun he => he ▸ Nat.lt_succ_self _) fun hr =>
        Nat.lt_succ_of_lt ((List.pairwise_cons.1 hK.sorted).1 r hr), hK.sorted⟩
      opened := Nat.lt_succ_of_lt hK.opened
      outer := fun id x r hp _ => .inl hp }
  have henter : Meets (· = s) openRegion (fun r t => r = s.nextRegion ∧ Assigned ctx B' F t) Anyhow := by
    intro t ht
    subst ht
    exact ⟨rfl, K, hopen, F.of_code hF rfl rfl⟩
  refine henter.bind fun r => .given fun hr => (h B').bind fun a => ?_
  subst hr
  have hleave : Meets (fun t => R a t.draft.label ∧ Assigned ctx B' (Q a) t) (closeRegion s.nextRegion)
      (fun _ t => R a t.draft.label ∧ Parted ctx u B (Q a) t) Anyhow := by
    refine .read fun v ⟨hR, K', hK', hQ⟩ => ?_
    have hv : v.regions = s.nextRegion :: s.regions := hK'.regions
    simp only [hv, if_true]
    intro t ht
    subst ht
    have hshut' : Shut ctx s { t with regions := s.regions } := by
      intro id x r hr hp
      have hp : (t.node id).progress = .built (some x) r := hp
      exact hK'.outer id x r hp (by rw [hv]; exact hr)
    refine ⟨hR, hu, fun id x r hr hp => ?_, K', ?_, (Q a).of_code hQ rfl rfl⟩
    · rw [← hu] at hr
      exact (hshut' id x r hr hp).elim (hshut id x r (hu ▸ hr)) .inr
    · exact
        { hK' with
          held := fun id x r hp hr => hK'.held id x r hp (by rw [hv]; exact List.mem_cons_of_mem _ hr)
          regions := hK.regions
          sorted := by
            have := hK'.sorted
            rw [hv, List.pairwise_cons] at this
            exact List.pairwise_cons.2 ⟨fun r hr => this.1 r (List.mem_cons_of_mem _ hr), (List.pairwise_cons.1 this.2).2⟩
          outer := fun id x r hp hr => (hshut' id x r (List.mem_of_mem_tail hr) hp).elim (fun hp => hK.outer id x r hp hr) .inr }
  exact hleave.bind fun _ => .pure fun _ ht => ht

/-- The coverage here becomes `M`. -/
theorem Parted.meet (hu : Covered ctx B K₁ u) (hs : Parted ctx u B F s)
    (hF : ∀ K, F.holds K s → Onward u K₁ s K ∧ ∀ x ∈ M, x ∈ K s.draft.label) (hM : ∀ x ∈ K₁ u.draft.label, x ∈ M) :
    ∃ K K', F.holds K s ∧ Covered ctx B K' s ∧ Onward u K₁ s K' ∧ K' s.draft.label = M ∧
      ∀ i < s.draft.label, K' i = K i := by
  obtain ⟨-, hshut, K, hK, hholds⟩ := hs
  obtain ⟨honward, hcover⟩ := hF K hholds
  obtain ⟨hmeet, honward'⟩ := hu.meet hK honward hshut hM hcover
  exact ⟨K, _, hholds, hmeet, honward', K.put_self _ M, fun i hi => K.put_of_ne M (Nat.ne_of_lt hi)⟩

/-- Jumps are let in here, where then `M` is covered; `others` stay open. -/
theorem parted_join (hu : Covered ctx B K₁ u) {act : Drafting Unit} (M N : Set TypedSlot) (jumps others : List Patch)
    (hM : ∀ x ∈ K₁ u.draft.label, x ∈ M)
    (hF : ∀ K s, F.holds K s → Onward u K₁ s K ∧ (∀ x ∈ M, x ∈ K s.draft.label) ∧ Leaving K s.draft.label M jumps ∧
      Leaving K s.draft.label N others) (n : Nat)
    (hact : ∀ K s, Onward u K₁ s K → n = s.draft.label → K n = M → Leaving K n M jumps →
      Mends K s.sites n act fun _ => True) :
    Meets (fun s => n = s.draft.label ∧ Parted ctx u B F s) (drafting act)
      (fun _ => Parted ctx u B (((Facts.since u K₁).leaving N others).covering M)) Anyhow := by
  rintro s ⟨rfl, hs⟩
  obtain ⟨K, K', hholds, hK', honward, hhere, hbehind⟩ := hs.meet hu (fun K h => ⟨(hF K s h).1, (hF K s h).2.1⟩) hM
  obtain ⟨-, -, hjumps, hothers⟩ := hF K s hholds
  have hmend := hact K' s honward rfl hhere (hjumps.mono hbehind (Nat.le_refl _))
  split
  · rename_i a t hr
    obtain ⟨hcovered, honward', -⟩ := hK'.mend hmend hr
    obtain ⟨d, -, rfl⟩ := drafting_ok hr
    refine ⟨hs.1, hs.2.1, K', hcovered, ⟨honward.trans honward', ?_⟩, fun x hx => honward'.grows x (hhere ▸ hx)⟩
    exact (hothers.mono hbehind (Nat.le_refl _)).mono (fun _ _ => rfl) honward'.label
  · exact trivial

/-- A condition goes on here when it is `polarity`; where it was asked is where paths parted. -/
theorem parted_resolve (hu : Covered ctx B K₁ u) {b : Branch} (hb : Branch.Covered K₁ u.draft.label b)
    (hfall : b.fallThrough = u.draft.label) (N : Set TypedSlot) (others : List Patch) (polarity : Bool) (n : Nat) :
    Meets (fun s => n = s.draft.label ∧ Parted ctx u B ((Facts.since u K₁).leaving N others) s)
      (drafting (b.resolve polarity (.address n))) (fun _ => Parted ctx u B ((Facts.since u K₁).leaving N others)) Anyhow := by
  refine (parted_join (F := (Facts.since u K₁).leaving N others) hu (K₁ u.draft.label) N [] others (fun _ hx => hx)
    (fun K s h => ⟨h.1, h.1.grows, List.forall_mem_nil _, h.2⟩) n fun K s ho hn hhere _ => ?_).post
      fun _ t ht => ht.weaken fun _ _ h => h.1
  subst hn
  have hb' : Branch.Covered K s.draft.label b := (((Facts.since u K₁).branching b).stable ho ⟨.refl u K₁, hb⟩).2
  refine .resolve hb' polarity (Nat.le_refl _) fun x hx => ?_
  rw [hfall, ho.same _ (Nat.le_refl _), ← hhere]
  exact hx

/-- Where a condition was asked for is where paths part. -/
theorem parted_defer (hu : Covered ctx B K₁ u) {b : Branch} (hb : Branch.Covered K₁ u.draft.label b)
    (hfall : b.fallThrough = u.draft.label) (polarity : Bool) :
    Meets (· = u) (drafting (b.defer polarity))
      (fun jumps s => u.draft.label = s.draft.label ∧
        Parted ctx u B ((Facts.since u K₁).leaving (K₁ u.draft.label) jumps) s) Anyhow := by
  intro s hs
  subst hs
  split
  · rename_i jumps t hr
    obtain ⟨hcovered, honward, hleave⟩ := hu.mend (.defer hb polarity) hr
    obtain ⟨d, hd, rfl⟩ := drafting_ok hr
    obtain ⟨hlabel, -, -⟩ := Mends.defer hb polarity s.draft rfl hu.code jumps d hd
    refine ⟨hlabel.symm, rfl, fun _ _ _ _ hp => .inl hp, K₁, hcovered, honward, ?_⟩
    rw [hfall] at hleave
    exact hleave.mono (fun _ _ => rfl) honward.label
  · exact trivial

end SlotCode.Lowering
