/-
  SlotCode.Proofs.FinalCode — what a draft already says about the code it will become.

  A draft fixes every instruction but two: the target of an open jump, and what will
  stand at a reserved position. `Draft.Becomes` says that finished code agrees with it
  everywhere else. Every edit only adds to what is fixed (`Draft.Before`), so finished code
  agrees with every draft on the way.

  A branch is decided in finished code when its jumps go to one address if the condition
  is true and to another if it is false (`Branch.Decides`).

  Proved: each edit of a draft, and `defer` and `resolve` of a branch, say what the
  finished code does with the jumps they were given.
-/

import SlotCode.Code.Branch

namespace SlotCode

/-- A jump in finished code goes to `a`. -/
def Patch.Aims (p : Patch) (code : Array Instruction) (a : Nat) : Prop :=
  ∃ ins, code[p.position]? = some ins ∧ ins.target? = some (.address a)

namespace Draft

/-- Finished code agrees with the draft, except for open targets and reserved positions. -/
def Becomes (d : Draft) (code : Array Instruction) : Prop :=
  ∀ (i : Nat) (ins : Instruction), d.code[i]? = some ins → ins ≠ .nop →
    if isPendingJump ins then ∃ a, code[i]? = some (ins.retarget (.address a)) else code[i]? = some ins

/-- Each reserved position is listed once and empty. -/
structure Clean (d : Draft) : Prop where
  once : d.reserved.Nodup
  empty : ∀ p ∈ d.reserved, d.code[p]? = some .nop

/-- The later draft fixes all that the earlier one does. -/
structure Before (d e : Draft) : Prop where
  clean : e.Clean
  label : d.label ≤ e.label
  becomes : ∀ code, e.Becomes code → d.Becomes code

theorem Before.refl {d : Draft} (h : d.Clean) : d.Before d := ⟨h, Nat.le_refl _, fun _ h => h⟩

theorem Before.trans {d e g : Draft} (h₁ : d.Before e) (h₂ : e.Before g) : d.Before g :=
  ⟨h₂.clean, Nat.le_trans h₁.label h₂.label, fun code h => h₁.becomes code (h₂.becomes code h)⟩

variable {d e : Draft} {code : Array Instruction}

theorem Becomes.at {i : Nat} {ins : Instruction} (h : d.Becomes code) (hi : d.code[i]? = some ins) (hn : ins ≠ .nop)
    (hp : isPendingJump ins = false) : code[i]? = some ins := by
  have := h i ins hi hn
  rwa [if_neg (by simp [hp])] at this

theorem Becomes.open_ {i : Nat} {ins : Instruction} (h : d.Becomes code) (hi : d.code[i]? = some ins)
    (hp : isPendingJump ins = true) : ∃ a, code[i]? = some (ins.retarget (.address a)) := by
  have hn : ins ≠ .nop := fun he => by rw [he] at hp; cases hp
  have := h i ins hi hn
  rwa [if_pos hp] at this

theorem lt_of_getElem? {i : Nat} {ins : Instruction} (h : d.code[i]? = some ins) : i < d.label :=
  (Array.getElem?_eq_some_iff.1 h).1

theorem getElem?_push (d : Draft) (ins : Instruction) (i : Nat) :
    (d.code.push ins)[i]? = if i = d.label then some ins else d.code[i]? := Array.getElem?_push

theorem getElem?_old (ins : Instruction) {i : Nat} {old : Instruction} (h : d.code[i]? = some old) :
    (d.code.push ins)[i]? = some old := by
  rw [getElem?_push, if_neg (Nat.ne_of_lt (lt_of_getElem? h)), h]

/-- An instruction that was appended stands where the next position was. -/
theorem Becomes.added {ins : Instruction} (h : (d.add ins).Becomes code) (hn : ins ≠ .nop) (hp : isPendingJump ins = false) :
    code[d.label]? = some ins :=
  h.at ((getElem?_push d ins d.label).trans (if_pos rfl)) hn hp

/-! ## Single edits -/

theorem before_add (h : d.Clean) (ins : Instruction) : d.Before (d.add ins) where
  clean := ⟨h.once, fun p hp => getElem?_old ins (h.empty p hp)⟩
  label := by simp [label, add]
  becomes _ hb i old hi hn := hb i old (getElem?_old ins hi) hn

theorem before_reserve (h : d.Clean) : d.Before d.reserve.2 where
  clean := by
    refine ⟨List.nodup_cons.2 ⟨fun hm => ?_, h.once⟩, fun p hp => ?_⟩
    · exact absurd (lt_of_getElem? (h.empty _ hm)) (Nat.lt_irrefl _)
    · rcases List.mem_cons.1 hp with rfl | hp
      · exact (getElem?_push d .nop _).trans (if_pos rfl)
      · exact getElem?_old .nop (h.empty p hp)
  label := by simp [label, reserve]
  becomes _ hb i old hi hn := hb i old (getElem?_old .nop hi) hn

theorem getElem?_set (p i : Nat) (ins : Instruction) {old : Instruction} (hp : d.code[p]? = some old) :
    (d.code.setIfInBounds p ins)[i]? = if p = i then some ins else d.code[i]? := by
  rw [Array.getElem?_setIfInBounds]
  have hlt : p < d.code.size := lt_of_getElem? hp
  by_cases h : p = i
  · subst h
    simp [hlt]
  · simp [h]

theorem before_fillJump (h : d.Clean) {p : Nat} {jump : Instruction} {patch : Patch}
    (hf : d.fillJump p jump = .ok (patch, e)) :
    d.Before e ∧ e.label = d.label ∧ patch = ⟨p⟩ ∧ isPendingJump jump = true ∧ e.code[p]? = some jump := by
  unfold fillJump fill at hf
  split at hf
  · rename_i hjump
    split at hf
    · rename_i hmem
      cases hf
      have hset := fun i => getElem?_set p i jump (h.empty p hmem)
      have hlabel : Draft.label ⟨d.code.setIfInBounds p jump, d.reserved.erase p⟩ = d.label := by simp [label]
      refine ⟨⟨⟨h.once.erase p, fun q hq => ?_⟩, by omega, fun code hb i old hi hn => ?_⟩, hlabel, rfl, hjump, ?_⟩
      · have hne : p ≠ q := fun he => by
          subst he
          exact (List.Nodup.mem_erase_iff h.once).1 hq |>.1 rfl
        rw [hset, if_neg hne]
        exact h.empty q (List.mem_of_mem_erase hq)
      · have hne : p ≠ i := fun he => by
          subst he
          rw [h.empty p hmem] at hi
          exact hn (Option.some.inj hi).symm
        exact hb i old (by rw [hset, if_neg hne, hi]) hn
      · rw [hset, if_pos rfl]
    · cases hf
  · cases hf

theorem before_patch (h : d.Clean) {p : Patch} {a : Nat} (hp : d.patch p (.address a) = .ok e) :
    d.Before e ∧ e.label = d.label ∧ ∀ code, e.Becomes code → p.Aims code a := by
  unfold patch at hp
  split at hp
  · cases hp
  · rename_i ins hins
    split at hp
    · cases hp
    · rename_i htarget
      cases hp
      have hpending : isPendingJump ins = true := by simp [isPendingJump, htarget]
      have hset := fun i => getElem?_set p.position i (ins.retarget (.address a)) hins
      have hto : (ins.retarget (.address a)).target? = some (.address a) := by
        cases ins <;> simp_all [Instruction.retarget, Instruction.target?]
      have hnew : ∀ code, Draft.Becomes { d with code := d.code.setIfInBounds p.position (ins.retarget (.address a)) } code →
          code[p.position]? = some (ins.retarget (.address a)) := by
        intro code hb
        refine hb.at (by rw [hset, if_pos rfl]) (fun he => ?_) ?_
        · rw [he] at hto
          cases hto
        · simp [isPendingJump, hto]
      refine ⟨⟨⟨h.once, fun q hq => ?_⟩, by simp [label], fun code hb i old hi hn => ?_⟩, by simp [label], fun code hb =>
        ⟨_, hnew code hb, hto⟩⟩
      · have hne : p.position ≠ q := fun he => by
          rw [he, h.empty q hq] at hins
          cases hins
          cases htarget
        rw [hset, if_neg hne]
        exact h.empty q hq
      · by_cases he : p.position = i
        · subst he
          rw [hins] at hi
          cases hi
          rw [if_pos hpending]
          exact ⟨a, hnew code hb⟩
        · exact hb i old (by rw [hset, if_neg he, hi]) hn
    · cases hp

end Draft

/-! ## Runs of edits -/

theorem drafting_bind_ok {α β : Type} {x : Drafting α} {f : α → Drafting β} {b : β} {d e : Draft}
    (h : (x >>= f) d = .ok b e) : ∃ a d', x d = .ok a d' ∧ f a d' = .ok b e := by
  simp only [bind, EStateM.bind] at h
  split at h
  · rename_i a d' hx
    exact ⟨a, d', hx, h⟩
  · cases h

theorem drafting_edit_ok {α : Type} {f : Draft → Except Draft.Error (α × Draft)} {a : α} {d e : Draft}
    (h : Drafting.edit f d = .ok a e) : f d = .ok (a, e) := by
  unfold Drafting.edit at h
  split at h
  · rename_i hf
    cases h
    exact hf
  · cases h

variable {d e : Draft} {a : Nat}

theorem before_patchEdit (h : d.Clean) {p : Patch} (hp : Drafting.patch p (.address a) d = .ok () e) :
    d.Before e ∧ e.label = d.label ∧ ∀ code, e.Becomes code → p.Aims code a := by
  have hmap := drafting_edit_ok hp
  cases hd : d.patch p (.address a) with
  | error x => rw [hd] at hmap; cases hmap
  | ok d' =>
    rw [hd] at hmap
    cases hmap
    exact Draft.before_patch h hd

theorem before_patchAll {ps : List Patch} : ∀ {d : Draft}, d.Clean → Drafting.patchAll ps (.address a) d = .ok () e →
    d.Before e ∧ e.label = d.label ∧ ∀ code, e.Becomes code → ∀ p ∈ ps, p.Aims code a := by
  induction ps with
  | nil =>
    intro d h hp
    cases hp
    exact ⟨.refl h, rfl, by simp⟩
  | cons p ps ih =>
    intro d h hp
    obtain ⟨_, d', h₁, h₂⟩ := drafting_bind_ok (show (Drafting.patch p (.address a) >>= fun _ =>
      Drafting.patchAll ps (.address a)) d = .ok () e from hp)
    obtain ⟨hb₁, hl₁, ha₁⟩ := before_patchEdit h h₁
    obtain ⟨hb₂, hl₂, ha₂⟩ := ih hb₁.clean h₂
    refine ⟨hb₁.trans hb₂, hl₂.trans hl₁, fun code hc q hq => ?_⟩
    rcases List.mem_cons.1 hq with rfl | hq
    · exact ha₁ code (hb₂.becomes code hc)
    · exact ha₂ code hc q hq

/-! ## Branches -/

namespace Branch

/-- In finished code, control goes to `yes` when the condition is true and to `no` when it is false. -/
structure Decides (b : Branch) (code : Array Instruction) (yes no : Nat) : Prop where
  whenTrue : ∀ p ∈ b.whenTrue, p.Aims code yes
  whenFalse : ∀ p ∈ b.whenFalse, p.Aims code no
  tail : ∃ polarity x, code[b.tail.position]? =
      some (.jumpIf (polarity != b.tail.negated) b.tail.cond (.address x)) ∧
    (if polarity then yes = x ∧ no = b.fallThrough else no = x ∧ yes = b.fallThrough)

variable {b : Branch} {code : Array Instruction} {yes no : Nat}

theorem Decides.of_negate (h : b.negate.Decides code yes no) : b.Decides code no yes := by
  obtain ⟨polarity, x, htail, hx⟩ := h.tail
  refine ⟨h.whenFalse, h.whenTrue, !polarity, x, ?_, ?_⟩
  · rw [show b.tail.position = b.negate.tail.position from rfl, htail]
    cases polarity <;> cases hn : b.tail.negated <;> simp [negate, hn]
  · cases polarity <;> exact hx

theorem Decides.of_addSites {polarity : Bool} {ps : List Patch} (h : (b.addSites polarity ps).Decides code yes no) :
    b.Decides code yes no ∧ ∀ p ∈ ps, p.Aims code (if polarity then yes else no) := by
  cases polarity
  · refine ⟨⟨h.whenTrue, fun p hp => h.whenFalse p (List.mem_append_left _ hp), h.tail⟩, fun p hp => ?_⟩
    exact h.whenFalse p (List.mem_append_right _ hp)
  · refine ⟨⟨fun p hp => h.whenTrue p (List.mem_append_left _ hp), h.whenFalse, h.tail⟩, fun p hp => ?_⟩
    exact h.whenTrue p (List.mem_append_right _ hp)

/-- Where a branch goes that leaves to `a` on one polarity and falls through on the other. -/
theorem before_defer {polarity : Bool} {ps : List Patch} (hd : d.Clean) (hr : b.defer polarity d = .ok ps e) :
    d.Before e ∧ e.label = d.label ∧ ∀ code, e.Becomes code → (∀ p ∈ ps, p.Aims code a) →
      b.Decides code (if polarity then a else b.fallThrough) (if polarity then b.fallThrough else a) := by
  obtain ⟨tail, d₁, hfill, hrest⟩ := drafting_bind_ok hr
  obtain ⟨hb₁, hl₁, rfl, hjump, hat⟩ := Draft.before_fillJump hd (drafting_edit_ok hfill)
  have htail : ∀ code, e.Becomes code → d₁.Before e → (∀ p ∈ [Patch.mk b.tail.position], p.Aims code a) →
      code[b.tail.position]? = some (.jumpIf (polarity != b.tail.negated) b.tail.cond (.address a)) := by
    intro code hc hb haim
    obtain ⟨x, hx⟩ := (hb.becomes code hc).open_ hat hjump
    obtain ⟨ins, hins, hto⟩ := haim _ (List.mem_singleton_self _)
    rw [hx] at hins
    cases hins
    cases hto
    exact hx
  cases polarity
  · obtain ⟨_, d₂, hpatch, hret⟩ := drafting_bind_ok hrest
    cases hret
    obtain ⟨hb₂, hl₂, hstay⟩ := before_patchAll hb₁.clean hpatch
    refine ⟨hb₁.trans hb₂, hl₂.trans hl₁, fun code hc haim => ⟨?_, ?_, false, a, ?_, rfl, rfl⟩⟩
    · exact hstay code hc
    · exact fun p hp => haim p (List.mem_append_left _ hp)
    · exact htail code hc hb₂ fun p hp => haim p (List.mem_append_right _ hp)
  · obtain ⟨_, d₂, hpatch, hret⟩ := drafting_bind_ok hrest
    cases hret
    obtain ⟨hb₂, hl₂, hstay⟩ := before_patchAll hb₁.clean hpatch
    refine ⟨hb₁.trans hb₂, hl₂.trans hl₁, fun code hc haim => ⟨?_, ?_, true, a, ?_, rfl, rfl⟩⟩
    · exact fun p hp => haim p (List.mem_append_left _ hp)
    · exact hstay code hc
    · exact htail code hc hb₂ fun p hp => haim p (List.mem_append_right _ hp)

theorem before_resolve {polarity : Bool} (hd : d.Clean) (hr : b.resolve polarity (.address a) d = .ok () e) :
    d.Before e ∧ e.label = d.label ∧ ∀ code, e.Becomes code →
      b.Decides code (if polarity then a else b.fallThrough) (if polarity then b.fallThrough else a) := by
  obtain ⟨ps, d₁, hdefer, hpatch⟩ := drafting_bind_ok hr
  obtain ⟨hb₁, hl₁, hdecide⟩ := before_defer hd hdefer
  obtain ⟨hb₂, hl₂, haim⟩ := before_patchAll hb₁.clean hpatch
  exact ⟨hb₁.trans hb₂, hl₂.trans hl₁, fun code hc => hdecide code (hb₂.becomes code hc) (haim code hc)⟩

end Branch

end SlotCode
