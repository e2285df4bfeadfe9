/-
  SlotCode.Proofs.OpenJumps — the debts of code under construction.

  A draft owes a target to every open jump and an instruction to every reserved position.
  `Owes d sites tails` says that these are exactly the debts, each counted once, and that
  apart from them the code is sound: a `nop` stands only where a position is reserved, a
  jump that has a target goes no further than the next position, and nothing stops.

  Proved: every edit changes the debts in one way only, and an edit that pays an existing
  debt succeeds. So a branch that is owed can be deferred or resolved in either polarity
  (`Owes.defer`, `Owes.resolve`), and a draft without debts can be finished
  (`Owes.finish`).
-/

import Mathlib.Algebra.Order.Group.Multiset
import Mathlib.Data.Multiset.Filter
import Mathlib.Data.Multiset.Range
import Mathlib.Tactic.Convert
import SlotCode.Code.Branch

namespace SlotCode

/-- The positions of open jumps, with multiplicity. -/
def Patch.positions (ps : List Patch) : Multiset Nat := (ps.map (·.position) : List Nat)

namespace Patch

@[simp] theorem positions_nil : positions [] = 0 := rfl

@[simp] theorem positions_cons (p : Patch) (ps : List Patch) : positions (p :: ps) = p.position ::ₘ positions ps := rfl

@[simp] theorem positions_append (ps qs : List Patch) : positions (ps ++ qs) = positions ps + positions qs := by
  simp [positions]

end Patch

namespace Draft

variable {d d' : Draft} {sites tails : Multiset Nat} {ins : Instruction} {i a : Nat}

/-- The jump at the position has no target yet. -/
def isOpen (d : Draft) (i : Nat) : Bool := d.code[i]?.any isPendingJump

def openJumps (d : Draft) : Multiset Nat := (Multiset.range d.code.size).filter (d.isOpen ·)

theorem mem_openJumps : i ∈ d.openJumps ↔ d.isOpen i = true := by
  simp only [openJumps, Multiset.mem_filter, Multiset.mem_range, and_iff_right_iff_imp]
  intro h
  by_contra hi
  simp [isOpen, Array.getElem?_eq_none (Nat.le_of_not_lt hi)] at h

theorem nodup_openJumps (d : Draft) : d.openJumps.Nodup := (Multiset.nodup_range _).filter _

/-- Two drafts whose open positions differ by one more. -/
theorem openJumps_eq_cons (hi : d.isOpen i = false) (hi' : d'.isOpen i = true)
    (h : ∀ j, j ≠ i → d'.isOpen j = d.isOpen j) : d'.openJumps = i ::ₘ d.openJumps := by
  have hn : i ∉ d.openJumps := by simp [mem_openJumps, hi]
  refine (Multiset.Nodup.ext (nodup_openJumps d') (Multiset.nodup_cons.2 ⟨hn, nodup_openJumps d⟩)).2 fun j => ?_
  by_cases e : j = i
  · simp [e, mem_openJumps, hi']
  · simp [e, mem_openJumps, h j e]

theorem openJumps_congr (h : ∀ j, d'.isOpen j = d.isOpen j) : d'.openJumps = d.openJumps :=
  (Multiset.Nodup.ext (nodup_openJumps d') (nodup_openJumps d)).2 fun j => by simp [mem_openJumps, h j]

/-! ## Appending -/

theorem isOpen_add (d : Draft) (ins : Instruction) (j : Nat) :
    (d.add ins).isOpen j = if j = d.label then isPendingJump ins else d.isOpen j := by
  simp only [isOpen, add, label, Array.getElem?_push]
  split <;> simp_all

theorem isOpen_label (d : Draft) : d.isOpen d.label = false := by simp [isOpen, label]

@[simp] theorem label_add (d : Draft) (ins : Instruction) : (d.add ins).label = d.label + 1 := by simp [add, label]

theorem getElem?_add (d : Draft) (ins : Instruction) (j : Nat) :
    (d.add ins).code[j]? = if j = d.label then some ins else d.code[j]? := by
  show (d.code.push ins)[j]? = _
  rw [Array.getElem?_push]
  rfl

/-- What may be appended at once: a jump goes no further than the next position. -/
def Plain (ins : Instruction) (next : Nat) : Prop :=
  ins ≠ .nop ∧ ins ≠ .stop ∧ ∀ t, ins.target? = some t → ∃ a, t = .address a ∧ a ≤ next

/-- The draft owes targets to `sites` and instructions to `tails`, and is sound otherwise. -/
structure Owes (d : Draft) (sites tails : Multiset Nat) : Prop where
  sites : d.openJumps = sites
  tails : (d.reserved : Multiset Nat) = tails
  once : d.reserved.Nodup
  nops : ∀ i : Nat, d.code[i]? = some .nop ↔ i ∈ d.reserved
  targets : ∀ (i : Nat) (ins : Instruction) (a : Nat), d.code[i]? = some ins → ins.target? = some (.address a) →
    a ≤ d.label
  running : ∀ i : Nat, d.code[i]? ≠ some .stop

namespace Owes

theorem label_not_reserved (h : Owes d sites tails) : d.label ∉ d.reserved := by
  intro hr
  have := (h.nops d.label).2 hr
  simp [label] at this

theorem add (h : Owes d sites tails) (hp : Plain ins d.label) : Owes (d.add ins) sites tails := by
  obtain ⟨hnop, hstop, ht⟩ := hp
  have hpend : isPendingJump ins = false := by
    cases hti : ins.target? with
    | none => simp [isPendingJump, hti]
    | some t =>
      obtain ⟨a, rfl, _⟩ := ht t hti
      simp [isPendingJump, hti]
  refine ⟨?_, h.tails, h.once, fun j => ?_, fun j i a hj hi => ?_, fun j => ?_⟩
  · rw [← h.sites]
    refine openJumps_congr fun j => ?_
    rw [isOpen_add]
    split
    · rename_i e
      rw [e, isOpen_label, hpend]
    · rfl
  · rw [getElem?_add]
    split
    · rename_i e
      subst e
      exact iff_of_false (by simpa using hnop) h.label_not_reserved
    · exact h.nops j
  · rw [getElem?_add] at hj
    rw [label_add]
    split at hj
    · obtain rfl := Option.some.inj hj
      obtain ⟨a', e, hle⟩ := ht _ hi
      cases e
      omega
    · have := h.targets j i a hj hi
      omega
  · rw [getElem?_add]
    split
    · simpa using hstop
    · exact h.running j

theorem addOpen (ins : Instruction) (h : Owes d sites tails) (hp : isPendingJump ins = true) :
    Owes (d.add ins) (d.label ::ₘ sites) tails := by
  have ht : ins.target? = some .pending := by simpa [isPendingJump] using hp
  refine ⟨?_, h.tails, h.once, fun j => ?_, fun j i a hj hi => ?_, fun j => ?_⟩
  · rw [← h.sites]
    refine openJumps_eq_cons d.isOpen_label ?_ fun j hj => ?_
    · rw [isOpen_add, if_pos rfl, hp]
    · rw [isOpen_add, if_neg hj]
  · rw [getElem?_add]
    split
    · rename_i e
      subst e
      refine iff_of_false ?_ h.label_not_reserved
      rintro ⟨⟩
      cases ht
    · exact h.nops j
  · rw [getElem?_add] at hj
    rw [label_add]
    split at hj
    · obtain rfl := Option.some.inj hj
      rw [ht] at hi
      cases hi
    · have := h.targets j i a hj hi
      omega
  · rw [getElem?_add]
    split
    · rintro ⟨⟩
      cases ht
    · exact h.running j

theorem reserve (h : Owes d sites tails) : Owes d.reserve.2 sites (d.label ::ₘ tails) := by
  have hcode : ∀ j : Nat, d.reserve.2.code[j]? = if j = d.label then some .nop else d.code[j]? :=
    fun j => getElem?_add d .nop j
  have hlab : d.reserve.2.label = d.label + 1 := label_add d .nop
  refine ⟨?_, by simp [Draft.reserve, ← h.tails], List.nodup_cons.2 ⟨h.label_not_reserved, h.once⟩, fun j => ?_,
    fun j i a hj hi => ?_, fun j => ?_⟩
  · rw [← h.sites]
    refine openJumps_congr fun j => ?_
    show (d.add .nop).isOpen j = _
    rw [isOpen_add]
    split
    · rename_i e
      rw [e, isOpen_label]
      rfl
    · rfl
  · rw [hcode]
    show _ ↔ j ∈ d.label :: d.reserved
    split
    · simp_all
    · rw [h.nops j, List.mem_cons]
      simp_all
  · rw [hcode] at hj
    rw [hlab]
    split at hj
    · obtain rfl := Option.some.inj hj
      cases hi
    · have := h.targets j i a hj hi
      omega
  · rw [hcode]
    split
    · simp
    · exact h.running j

/-! ## Paying a debt -/

theorem getElem?_set (d : Draft) (p : Nat) (ins : Instruction) {old : Instruction} (hp : d.code[p]? = some old) (j : Nat) :
    (d.code.setIfInBounds p ins)[j]? = if j = p then some ins else d.code[j]? := by
  have hlt : p < d.code.size := (Array.getElem?_eq_some_iff.1 hp).1
  rw [Array.getElem?_setIfInBounds]
  by_cases e : p = j
  · subst e
    simp [hlt]
  · simp [e, Ne.symm e]

theorem fillJump {p : Nat} (ins : Instruction) (h : Owes d sites (p ::ₘ tails)) (hp : isPendingJump ins = true) :
    ∃ d', d.fillJump p ins = .ok (⟨p⟩, d') ∧ Owes d' (p ::ₘ sites) tails ∧ d'.label = d.label := by
  have ht : ins.target? = some .pending := by simpa [isPendingJump] using hp
  have hmem : p ∈ d.reserved := by
    have : p ∈ (d.reserved : Multiset Nat) := by rw [h.tails]; exact Multiset.mem_cons_self p tails
    simpa using this
  have hnop : d.code[p]? = some .nop := (h.nops p).2 hmem
  have hcode := getElem?_set d p ins hnop
  refine ⟨⟨d.code.setIfInBounds p ins, d.reserved.erase p⟩, by simp [Draft.fillJump, hp, Draft.fill, hmem, Except.map],
    ⟨?_, ?_, h.once.erase p, fun j => ?_, fun j i a hj hi => ?_, fun j => ?_⟩, by simp [label]⟩
  · rw [← h.sites]
    refine openJumps_eq_cons (by simp [isOpen, hnop, isPendingJump, Instruction.target?]) ?_ fun j hj => ?_
    · simp [isOpen, hcode, hp]
    · simp [isOpen, hcode, hj]
  · rw [← Multiset.coe_erase, h.tails, Multiset.erase_cons_head]
  · rw [hcode, h.once.mem_erase_iff]
    split
    · rename_i e
      refine iff_of_false ?_ fun hj => hj.1 e
      rintro ⟨⟩
      cases ht
    · rename_i e
      rw [h.nops j]
      exact ⟨fun hj => ⟨e, hj⟩, fun hj => hj.2⟩
  · rw [hcode] at hj
    have hl : (⟨d.code.setIfInBounds p ins, d.reserved.erase p⟩ : Draft).label = d.label := by simp [label]
    rw [hl]
    split at hj
    · obtain rfl := Option.some.inj hj
      rw [ht] at hi
      cases hi
    · exact h.targets j i a hj hi
  · rw [hcode]
    split
    · rintro ⟨⟩
      cases ht
    · exact h.running j

theorem patch {p : Patch} (h : Owes d (p.position ::ₘ sites) tails) (ha : a ≤ d.label) :
    ∃ d', d.patch p (.address a) = .ok d' ∧ Owes d' sites tails ∧ d'.label = d.label := by
  have hopen : d.isOpen p.position = true := by
    rw [← mem_openJumps, h.sites]
    exact Multiset.mem_cons_self _ _
  obtain ⟨old, hold, hpend⟩ : ∃ old, d.code[p.position]? = some old ∧ old.target? = some .pending := by
    unfold isOpen at hopen
    cases hc : d.code[p.position]? with
    | none => simp [hc] at hopen
    | some old => exact ⟨old, rfl, by simpa [hc, isPendingJump] using hopen⟩
  obtain ⟨hnt, hnn, hns⟩ : (old.retarget (.address a)).target? = some (.address a) ∧ old.retarget (.address a) ≠ .nop ∧
      old.retarget (.address a) ≠ .stop := by
    cases old <;> simp_all [Instruction.target?, Instruction.retarget]
  have hcode := getElem?_set d p.position (old.retarget (.address a)) hold
  have hres : p.position ∉ d.reserved := by
    intro hr
    have := (h.nops _).2 hr
    rw [hold] at this
    cases this
    cases hpend
  refine ⟨⟨d.code.setIfInBounds p.position (old.retarget (.address a)), d.reserved⟩,
    by simp [Draft.patch, hold, hpend], ⟨?_, h.tails, h.once, fun j => ?_, fun j i b hj hi => ?_, fun j => ?_⟩,
    by simp [label]⟩
  · -- the draft before the patch has one open jump more than the draft after it
    refine ((Multiset.cons_inj_right p.position).1 ?_).symm
    rw [← h.sites]
    refine openJumps_eq_cons ?_ hopen fun j hj => ?_
    · simp [isOpen, hcode, isPendingJump, hnt]
    · simp [isOpen, hcode, hj]
  · rw [hcode]
    split
    · rename_i e
      exact iff_of_false (by simpa using hnn) (e ▸ hres)
    · exact h.nops j
  · rw [hcode] at hj
    have hl : (⟨d.code.setIfInBounds p.position (old.retarget (.address a)), d.reserved⟩ : Draft).label = d.label := by
      simp [label]
    rw [hl]
    split at hj
    · obtain rfl := Option.some.inj hj
      rw [hnt] at hi
      cases hi
      exact ha
    · exact h.targets j i b hj hi
  · rw [hcode]
    split
    · simpa using hns
    · exact h.running j

theorem patchAll (ps : List Patch) (h : Owes d (Patch.positions ps + sites) tails) (ha : a ≤ d.label) :
    ∃ d', (Drafting.patchAll ps (.address a)).run d = .ok () d' ∧ Owes d' sites tails ∧ d'.label = d.label := by
  induction ps generalizing d with
  | nil => exact ⟨d, rfl, by simpa using h, rfl⟩
  | cons p ps ih =>
    rw [Patch.positions_cons, Multiset.cons_add] at h
    obtain ⟨d₁, hp, h₁, hl₁⟩ := h.patch ha
    obtain ⟨d₂, hps, h₂, hl₂⟩ := ih h₁ (by omega)
    refine ⟨d₂, ?_, h₂, by omega⟩
    have hp' : Drafting.patch p (.address a) d = .ok () d₁ := by simp [Drafting.patch, Drafting.edit, hp, Except.map]
    show (Drafting.patch p (.address a) >>= fun _ => Drafting.patchAll ps (.address a)) d = .ok () d₂
    simp only [bind, EStateM.bind, hp']
    exact hps

/-! ## Branches -/

end Owes

end Draft

namespace Branch

/-- The positions of the open jumps of a branch. -/
def sites (b : Branch) : Multiset Nat := Patch.positions b.whenTrue + Patch.positions b.whenFalse

@[simp] theorem sites_negate (b : Branch) : b.negate.sites = b.sites := by
  simp [sites, negate, add_comm]

@[simp] theorem sites_addSites (b : Branch) (polarity : Bool) (ps : List Patch) :
    (b.addSites polarity ps).sites = b.sites + Patch.positions ps := by
  cases polarity
  · simp [sites, addSites, add_assoc]
  · simp [sites, addSites, add_right_comm]

@[simp] theorem tail_position_negate (b : Branch) : b.negate.tail.position = b.tail.position := rfl

@[simp] theorem tail_addSites (b : Branch) (polarity : Bool) (ps : List Patch) :
    (b.addSites polarity ps).tail = b.tail := by
  cases polarity <;> rfl

@[simp] theorem fallThrough_negate (b : Branch) : b.negate.fallThrough = b.fallThrough := rfl

@[simp] theorem fallThrough_addSites (b : Branch) (polarity : Bool) (ps : List Patch) :
    (b.addSites polarity ps).fallThrough = b.fallThrough := by
  cases polarity <;> rfl

end Branch

namespace Draft.Owes

variable {d : Draft} {sites tails : Multiset Nat} {ins : Instruction} {a : Nat}

theorem defer {b : Branch} (polarity : Bool) (h : Owes d (b.sites + sites) (b.tail.position ::ₘ tails))
    (hf : b.fallThrough ≤ d.label) :
    ∃ ps d', (b.defer polarity).run d = .ok ps d' ∧ Owes d' (Patch.positions ps + sites) tails ∧ d'.label = d.label := by
  obtain ⟨d₁, hfill, h₁, hl₁⟩ := h.fillJump (.jumpIf (polarity != b.tail.negated) b.tail.cond .pending) rfl
  have hfill' : Drafting.fillJump b.tail.position (.jumpIf (polarity != b.tail.negated) b.tail.cond .pending) d =
      .ok ⟨b.tail.position⟩ d₁ := by simp [Drafting.fillJump, Drafting.edit, hfill]
  have split : ∃ leaving staying,
      (if polarity then (b.whenTrue, b.whenFalse) else (b.whenFalse, b.whenTrue)) = (leaving, staying) ∧
        b.sites = Patch.positions staying + Patch.positions leaving := by
    cases polarity
    · exact ⟨_, _, rfl, rfl⟩
    · exact ⟨_, _, rfl, add_comm _ _⟩
  obtain ⟨leaving, staying, hsplit, hsites⟩ := split
  have h₂ : Owes d₁ (Patch.positions staying + (Patch.positions (leaving ++ [⟨b.tail.position⟩]) + sites)) tails := by
    convert h₁ using 1
    rw [hsites, Patch.positions_append, Patch.positions_cons, Patch.positions_nil, ← Multiset.singleton_add,
      ← Multiset.singleton_add]
    simp only [add_zero]
    ac_rfl
  obtain ⟨d₂, hpatch, h₃, hl₂⟩ := h₂.patchAll staying (by omega : b.fallThrough ≤ d₁.label)
  refine ⟨leaving ++ [⟨b.tail.position⟩], d₂, ?_, h₃, by omega⟩
  simp only [EStateM.run] at hpatch ⊢
  simp only [Branch.defer, bind, EStateM.bind, hfill', hsplit, hpatch, pure, EStateM.pure]

theorem resolve {b : Branch} (polarity : Bool) (h : Owes d (b.sites + sites) (b.tail.position ::ₘ tails))
    (hf : b.fallThrough ≤ d.label) (ha : a ≤ d.label) :
    ∃ d', (b.resolve polarity (.address a)).run d = .ok () d' ∧ Owes d' sites tails ∧ d'.label = d.label := by
  obtain ⟨ps, d₁, hd, h₁, hl₁⟩ := h.defer polarity hf
  obtain ⟨d₂, hp, h₂, hl₂⟩ := h₁.patchAll ps (by omega : a ≤ d₁.label)
  refine ⟨d₂, ?_, h₂, by omega⟩
  simp only [EStateM.run] at hd hp ⊢
  simp only [Branch.resolve, bind, EStateM.bind, hd, hp]

/-! ## Finished code -/

theorem not_pending (h : Owes d 0 tails) {i : Nat} (hi : d.code[i]? = some ins) : isPendingJump ins = false := by
  by_contra hp
  have : i ∈ d.openJumps := mem_openJumps.2 (by simpa [isOpen, hi] using hp)
  rw [h.sites] at this
  simp at this

/-- A draft without debts is finished once it ends in `stop`. -/
theorem finish_stop (h : Owes d 0 0) : (d.add .stop).finish = .ok (d.code.push .stop) := by
  have hr : (d.add .stop).reserved = [] := by simpa [Draft.add] using h.tails
  have ho : (d.add .stop).code.findIdx? isPendingJump = none := by
    rw [Array.findIdx?_eq_none_iff]
    intro ins hins
    rcases Array.mem_push.1 hins with hins | rfl
    · obtain ⟨i, hi, rfl⟩ := Array.mem_iff_getElem.1 hins
      exact h.not_pending (Array.getElem?_eq_getElem hi)
    · rfl
  simp only [Draft.finish, hr, ho, List.min?_nil]
  rfl

end Draft.Owes

end SlotCode
