/-
  SlotCode.Proofs.DraftHistory — a draft changes a position at most twice.

  An edit appends an instruction, appends a reserved position, fills a reserved position or
  gives an open jump its target; `Made` says what each of these does when it succeeds. The
  answers of a draft say which positions were reserved and not filled since (`Unfilled`),
  and `Tracks` ties them to the draft: the positions it has reserved are these, each holds
  nothing yet, and a jump that was aimed goes to an address.

  Proved: every edit keeps `Tracks` (`Tracks.edited`). Hence `draft_only_grows`, for every
  sequence of edits, failing ones among them; the patches may even come from elsewhere.
-/

import SlotCode.Proofs.FinalCode
import SlotCode.Proofs.History
import SlotCode.Proofs.OpenJumps

namespace SlotCode

namespace Draft

/-- One edit of a draft. -/
inductive Edit where
  | add (i : Instruction)
  | addJump (jump : Instruction)
  | reserve
  | fill (position : Nat) (i : Instruction)
  | fillJump (position : Nat) (jump : Instruction)
  | patch (p : Patch) (target : Label)
  deriving DecidableEq, Repr

/-- Makes an edit, and gives the position that it hands out. -/
def Edit.make : Edit → Drafting (Option Nat)
  | .add i => do
    Drafting.add i
    return none
  | .addJump jump => return some (← Drafting.addJump jump).position
  | .reserve => return some (← Drafting.reserve)
  | .fill position i => do
    Drafting.fill position i
    return none
  | .fillJump position jump => return some (← Drafting.fillJump position jump).position
  | .patch p target => do
    Drafting.patch p target
    return none

/-- The instruction that an edit appends. -/
def Edit.appends : Edit → Option Instruction
  | .add i | .addJump i => some i
  | .reserve => some .nop
  | .fill .. | .fillJump .. | .patch .. => none

/-- An edit and its answer. -/
structure Event where
  edit : Edit
  answer : Except Error (Option Nat)

namespace Event

/-- The position that was reserved. -/
def reserved? : Event → Option Nat
  | ⟨.reserve, .ok position⟩ => position
  | _ => none

/-- The position that was filled. -/
def filled? : Event → Option Nat
  | ⟨.fill position _, .ok _⟩ | ⟨.fillJump position _, .ok _⟩ => some position
  | _ => none

/-- The position of the jump that was given an address. -/
def aimed? : Event → Option Nat
  | ⟨.patch p (.address _), .ok _⟩ => some p.position
  | _ => none

end Event

def edited (d : Draft) (e : Edit) : Event × Draft :=
  match e.make d with
  | .ok position d => (⟨e, .ok position⟩, d)
  | .error x d => (⟨e, .error x⟩, d)

/-- A new draft after some edits. -/
def after (edits : List Edit) : History Draft Event := History.run edited {} edits

/-- The position was reserved, and nothing has filled it since. -/
def Unfilled (past : List Event) (i : Nat) : Prop := (∃ e ∈ past, e.reserved? = some i) ∧ ∀ e ∈ past, e.filled? ≠ some i

/-- When an edit may be made, given which positions can be filled. -/
def Edit.Allowed (free : Nat → Prop) (d : Draft) : Edit → Prop
  | .add _ | .reserve => True
  | .addJump jump => isPendingJump jump = true
  | .fill position _ => free position
  | .fillJump position jump => isPendingJump jump = true ∧ free position
  | .patch p _ => d.isOpen p.position = true

/-! ## Single edits -/

/-- What a successful edit does. -/
inductive Made (d : Draft) (e : Edit) (position : Option Nat) : Draft → Prop
  | appended (i : Instruction) : e = .add i ∧ position = none ∨ e = .addJump i ∧ position = some d.label →
      Made d e position (d.add i)
  | reserved : e = .reserve → position = some d.label → Made d e position d.reserve.2
  | filled (p : Nat) (i : Instruction) : e = .fill p i ∨ e = .fillJump p i → p ∈ d.reserved →
      Made d e position ⟨d.code.setIfInBounds p i, d.reserved.erase p⟩
  | patched (p : Patch) (target : Label) (i : Instruction) : e = .patch p target → d.code[p.position]? = some i →
      i.target? = some .pending → Made d e position { d with code := d.code.setIfInBounds p.position (i.retarget target) }

variable {d d' : Draft} {e : Edit} {position : Option Nat} {past : List Event}

theorem target?_retarget {i : Instruction} (h : i.target? = some .pending) (target : Label) :
    (i.retarget target).target? = some target := by
  cases i <;> simp_all [Instruction.retarget, Instruction.target?]

theorem make_ok (h : e.make d = .ok position d') : Made d e position d' := by
  cases e with
  | add i =>
    cases h
    exact .appended i (.inl ⟨rfl, rfl⟩)
  | addJump jump =>
    obtain ⟨p, d₁, hadd, hret⟩ := drafting_bind_ok h
    have hok := drafting_edit_ok hadd
    unfold addJump at hok
    split at hok
    · cases hok
      cases hret
      exact .appended jump (.inr ⟨rfl, rfl⟩)
    · cases hok
  | reserve =>
    cases h
    exact .reserved rfl rfl
  | fill p i =>
    obtain ⟨u, d₁, hfill, hret⟩ := drafting_bind_ok h
    have hok := drafting_edit_ok hfill
    unfold fill at hok
    split at hok
    · cases hok
      cases hret
      exact .filled p i (.inl rfl) ‹_›
    · cases hok
  | fillJump p jump =>
    obtain ⟨q, d₁, hfill, hret⟩ := drafting_bind_ok h
    have hok := drafting_edit_ok hfill
    unfold fillJump fill at hok
    split at hok
    · split at hok
      · cases hok
        cases hret
        exact .filled p jump (.inr rfl) ‹_›
      · cases hok
    · cases hok
  | patch p target =>
    obtain ⟨u, d₁, hpatch, hret⟩ := drafting_bind_ok h
    have hok := drafting_edit_ok hpatch
    unfold patch at hok
    split at hok
    · cases hok
    · split at hok
      · cases hok
      · cases hok
        cases hret
        exact .patched p target _ rfl ‹_› ‹_›
      · cases hok

theorem edit_error {α : Type} {f : Draft → Except Error (α × Draft)} {x : Error} (h : Drafting.edit f d = .error x d') :
    d' = d := by
  unfold Drafting.edit at h
  split at h
  · cases h
  · cases h
    rfl

theorem bind_pure_error {α β : Type} {act : Drafting α} {f : α → β} {x : Error}
    (h : (act >>= fun a => pure (f a)) d = .error x d') : act d = .error x d' := by
  simp only [bind, EStateM.bind] at h
  split at h
  · cases h
  · cases h
    assumption

/-- A failing edit changes nothing. -/
theorem make_error {x : Error} (h : e.make d = .error x d') : d' = d := by
  cases e with
  | add i => cases h
  | addJump jump => exact edit_error (bind_pure_error h)
  | reserve => cases h
  | fill p i => exact edit_error (bind_pure_error h)
  | fillJump p jump => exact edit_error (bind_pure_error h)
  | patch p target => exact edit_error (bind_pure_error h)

theorem bind_pure_isOk {α β : Type} (act : Drafting α) (f : α → β) (d : Draft) :
    (∃ b d', (act >>= fun a => pure (f a)) d = .ok b d') ↔ ∃ a d', act d = .ok a d' := by
  simp only [bind, EStateM.bind]
  cases act d <;> simp [pure, EStateM.pure]

theorem edit_isOk {α : Type} (f : Draft → Except Error (α × Draft)) (d : Draft) :
    (∃ a d', Drafting.edit f d = .ok a d') ↔ (f d).isOk = true := by
  unfold Drafting.edit
  cases f d <;> simp [Except.isOk, Except.toBool]

/-- An edit succeeds exactly when it is allowed. -/
theorem make_isOk (d : Draft) (e : Edit) : (∃ position d', e.make d = .ok position d') ↔ e.Allowed (· ∈ d.reserved) d := by
  cases e with
  | add i => exact iff_of_true ⟨_, _, rfl⟩ trivial
  | addJump jump =>
    refine (bind_pure_isOk _ _ d).trans ((edit_isOk _ d).trans ?_)
    by_cases hj : isPendingJump jump = true <;> simp [addJump, Edit.Allowed, hj, Except.isOk, Except.toBool]
  | reserve => exact iff_of_true ⟨_, _, rfl⟩ trivial
  | fill p i =>
    refine (bind_pure_isOk _ _ d).trans ((edit_isOk _ d).trans ?_)
    by_cases hp : p ∈ d.reserved <;> simp [fill, Edit.Allowed, hp, Except.map, Except.isOk, Except.toBool]
  | fillJump p jump =>
    refine (bind_pure_isOk _ _ d).trans ((edit_isOk _ d).trans ?_)
    by_cases hj : isPendingJump jump = true <;> by_cases hp : p ∈ d.reserved <;>
      simp [fillJump, fill, Edit.Allowed, hj, hp, Except.map, Except.isOk, Except.toBool]
  | patch p target =>
    refine (bind_pure_isOk _ _ d).trans ((edit_isOk _ d).trans ?_)
    unfold patch
    simp only [Edit.Allowed, isOpen]
    cases d.code[p.position]? with
    | none => simp [Except.map, Except.isOk, Except.toBool]
    | some i =>
      cases ht : i.target? with
      | none => simp [isPendingJump, ht, Except.map, Except.isOk, Except.toBool]
      | some t => cases t <;> simp [isPendingJump, ht, Except.map, Except.isOk, Except.toBool]

/-- The later draft is no shorter, and a jump that has an address in the earlier one keeps it. -/
structure Grown (d d' : Draft) : Prop where
  label : d.label ≤ d'.label
  kept : ∀ {i a : Nat} {ins : Instruction}, d.code[i]? = some ins → ins.target? = some (.address a) → d'.code[i]? = some ins

theorem Grown.refl (d : Draft) : d.Grown d := ⟨Nat.le_refl _, fun hi _ => hi⟩

theorem Grown.trans {d₁ d₂ d₃ : Draft} (h₁ : d₁.Grown d₂) (h₂ : d₂.Grown d₃) : d₁.Grown d₃ :=
  ⟨Nat.le_trans h₁.label h₂.label, fun hi ha => h₂.kept (h₁.kept hi ha) ha⟩

namespace Made

theorem label_le (h : Made d e position d') : d.label ≤ d'.label := by
  cases h with
  | appended i => simp
  | reserved => simp [label, Draft.reserve]
  | filled p i => simp [label]
  | patched p t i => simp [label]

/-- An appended instruction stands at the position that was next. -/
theorem append (h : Made d e position d') {i : Instruction} (hi : e.appends = some i) :
    d'.code[d.label]? = some i ∧ d'.label = d.label + 1 ∧ ∀ p, position = some p → p = d.label := by
  cases h with
  | appended j he =>
    rcases he with ⟨rfl, rfl⟩ | ⟨rfl, rfl⟩ <;> cases hi <;> simp [getElem?_add, eq_comm]
  | reserved he hp =>
    subst he hp
    cases hi
    simp [Draft.reserve, label, eq_comm]
  | filled p j he => rcases he with rfl | rfl <;> cases hi
  | patched p t j he =>
    subst he
    cases hi

theorem size_eq (h : Made d e position d') (hn : e.appends = none) : d'.label = d.label := by
  cases h with
  | appended i he => rcases he with ⟨rfl, -⟩ | ⟨rfl, -⟩ <;> cases hn
  | reserved he =>
    subst he
    cases hn
  | filled p i => simp [label]
  | patched p t i => simp [label]

/-- Before the end, an edit fills a reserved position, gives an open jump its target, or changes nothing. -/
theorem at_old (h : Made d e position d') {i : Nat} (hi : i < d.label) : d'.code[i]? = d.code[i]? ∨
    (i ∈ d.reserved ∧ ∃ ins, (e = .fill i ins ∨ e = .fillJump i ins) ∧ d'.code[i]? = some ins) ∨
    ∃ target ins, e = .patch ⟨i⟩ target ∧ d.code[i]? = some ins ∧ ins.target? = some .pending ∧
      d'.code[i]? = some (ins.retarget target) := by
  have hset : ∀ p ins, (d.code.setIfInBounds p ins)[i]? = if p = i then some ins else d.code[i]? :=
    fun p ins => by rw [Array.getElem?_setIfInBounds]; split <;> simp_all [label]
  cases h with
  | appended j => exact .inl ((getElem?_add d j i).trans (if_neg (Nat.ne_of_lt hi)))
  | reserved => exact .inl ((getElem?_add d .nop i).trans (if_neg (Nat.ne_of_lt hi)))
  | filled p j he hp =>
    by_cases hpi : p = i
    · subst hpi
      exact .inr (.inl ⟨hp, j, he, (hset p j).trans (if_pos rfl)⟩)
    · exact .inl ((hset p j).trans (if_neg hpi))
  | patched p t j he hj hpending =>
    by_cases hpi : p.position = i
    · subst hpi
      exact .inr (.inr ⟨t, j, he, hj, hpending, (hset _ _).trans (if_pos rfl)⟩)
    · exact .inl ((hset _ _).trans (if_neg hpi))

/-- A position that is filled holds its instruction. -/
theorem fills (h : Made d e position d') (hd : d.Clean) {i : Nat} {ins : Instruction}
    (he : e = .fill i ins ∨ e = .fillJump i ins) : d'.code[i]? = some ins := by
  cases h with
  | appended j hj => rcases he with rfl | rfl <;> rcases hj with ⟨hj, -⟩ | ⟨hj, -⟩ <;> cases hj
  | reserved hj => rcases he with rfl | rfl <;> cases hj
  | filled p j hj hp =>
    have hset := (getElem?_set p p j (hd.empty p hp)).trans (if_pos rfl)
    rcases he with rfl | rfl <;> rcases hj with hj | hj <;> cases hj <;> exact hset
  | patched p t j hj => rcases he with rfl | rfl <;> cases hj

/-- A jump that is patched has its target. -/
theorem aims (h : Made d e position d') {p : Patch} {target : Label} (he : e = .patch p target) :
    ∃ ins, d.code[p.position]? = some ins ∧ d'.code[p.position]? = some (ins.retarget target) ∧
      (ins.retarget target).target? = some target := by
  subst he
  cases h with
  | appended j hj => rcases hj with ⟨hj, -⟩ | ⟨hj, -⟩ <;> cases hj
  | reserved hj => cases hj
  | filled p j hj => rcases hj with hj | hj <;> cases hj
  | patched q t j hj hat hpending =>
    cases hj
    exact ⟨j, hat, (getElem?_set _ _ _ hat).trans (if_pos rfl), target?_retarget hpending target⟩

/-- What stands at a reserved position after an edit is what stood there. -/
theorem clean (h : Made d e position d') (hd : d.Clean) : d'.Clean := by
  cases h with
  | appended i => exact (before_add hd i).clean
  | reserved => exact (before_reserve hd).clean
  | filled p i he hp =>
    refine ⟨hd.once.erase p, fun q hq => ?_⟩
    obtain ⟨hne, hq⟩ := hd.once.mem_erase_iff.1 hq
    exact (getElem?_set p q i (hd.empty p hp)).trans ((if_neg (Ne.symm hne)).trans (hd.empty q hq))
  | patched p t i he hi hpending =>
    refine ⟨hd.once, fun q hq => ?_⟩
    have hne : p.position ≠ q := by
      intro hpq
      rw [hpq, hd.empty q hq] at hi
      cases hi
      cases hpending
    exact (getElem?_set p.position q _ hi).trans ((if_neg hne).trans (hd.empty q hq))

theorem grown (h : Made d e position d') (hd : d.Clean) : d.Grown d' := by
  refine ⟨h.label_le, fun {i a ins} hi ha => ?_⟩
  rcases h.at_old (lt_of_getElem? hi) with hsame | ⟨hreserved, -⟩ | ⟨t, old, -, hold, hpending, -⟩
  · rw [hsame, hi]
  · rw [hd.empty i hreserved] at hi
    cases hi
    cases ha
  · rw [hi] at hold
    cases hold
    rw [ha] at hpending
    cases hpending

end Made

/-! ## Histories -/

/-- The answers say what is reserved, and what was filled and aimed is so. -/
structure Tracks (d : Draft) (past : List Event) : Prop where
  clean : d.Clean
  reserved : ∀ i, i ∈ d.reserved ↔ Unfilled past i
  known : ∀ ev ∈ past, ∀ i, ev.reserved? = some i ∨ ev.filled? = some i → i < d.label
  filledOnce : ∀ i, past.countP (·.filled? = some i) ≤ 1
  aimed : ∀ ev ∈ past, ∀ i, ev.aimed? = some i → ∃ a, Patch.Aims ⟨i⟩ d.code a
  aimedOnce : ∀ i, past.countP (·.aimed? = some i) ≤ 1

theorem unfilled_cons {ev : Event} {i : Nat} : Unfilled (ev :: past) i ↔
    (ev.reserved? = some i ∨ ∃ x ∈ past, x.reserved? = some i) ∧ ev.filled? ≠ some i ∧
      ∀ x ∈ past, x.filled? ≠ some i := by
  simp [Unfilled]

namespace Tracks

theorem empty : ({} : Draft).Tracks [] := by
  refine ⟨⟨List.nodup_nil, by simp⟩, ?_, by simp, by simp, by simp, by simp⟩
  simp [Unfilled]

theorem countP_cons_le {f : Event → Option Nat} {ev : Event} {i : Nat} (hpast : past.countP (f · = some i) ≤ 1)
    (hnew : f ev = some i → ∀ x ∈ past, f x ≠ some i) : (ev :: past).countP (f · = some i) ≤ 1 := by
  rw [List.countP_cons]
  by_cases hi : f ev = some i
  · have hnone : past.countP (f · = some i) = 0 := by
      rw [List.countP_eq_zero]
      simpa using hnew hi
    simp [hnone, hi]
  · simpa [hi] using hpast

/-- One more answer, told of a draft that has grown: what is new is only what this answer says. -/
theorem step (h : d.Tracks past) {ev : Event} (hclean : d'.Clean) (hgrown : d.Grown d')
    (hreserved : ∀ i, i ∈ d'.reserved ↔ Unfilled (ev :: past) i)
    (hknown : ∀ i, ev.reserved? = some i → i < d'.label) (hfilled : ∀ i, ev.filled? = some i → i ∈ d.reserved)
    (haimed : ∀ i, ev.aimed? = some i → (∃ a, Patch.Aims ⟨i⟩ d'.code a) ∧ ∀ x ∈ past, x.aimed? ≠ some i) :
    d'.Tracks (ev :: past) := by
  have hle := hgrown.label
  refine ⟨hclean, hreserved, ?_, ?_, ?_, ?_⟩
  · intro x hx i hi
    rcases List.mem_cons.1 hx with rfl | hx
    · rcases hi with hi | hi
      · exact hknown i hi
      · have hlt := lt_of_getElem? (h.clean.empty i (hfilled i hi))
        omega
    · have hlt := h.known x hx i hi
      omega
  · intro i
    exact countP_cons_le (h.filledOnce i) fun hi => ((h.reserved i).1 (hfilled i hi)).2
  · intro x hx i hi
    rcases List.mem_cons.1 hx with rfl | hx
    · exact (haimed i hi).1
    · obtain ⟨a, ins, hins, ha⟩ := h.aimed x hx i hi
      exact ⟨a, ins, hgrown.kept hins ha, ha⟩
  · intro i
    exact countP_cons_le (h.aimedOnce i) fun hi => (haimed i hi).2

/-- The answer of an edit that leaves the reserved positions alone. -/
theorem noted (h : d.Tracks past) {ev : Event} (hclean : d'.Clean) (hgrown : d.Grown d') (hsame : d'.reserved = d.reserved)
    (hr : ev.reserved? = none) (hf : ev.filled? = none)
    (haimed : ∀ i, ev.aimed? = some i → (∃ a, Patch.Aims ⟨i⟩ d'.code a) ∧ ∀ x ∈ past, x.aimed? ≠ some i) :
    d'.Tracks (ev :: past) := by
  refine h.step hclean hgrown (fun i => ?_) (by simp [hr]) (by simp [hf]) haimed
  rw [hsame, h.reserved, unfilled_cons]
  simp [hr, hf, Unfilled]

theorem reserve (h : d.Tracks past) : d.reserve.2.Tracks (⟨.reserve, .ok (some d.label)⟩ :: past) := by
  have hm : Made d .reserve (some d.label) d.reserve.2 := .reserved rfl rfl
  have hlabel : d.reserve.2.label = d.label + 1 := label_add d .nop
  have hr : Event.reserved? ⟨.reserve, .ok (some d.label)⟩ = some d.label := rfl
  have hf : Event.filled? ⟨.reserve, .ok (some d.label)⟩ = none := rfl
  refine h.step (hm.clean h.clean) (hm.grown h.clean) (fun i => ?_) (fun i hi => ?_) (by simp [hf]) (by simp [Event.aimed?])
  · have hold := h.reserved i
    -- No answer so far tells of the position that is new.
    have hnew : ∀ x ∈ past, x.filled? ≠ some d.label := fun x hx hi => Nat.lt_irrefl _ (h.known x hx _ (.inr hi))
    rw [unfilled_cons, hr, hf]
    show i ∈ d.label :: d.reserved ↔ _
    by_cases hi : i = d.label
    · subst hi
      simpa using hnew
    · simpa [hi, Ne.symm hi, Unfilled] using hold
  · have hi' : d.label = i := Option.some.inj (hr.symm.trans hi)
    omega

theorem fill (h : d.Tracks past) {ev : Event} {p : Nat} (hclean : d'.Clean) (hgrown : d.Grown d') (hp : p ∈ d.reserved)
    (hd : d'.reserved = d.reserved.erase p) (hr : ev.reserved? = none) (hf : ev.filled? = some p) (ha : ev.aimed? = none) :
    d'.Tracks (ev :: past) := by
  refine h.step hclean hgrown (fun i => ?_) (by simp [hr]) (fun i hi => ?_) (by simp [ha])
  · rw [hd, h.clean.once.mem_erase_iff, unfilled_cons, h.reserved i, Unfilled, hr, hf]
    simp only [reduceCtorEq, false_or, ne_eq, Option.some.injEq, eq_comm]
    rw [and_left_comm]
  · rw [hf] at hi
    exact Option.some.inj hi ▸ hp

/-- The answer of a patch that has succeeded. -/
theorem patch (h : d.Tracks past) {p : Patch} {target : Label} {i : Instruction} (hi : d.code[p.position]? = some i)
    (hpending : i.target? = some .pending) : Tracks { d with code := d.code.setIfInBounds p.position (i.retarget target) }
      (⟨.patch p target, .ok position⟩ :: past) := by
  have hm : Made d (.patch p target) none { d with code := d.code.setIfInBounds p.position (i.retarget target) } :=
    .patched p target i rfl hi hpending
  refine h.noted (hm.clean h.clean) (hm.grown h.clean) rfl rfl rfl fun j hj => ?_
  cases target with
  | pending => simp [Event.aimed?] at hj
  | address a =>
    have hpj : p.position = j := by simpa [Event.aimed?] using hj
    subst hpj
    refine ⟨⟨a, _, (getElem?_set p.position p.position _ hi).trans (if_pos rfl), target?_retarget hpending _⟩, fun x hx hx' => ?_⟩
    obtain ⟨b, ins, hins, hb⟩ := h.aimed x hx _ hx'
    rw [hi] at hins
    cases hins
    rw [hpending] at hb
    cases hb

theorem made (h : d.Tracks past) (hm : Made d e position d') : d'.Tracks (⟨e, .ok position⟩ :: past) := by
  have hclean := hm.clean h.clean
  have hgrown := hm.grown h.clean
  cases hm with
  | appended i he =>
    rcases he with ⟨rfl, -⟩ | ⟨rfl, -⟩ <;> exact h.noted hclean hgrown rfl rfl rfl (by simp [Event.aimed?])
  | reserved he hp =>
    subst he hp
    exact h.reserve
  | filled p i he hp => rcases he with rfl | rfl <;> exact h.fill hclean hgrown hp rfl rfl rfl rfl
  | patched p t i he hi hpending =>
    subst he
    exact h.patch hi hpending

/-- Every edit keeps the draft and its answers in step. -/
theorem edited (h : d.Tracks past) (e : Edit) : (d.edited e).2.Tracks ((d.edited e).1 :: past) := by
  cases hmake : e.make d with
  | ok position d' =>
    have heq : d.edited e = (⟨e, .ok position⟩, d') := by simp [Draft.edited, hmake]
    rw [heq]
    exact h.made (make_ok hmake)
  | error x d' =>
    have heq : d.edited e = (⟨e, .error x⟩, d') := by simp [Draft.edited, hmake]
    have hsilent : Event.reserved? ⟨e, .error x⟩ = none ∧ Event.filled? ⟨e, .error x⟩ = none ∧
        Event.aimed? ⟨e, .error x⟩ = none := by
      cases e <;> simp [Event.reserved?, Event.filled?, Event.aimed?]
    obtain ⟨hr, hf, ha⟩ := hsilent
    rw [heq, make_error hmake]
    exact h.noted h.clean (.refl d) rfl hr hf (by simp [ha])

end Tracks

theorem tracks_after (edits : List Edit) : (after edits).now.Tracks (after edits).past :=
  History.run_keeps (P := fun h => Tracks h.now h.past) Tracks.empty (fun _ e ht => ht.edited e) edits

theorem edited_grown (hd : d.Clean) (e : Edit) : d.Grown (d.edited e).2 := by
  unfold edited
  split
  · rename_i position d' hmake
    exact (make_ok hmake).grown hd
  · rename_i x d' hmake
    rw [make_error hmake]
    exact .refl d

theorem grown_after (edits more : List Edit) : (after edits).now.Grown (after (edits ++ more)).now :=
  History.run_follows Grown.refl Grown.trans (fun edits e => edited_grown (tracks_after edits).clean e) edits more

/-! ## Finishing -/

theorem isOpen_eq {i : Nat} (hi : i < d.code.size) : d.isOpen i = isPendingJump d.code[i] := by
  simp [isOpen, hi]

theorem isOpen_of_le {i : Nat} (hi : d.code.size ≤ i) : d.isOpen i = false := by
  simp [isOpen, Array.getElem?_eq_none hi]

/-- The search for an open jump finds the first one. -/
theorem findIdx?_eq_some {i : Nat} :
    d.code.findIdx? isPendingJump = some i ↔ d.isOpen i = true ∧ ∀ j < i, d.isOpen j = false := by
  rw [Array.findIdx?_eq_some_iff_getElem]
  constructor
  · rintro ⟨hi, hopen, hbefore⟩
    refine ⟨by rw [isOpen_eq hi]; exact hopen, fun j hj => ?_⟩
    have hclosed := hbefore j hj
    rw [isOpen_eq (Nat.lt_trans hj hi)]
    exact Bool.eq_false_iff.2 hclosed
  · rintro ⟨hopen, hbefore⟩
    have hi : i < d.code.size := by
      by_contra hge
      rw [isOpen_of_le (Nat.le_of_not_lt hge)] at hopen
      cases hopen
    refine ⟨hi, by rw [← isOpen_eq hi]; exact hopen, fun j hj => ?_⟩
    have hclosed := hbefore j hj
    rw [isOpen_eq (Nat.lt_trans hj hi)] at hclosed
    exact Bool.eq_false_iff.1 hclosed

theorem findIdx?_eq_none : d.code.findIdx? isPendingJump = none ↔ ∀ i, d.isOpen i = false := by
  rw [Array.findIdx?_eq_none_iff]
  constructor
  · intro h i
    by_cases hi : i < d.code.size
    · rw [isOpen_eq hi]
      exact h _ (Array.getElem_mem hi)
    · exact isOpen_of_le (Nat.le_of_not_lt hi)
  · intro h x hx
    obtain ⟨i, hi, rfl⟩ := Array.mem_iff_getElem.1 hx
    rw [← isOpen_eq hi]
    exact h i

theorem finish_ok_iff {code : Array Instruction} :
    d.finish = .ok code ↔ d.reserved = [] ∧ (∀ i, d.isOpen i = false) ∧ code = d.code := by
  rw [← findIdx?_eq_none, ← List.min?_eq_none_iff, finish]
  cases d.reserved.min? <;> cases d.code.findIdx? isPendingJump <;> simp [eq_comm]

theorem finish_unfilled_iff {i : Nat} :
    d.finish = .error (.unfilled i) ↔ i ∈ d.reserved ∧ ∀ j ∈ d.reserved, i ≤ j := by
  rw [← List.min?_eq_some_iff, finish]
  cases d.reserved.min? <;> cases d.code.findIdx? isPendingJump <;> simp

theorem finish_dangling_iff {i : Nat} :
    d.finish = .error (.dangling i) ↔ d.reserved = [] ∧ d.isOpen i = true ∧ ∀ j < i, d.isOpen j = false := by
  rw [← findIdx?_eq_some, ← List.min?_eq_none_iff, finish]
  cases d.reserved.min? <;> cases d.code.findIdx? isPendingJump <;> simp

/-- Nothing is reserved when nothing is unfilled. -/
theorem Tracks.reserved_eq_nil (h : d.Tracks past) : d.reserved = [] ↔ ∀ i, ¬ Unfilled past i := by
  rw [List.eq_nil_iff_forall_not_mem]
  exact forall_congr' fun i => not_congr (h.reserved i)

/-- The first reserved position is the first that is unfilled. -/
theorem Tracks.first_reserved (h : d.Tracks past) {i : Nat} :
    (i ∈ d.reserved ∧ ∀ j ∈ d.reserved, i ≤ j) ↔ Unfilled past i ∧ ∀ j < i, ¬ Unfilled past j := by
  simp only [h.reserved]
  refine and_congr_right fun _ => forall_congr' fun j => ?_
  constructor
  · intro hle hlt hj
    have := hle hj
    omega
  · intro hnot hj
    by_contra hlt
    exact hnot (by omega) hj

end Draft

open Draft

/-- After any edits of a new draft, failing ones among them: a failing edit changes nothing, and an edit fails only where
    it is not allowed, which for a fill means that the position was not reserved or is filled already. An edit that
    appends does so at the label, and no other changes the length. A fill leaves its instruction at the position, and a
    patch leaves the jump with its target. At an earlier position the instruction changes only by filling it while it is
    unfilled or by giving an open jump its target; each happens at most once, and a jump that has an address stays for
    good. The draft can be finished exactly when nothing is unfilled and no jump is open, and
    is then its code; otherwise the first unfilled position is reported, or, where there is none, the first open jump. -/
theorem draft_only_grows (edits : List Edit) :
    let d := (after edits).now
    let past := (after edits).past
    (∀ (e : Edit) x d', e.make d = .error x d' → d' = d) ∧
    (∀ e : Edit, (∃ position d', e.make d = .ok position d') ↔ e.Allowed (Unfilled past) d) ∧
    (∀ (e : Edit) position d', e.make d = .ok position d' →
      (∀ i, e.appends = some i → d'.code[d.label]? = some i ∧ d'.label = d.label + 1 ∧
        ∀ p, position = some p → p = d.label) ∧
      (e.appends = none → d'.label = d.label) ∧
      (∀ i ins, e = .fill i ins ∨ e = .fillJump i ins → d'.code[i]? = some ins) ∧
      (∀ p target, e = .patch p target → ∃ ins, d.code[p.position]? = some ins ∧
        d'.code[p.position]? = some (ins.retarget target) ∧ (ins.retarget target).target? = some target) ∧
      ∀ i < d.label, d'.code[i]? = d.code[i]? ∨
        (Unfilled past i ∧ ∃ ins, (e = .fill i ins ∨ e = .fillJump i ins) ∧ d'.code[i]? = some ins) ∨
        ∃ target ins, e = .patch ⟨i⟩ target ∧ d.code[i]? = some ins ∧ ins.target? = some .pending ∧
          d'.code[i]? = some (ins.retarget target)) ∧
    (∀ i, past.countP (·.filled? = some i) ≤ 1 ∧ past.countP (·.aimed? = some i) ≤ 1) ∧
    (∀ more, d.label ≤ (after (edits ++ more)).now.label ∧
      ∀ (i : Nat) ins a, d.code[i]? = some ins → ins.target? = some (.address a) →
        (after (edits ++ more)).now.code[i]? = some ins) ∧
    (∀ code, d.finish = .ok code ↔ (∀ i, ¬ Unfilled past i) ∧ (∀ i, d.isOpen i = false) ∧ code = d.code) ∧
    (∀ i, d.finish = .error (.unfilled i) ↔ Unfilled past i ∧ ∀ j < i, ¬ Unfilled past j) ∧
    ∀ i, d.finish = .error (.dangling i) ↔ (∀ j, ¬ Unfilled past j) ∧ d.isOpen i = true ∧ ∀ j < i, d.isOpen j = false := by
  intro d past
  have htracks : d.Tracks past := tracks_after edits
  have hreserved : (· ∈ d.reserved) = Unfilled past := funext fun i => propext (htracks.reserved i)
  refine ⟨fun e x d' => make_error, fun e => ?_, fun e position d' h => ⟨fun i => (make_ok h).append, (make_ok h).size_eq,
    fun i ins => (make_ok h).fills htracks.clean, fun p target => (make_ok h).aims, ?_⟩,
    fun i => ⟨htracks.filledOnce i, htracks.aimedOnce i⟩, fun more => ?_, fun code => ?_, fun i => ?_, fun i => ?_⟩
  · rw [make_isOk, hreserved]
  · intro i hi
    simpa only [htracks.reserved] using (make_ok h).at_old hi
  · have hgrown := grown_after edits more
    exact ⟨hgrown.label, fun i ins a => hgrown.kept⟩
  · rw [finish_ok_iff, htracks.reserved_eq_nil]
  · rw [finish_unfilled_iff, htracks.first_reserved]
  · rw [finish_dangling_iff, htracks.reserved_eq_nil]

end SlotCode
