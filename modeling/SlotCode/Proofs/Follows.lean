/-
  SlotCode.Proofs.Follows — a run of code that follows an evaluation.

  `Follows` compares the outcome of an evaluation with the run of a machine inside one
  stretch of code. If evaluation completes, the run gets to a machine that satisfies a
  given condition; if it leaves abruptly, the run jumps to where that exit lands, or fails
  at an instruction of the stretch with the same fault. If evaluation runs out of fuel,
  the run makes more steps than there was fuel. Steps are counted from `p`, those made
  before, and a run that gets through has made at least `q`.

  Proved: runs of steps compose, and so does `Follows` (`Follows.bind`, the rule that takes
  an evaluation apart); one rule for each way in which a single instruction goes on.
-/

import SlotCode.Machine.Run
import SlotCode.Proofs.Agreement

namespace SlotCode

open Lowering

/-! ## Evaluation, taken apart -/

namespace Eval

variable {α β : Type} {x : Eval α} {f : α → Eval β} {σ τ : Store} {a : α} {e : Abrupt}

theorem on_pure (a : α) (σ : Store) : (pure a : Eval α).on σ = some (.ok a, σ) := rfl

theorem on_get (σ : Store) : (get : Eval Store).on σ = some (.ok σ, σ) := rfl

theorem on_lift_ok (a : α) (σ : Store) : (lift (.ok a)).on σ = some (.ok a, σ) := rfl

theorem on_bind (x : Eval α) (f : α → Eval β) (σ : Store) : (x >>= f).on σ = match x.on σ with
    | none => none
    | some (.ok a, τ) => (f a).on τ
    | some (.error e, τ) => some (.error e, τ) := by
  show (x.run.run σ >>= fun p => (ExceptT.bindCont f p.1).run p.2) = _
  unfold Eval.on
  cases x.run.run σ with
  | none => rfl
  | some p =>
    obtain ⟨a | a, τ⟩ := p <;> rfl

theorem on_bind_ok (h : x.on σ = some (.ok a, τ)) : (x >>= f).on σ = (f a).on τ := by
  rw [on_bind, h]

theorem on_tryCatch (x : Eval α) (f : Abrupt → Eval α) (σ : Store) : (tryCatch x f).on σ = match x.on σ with
    | some (.error e, τ) => (f e).on τ
    | r => r := by
  simp only [tryCatch, tryCatchThe, MonadExceptOf.tryCatch, ExceptT.tryCatch, Eval.on, StateT.run_bind, ExceptT.run,
    ExceptT.mk]
  cases StateT.run x σ with
  | none => rfl
  | some p =>
    obtain ⟨a | a, τ⟩ := p <;> rfl

end Eval

/-! ## Runs of steps -/

/-- Some steps, all of instructions from `lo` up to `hi`. -/
inductive Image.Runs (im : Image) (lo hi : Nat) : Nat → Machine → Machine → Prop
  | refl (m : Machine) : im.Runs lo hi 0 m m
  | step {n : Nat} {m m₁ m₂ : Machine} : lo ≤ m.pc → m.pc < hi → m.stopped = false → im.step m = .ok m₁ →
      im.Runs lo hi n m₁ m₂ → im.Runs lo hi (n + 1) m m₂

namespace Image.Runs

variable {im : Image} {lo hi lo' hi' n k : Nat} {m m₁ m₂ : Machine}

theorem trans (h₁ : im.Runs lo hi n m m₁) (h₂ : im.Runs lo hi k m₁ m₂) : im.Runs lo hi (n + k) m m₂ := by
  induction h₁ with
  | refl => rwa [Nat.zero_add]
  | step hlo hhi hgo hstep _ ih =>
    rw [Nat.succ_add]
    exact .step hlo hhi hgo hstep (ih h₂)

theorem widen (h : im.Runs lo hi n m m₁) (hlo : lo' ≤ lo) (hhi : hi ≤ hi') : im.Runs lo' hi' n m m₁ := by
  induction h with
  | refl => exact .refl _
  | step h₁ h₂ hgo hstep _ ih => exact .step (Nat.le_trans hlo h₁) (Nat.lt_of_lt_of_le h₂ hhi) hgo hstep ih

/-- Where there is no code, nothing runs. -/
theorem of_empty (h : im.Runs lo hi n m m₁) (he : hi ≤ lo) : n = 0 ∧ m₁ = m := by
  cases h with
  | refl => exact ⟨rfl, rfl⟩
  | step h₁ h₂ => omega

theorem advance (h : im.Runs lo hi n m m₁) (k : Nat) : im.advance (n + k) m = im.advance k m₁ := by
  induction h with
  | refl => rw [Nat.zero_add]
  | step _ _ hgo hstep _ ih =>
    rw [Nat.succ_add, Image.advance, hgo, hstep]
    exact ih

end Image.Runs

/-! ## Following an evaluation -/

/-- A machine in the stretch whose next step fails with a fault. -/
structure Image.Fails (im : Image) (lo hi : Nat) (e : Fault) (m m₁ : Machine) : Prop where
  inside : lo ≤ m.pc ∧ m.pc < hi
  going : m.stopped = false
  step : im.step m = .failed (e.at m.pc) m₁

/-- The run from `m` in a stretch of code follows an evaluation with the given outcome. -/
inductive Follows {α : Type} (S : Scene) (g : Landings) (A : Anchor) (lo hi : Nat) :
    (p : Nat) → Option (Except Abrupt α × Store) → Machine → (q : Nat) → (α → Store → Machine → Prop) → Prop
  | spent {p q k : Nat} {m m₁ : Machine} {Q : α → Store → Machine → Prop} :
      S.image.Runs lo hi k m m₁ → S.fuel < p + k → Follows S g A lo hi p none m q Q
  | done {p q k : Nat} {m m₁ : Machine} {Q : α → Store → Machine → Prop} {a : α} {σ : Store} :
      S.image.Runs lo hi k m m₁ → q ≤ p + k → Q a σ m₁ → Follows S g A lo hi p (some (.ok a, σ)) m q Q
  | failed {p q k : Nat} {m m₁ m₂ : Machine} {Q : α → Store → Machine → Prop} {e : Fault} {σ : Store} :
      S.image.Runs lo hi k m m₁ → S.image.Fails lo hi e m₁ m₂ → Agrees S A none σ m₂ →
        Follows S g A lo hi p (some (.error (.fault e), σ)) m q Q
  | left {p q k : Nat} {m m₁ : Machine} {Q : α → Store → Machine → Prop} {x : Abrupt} {σ : Store} :
      S.image.Runs lo hi k m m₁ → 0 < p + k → g.Lands x m₁.pc → Agrees S A none σ m₁ →
        Follows S g A lo hi p (some (.error x, σ)) m q Q

namespace Follows

variable {α β : Type} {S : Scene} {g : Landings} {A : Anchor} {lo hi lo' hi' p p' q q' r : Nat}
  {o : Option (Except Abrupt α × Store)} {m m₁ : Machine} {σ τ : Store} {Q Q' : α → Store → Machine → Prop}
  {R : β → Store → Machine → Prop} {x : Eval α} {f : α → Eval β} {a : α}

theorem ok (hq : q ≤ p) (h : Q a σ m) : Follows S g A lo hi p (some (.ok a, σ)) m q Q :=
  .done (.refl m) (Nat.le_add_right_of_le hq) h

/-- Some steps before. -/
theorem after {k : Nat} (hr : S.image.Runs lo hi k m m₁) (hp : p' ≤ p + k) (h : Follows S g A lo hi p' o m₁ q Q) :
    Follows S g A lo hi p o m q Q := by
  cases h with
  | spent hn hfuel => exact .spent (hr.trans hn) (by omega)
  | done hn hq hQ => exact .done (hr.trans hn) (by omega) hQ
  | failed hn hfail ha => exact .failed (hr.trans hn) hfail ha
  | left hn hpos hland ha => exact .left (hr.trans hn) (by omega) hland ha

theorem step (hlo : lo ≤ m.pc) (hhi : m.pc < hi) (hgo : m.stopped = false) (hs : S.image.step m = .ok m₁)
    (h : Follows S g A lo hi (p + 1) o m₁ q Q) : Follows S g A lo hi p o m q Q :=
  after (.step hlo hhi hgo hs (.refl m₁)) (Nat.le_refl _) h

/-- An evaluation and what comes after it. -/
theorem bind (hx : Follows S g A lo hi p (x.on σ) m q Q)
    (hf : ∀ a τ m₁, Q a τ m₁ → Follows S g A lo hi q ((f a).on τ) m₁ r R) :
    Follows S g A lo hi p ((x >>= f).on σ) m r R := by
  rw [Eval.on_bind]
  generalize x.on σ = outcome at hx ⊢
  cases hx with
  | spent hn hfuel => exact .spent hn hfuel
  | done hn hq hQ => exact after hn hq (hf _ _ _ hQ)
  | failed hn hfail ha => exact .failed hn hfail ha
  | left hn hpos hland ha => exact .left hn hpos hland ha

/-- An evaluation that needs no code, such as reading an operand. -/
theorem silent (hx : x.on σ = some (.ok a, σ)) (h : Follows S g A lo hi p ((f a).on σ) m r R) :
    Follows S g A lo hi p ((x >>= f).on σ) m r R := by
  rwa [Eval.on_bind_ok hx]

theorem post (h : Follows S g A lo hi p o m q Q) (hQ : ∀ a σ m, Q a σ m → Q' a σ m) : Follows S g A lo hi p o m q Q' := by
  cases h with
  | spent hn hfuel => exact .spent hn hfuel
  | done hn hq h => exact .done hn hq (hQ _ _ _ h)
  | failed hn hfail ha => exact .failed hn hfail ha
  | left hn hpos hland ha => exact .left hn hpos hland ha

/-- In a longer stretch of code. -/
theorem widen (h : Follows S g A lo hi p o m q Q) (hlo : lo' ≤ lo) (hhi : hi ≤ hi') :
    Follows S g A lo' hi' p o m q Q := by
  cases h with
  | spent hn hfuel => exact .spent (hn.widen hlo hhi) hfuel
  | done hn hq h => exact .done (hn.widen hlo hhi) hq h
  | failed hn hfail ha =>
    have hin := hfail.inside
    exact .failed (hn.widen hlo hhi) ⟨⟨by omega, by omega⟩, hfail.going, hfail.step⟩ ha
  | left hn hpos hland ha => exact .left (hn.widen hlo hhi) hpos hland ha

/-- With the anchor at an earlier machine, where less was live. -/
theorem rebase {live : TypedSlot → Bool} (h : Follows S g ⟨live, m₁⟩ lo hi p o m q Q) (ha : Agrees S A none τ m₁)
    (hl : ∀ x, A.live x = true → live x = true) : Follows S g A lo hi p o m q Q := by
  cases h with
  | spent hn hfuel => exact .spent hn hfuel
  | done hn hq h => exact .done hn hq h
  | failed hn hfail h => exact .failed hn hfail (h.rebase ha hl)
  | left hn hpos hland h => exact .left hn hpos hland (h.rebase ha hl)

/-- More steps before, fewer asked for. -/
theorem credit (h : Follows S g A lo hi p o m q Q) (hp : p ≤ p') (hq : q' ≤ q) : Follows S g A lo hi p' o m q' Q := by
  cases h with
  | spent hn hfuel => exact .spent hn (by omega)
  | done hn hk h => exact .done hn (by omega) h
  | failed hn hfail ha => exact .failed hn hfail ha
  | left hn hpos hland ha => exact .left hn (by omega) hland ha

/-- Where there is no code, evaluation completes and the machine stays. -/
theorem of_empty (h : Follows S g A lo hi 0 o m q Q) (he : hi ≤ lo) : ∃ a σ, o = some (.ok a, σ) ∧ Q a σ m := by
  cases h with
  | spent hn hfuel =>
    obtain ⟨rfl, -⟩ := hn.of_empty he
    omega
  | done hn hq hQ =>
    obtain ⟨rfl, rfl⟩ := hn.of_empty he
    exact ⟨_, _, rfl, hQ⟩
  | failed hn hfail ha =>
    have := hfail.inside
    omega
  | left hn hpos hland ha =>
    obtain ⟨rfl, -⟩ := hn.of_empty he
    omega

/-! ## Single instructions -/

/-- An operation on values, by the instruction that applies it. -/
theorem does {result : Except Fault α} {after : α → Machine} (hd : S.image.Does m result after) (hlo : lo ≤ m.pc)
    (hhi : m.pc < hi) (ha : Agrees S A none σ m)
    (hf : ∀ a, result = .ok a → Follows S g A lo hi (p + 1) ((f a).on σ) (after a) r R) :
    Follows S g A lo hi p ((Eval.lift result >>= f).on σ) m r R := by
  unfold Image.Does at hd
  cases hresult : result with
  | error e =>
    rw [hresult] at hd
    exact .failed (.refl m) ⟨⟨hlo, hhi⟩, ha.going, hd⟩ ha
  | ok a =>
    rw [hresult] at hd
    exact .silent (Eval.on_lift_ok a σ) (.step hlo hhi ha.going hd (hf a hresult))

/-- An operation whose value goes into a register. -/
theorem performs {result : Except Fault Value} {x : TypedSlot} {f : Value → Eval β} (hp : S.image.Performs m x result)
    (hlo : lo ≤ m.pc) (hhi : m.pc < hi) (ha : Agrees S A none σ m) (hx : x ∉ S.ctx.params)
    (hhas : m.registers.has x = true)
    (hf : ∀ v, Stored S A x v σ (m.wrote x v) → Follows S g A lo hi (p + 1) ((f v).on σ) (m.wrote x v) r R) :
    Follows S g A lo hi p ((Eval.lift result >>= f).on σ) m r R :=
  does hp.does hlo hhi ha fun v hv => hf v (ha.stored hx (hp.kind v hv) hhas)

/-- A value already at hand, written into a register. -/
theorem writes {v : Value} {x : TypedSlot} (hp : S.image.Performs m x (.ok v)) (hlo : lo ≤ m.pc) (hhi : m.pc < hi)
    (ha : Agrees S A none σ m) (hx : x ∉ S.ctx.params) (hhas : m.registers.has x = true)
    (h : Stored S A x v σ (m.wrote x v) → Follows S g A lo hi (p + 1) o (m.wrote x v) q Q) :
    Follows S g A lo hi p o m q Q :=
  step hlo hhi ha.going hp.does (h (ha.stored hx (hp.kind v rfl) hhas))

theorem goto {a : Nat} (hS : S.Valid) (hc : S.code[m.pc]? = some (.goto (.address a))) (hlo : lo ≤ m.pc)
    (hhi : m.pc < hi) (hgo : m.stopped = false) (h : Follows S g A lo hi (p + 1) o { m with pc := a } q Q) :
    Follows S g A lo hi p o m q Q := by
  obtain ⟨b, hb, hlt⟩ := hS.sealed.targets _ _ _ hc rfl
  cases hb
  exact step hlo hhi hgo (Image.step_goto hc hlt) h

/-- The tail of a branch on a register. -/
theorem decides {b : Branch} {yes no : Nat} {v : Int32} (hS : S.Valid) (hb : b.Decides S.code yes no)
    (hpc : m.pc = b.tail.position) (hfall : b.fallThrough = b.tail.position + 1) (hneg : b.tail.negated = false)
    (hlo : lo ≤ m.pc) (hhi : m.pc < hi) (hgo : m.stopped = false)
    (hv : m.registers.get? ⟨.int, b.tail.cond⟩ = some (.int v))
    (h : Follows S g A lo hi (p + 1) o { m with pc := if v != 0 then yes else no } q Q) :
    Follows S g A lo hi p o m q Q := by
  obtain ⟨polarity, x, hc, hx⟩ := hb.tail
  rw [hneg, ← hpc, Bool.bne_false] at hc
  obtain ⟨y, hy, hlt⟩ := hS.sealed.targets _ _ _ hc rfl
  cases hy
  refine step hlo hhi hgo (Image.step_jumpIf hc hlt hv) ?_
  have hto : (if (v != 0) == polarity then x else m.pc + 1) = if v != 0 then yes else no := by
    cases htruth : v != 0 <;> cases polarity <;> obtain ⟨rfl, rfl⟩ := hx <;> simp [hfall, hpc]
  rwa [hto]

end Follows

end SlotCode
