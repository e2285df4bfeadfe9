/-
  SlotCode.Proofs.SpentCounts — the counts of a node are used up consumer by consumer.

  Two numbers are kept for a node, the consumers left and the reads among them. How many may
  still ignore the value is their difference, so that one usage must never eat into what is
  left for the other. `Left.of` is what is left for a usage, and `Demand.counted` what the
  analysis counted for it.

  Proved: a consumer is taken exactly when something is left for its usage, and then takes
  one from this usage and none from the other (`Left.take_spends`). So at all times what is
  left for a usage and what was spent of it make up what was counted (`Tracks`). Hence
  `consume_spends_counts`, for every function and every sequence of consumers.
-/

import SlotCode.Proofs.Analysis
import SlotCode.Proofs.History

namespace SlotCode

/-- The consumers left for a usage. -/
def Left.of (l : Left) : Usage → Nat
  | .value => l.values
  | .ignore => l.consumers - l.values

namespace Demand

/-- The consumers counted for a usage. -/
def counted (d : Demand) (n : NodeId) : Usage → Nat
  | .value => d.total n - d.ignored n
  | .ignore => d.ignored n

/-- A consumer that came, and the answer it got. -/
structure Event where
  node : NodeId
  usage : Usage
  answer : Except ConsumeError Nat

/-- One more consumer comes. -/
def met (d : Demand) (c : NodeId × Usage) : Event × Demand :=
  match d.consume c.1 c.2 with
  | .ok (left, d) => (⟨c.1, c.2, .ok left⟩, d)
  | .error e => (⟨c.1, c.2, .error e⟩, d)

/-- The demand after some consumers have come. -/
def after (d : Demand) (calls : List (NodeId × Usage)) : History Demand Event := History.run met d calls

/-- How many consumers of a node have come for a usage and were counted. -/
def spent (past : List Event) (n : NodeId) (u : Usage) : Nat :=
  past.countP fun e => e.node = n ∧ e.usage = u ∧ e.answer.isOk

end Demand

/-! ## One consumer -/

/-- A consumer is taken when one is left for its usage, and is then taken from this usage alone. -/
theorem Left.take_spends {l : Left} (h : l.values ≤ l.consumers) (u : Usage) :
    (l.of u = 0 ∧ l.take u = none) ∨
      ∃ l', l.take u = some l' ∧ l'.values ≤ l'.consumers ∧ l'.consumers + 1 = l.consumers ∧
        ∀ u', l'.of u' + (if u' = u then 1 else 0) = l.of u' := by
  cases u with
  | value =>
    by_cases hv : 0 < l.values
    · refine .inr ⟨⟨l.consumers - 1, l.values - 1⟩, if_pos ⟨by omega, hv⟩, by simp only; omega, by simp only; omega, ?_⟩
      intro u'
      cases u' <;> simp only [Left.of, reduceCtorEq, if_true, if_false] <;> omega
    · refine .inl ⟨by simp only [Left.of]; omega, if_neg ?_⟩
      omega
  | ignore =>
    by_cases hv : l.values < l.consumers
    · refine .inr ⟨⟨l.consumers - 1, l.values⟩, if_pos ⟨by omega, by omega⟩, by simp only; omega, by simp only; omega, ?_⟩
      intro u'
      cases u' <;> simp only [Left.of, reduceCtorEq, if_true, if_false] <;> omega
    · refine .inl ⟨by simp only [Left.of]; omega, if_neg ?_⟩
      omega

namespace Demand

variable {d d₀ : Demand} {n : NodeId} {u : Usage} {past : List Event}

/-- What is left of a node. -/
def leftAt (d : Demand) (n : NodeId) : Left := d.left.getD n {}

theorem consume_of_none (h : (d.leftAt n).take u = none) :
    d.consume n u = .error (if n < d.left.size then .mismatch n u else .missing n) := by
  unfold leftAt at h
  unfold consume
  by_cases hn : n < d.left.size
  · simp_all
  · simp [hn]

theorem consume_of_some {l : Left} (h : (d.leftAt n).take u = some l) :
    n < d.left.size ∧ d.consume n u = .ok (l.consumers, { d with left := d.left.setIfInBounds n l }) := by
  unfold leftAt at h
  unfold consume
  by_cases hn : n < d.left.size
  · simp_all
  · have hnone : d.left[n]? = none := Array.getElem?_eq_none (Nat.le_of_not_lt hn)
    rw [Array.getD_eq_getD_getElem?, hnone] at h
    cases u <;> cases h

/-- A consumer of a node is refused when none is left for its usage, and else leaves one less for this usage alone. -/
theorem consume_cases (h : (d.leftAt n).values ≤ (d.leftAt n).consumers) (u : Usage) :
    ((d.leftAt n).of u = 0 ∧ d.consume n u = .error (if n < d.left.size then .mismatch n u else .missing n)) ∨
      ∃ l : Left, (n < d.left.size ∧ d.consume n u = .ok (l.consumers, { d with left := d.left.setIfInBounds n l })) ∧
        l.values ≤ l.consumers ∧ l.consumers + 1 = (d.leftAt n).consumers ∧
        ∀ u', l.of u' + (if u' = u then 1 else 0) = (d.leftAt n).of u' := by
  rcases Left.take_spends h u with ⟨hzero, htake⟩ | ⟨l, htake, hspent⟩
  · exact .inl ⟨hzero, consume_of_none htake⟩
  · exact .inr ⟨l, consume_of_some htake, hspent⟩

theorem leftAt_set (hn : n < d.left.size) (l : Left) (m : NodeId) :
    leftAt { d with left := d.left.setIfInBounds n l } m = if m = n then l else d.leftAt m := by
  simp only [leftAt, Array.getD_eq_getD_getElem?, Array.getElem?_setIfInBounds]
  by_cases hm : m = n
  · simp [hm, hn]
  · simp [hm, Ne.symm hm]

theorem spent_cons (e : Event) (m : NodeId) (u' : Usage) :
    spent (e :: past) m u' = spent past m u' + if e.node = m ∧ e.usage = u' ∧ e.answer.isOk then 1 else 0 := by
  simp [spent, List.countP_cons]

/-! ## Histories -/

/-- What is left for a usage and what was spent of it make up what was counted at the start. -/
structure Tracks (d₀ d : Demand) (past : List Event) : Prop where
  tallies : d.tallies = d₀.tallies
  size : d.left.size = d₀.left.size
  sane : ∀ n, (d.leftAt n).values ≤ (d.leftAt n).consumers
  made : ∀ n u, (d.leftAt n).of u + spent past n u = d₀.counted n u

namespace Tracks

theorem met (h : Tracks d₀ d past) (c : NodeId × Usage) : Tracks d₀ (d.met c).2 ((d.met c).1 :: past) := by
  obtain ⟨n, u⟩ := c
  rcases consume_cases (h.sane n) u with ⟨-, heq⟩ | ⟨l, ⟨hn, heq⟩, hsane, -, hleft⟩
  · simp only [Demand.met, heq]
    refine ⟨h.tallies, h.size, h.sane, fun m u' => ?_⟩
    have hmade := h.made m u'
    simpa [spent_cons, Except.isOk, Except.toBool] using hmade
  · simp only [Demand.met, heq]
    refine ⟨h.tallies, by simpa using h.size, fun m => ?_, fun m u' => ?_⟩
    · rw [leftAt_set hn]
      by_cases hm : m = n
      · simpa [hm] using hsane
      · simpa [hm] using h.sane m
    · have hmade := h.made m u'
      rw [leftAt_set hn, spent_cons]
      by_cases hm : m = n
      · have hof := hleft u'
        simp only [hm, if_true, true_and, Except.isOk, Except.toBool, and_true, eq_comm (a := u)] at hmade ⊢
        omega
      · simpa [hm, Ne.symm hm] using hmade

end Tracks

theorem ignored_le_total {f : Function} (hd : Demand.analyze f = .ok d) (n : NodeId) : d.ignored n ≤ d.total n := by
  obtain ⟨hf, htallies, -⟩ := analyze_ok hd
  have htally : d.tally n = tallyAt f.tallies n := by rw [tally, htallies, tallyAt]
  rw [ignored, total, htally]
  by_cases hn : f.Reachable n
  · have hlt := hf n hn
    rw [Function.ignored_eq_countP hf hlt, Function.total_eq_card hf hlt]
    exact Multiset.countP_le_card _ _
  · obtain ⟨htotal, hignored, -⟩ := Function.tally_eq_blank hf hn
    omega

theorem tracks_start {f : Function} (hd : Demand.analyze f = .ok d) : Tracks d d [] := by
  obtain ⟨-, htallies, hleft⟩ := analyze_ok hd
  have hat : ∀ n, d.leftAt n = ⟨d.total n, d.total n - d.ignored n⟩ := by
    intro n
    rw [leftAt, hleft, Function.left_eq, total, ignored, tally, htallies, tallyAt]
  refine ⟨rfl, rfl, fun n => ?_, fun n u => ?_⟩
  · rw [hat]
    simp only
    omega
  · have hle := ignored_le_total hd n
    rw [hat]
    cases u <;> simp only [Left.of, counted, spent, List.countP_nil] <;> omega

theorem tracks_after {f : Function} (hd : Demand.analyze f = .ok d) (calls : List (NodeId × Usage)) :
    Tracks d (d.after calls).now (d.after calls).past :=
  History.run_keeps (P := fun h => Tracks d h.now h.past) (tracks_start hd) (fun _ c ht => ht.met c) calls

/-- A consumer of one node leaves the others alone, and what it does to its own depends on that node only. -/
theorem met_left (d : Demand) (m : NodeId) (u : Usage) (n : NodeId) : (d.met (m, u)).2.left[n]? =
    if m = n then d.left[n]?.map fun l => (l.take u).getD l else d.left[n]? := by
  unfold met consume
  cases hl : d.left[m]? with
  | none =>
    by_cases hm : m = n
    · simp [← hm, hl]
    · simp [hm]
  | some l =>
    have hlt : m < d.left.size := (Array.getElem?_eq_some_iff.1 hl).1
    by_cases hm : m = n
    · subst hm
      rw [if_pos rfl, hl]
      cases htake : l.take u <;> simp only [htake, Option.map_some, Option.getD_none, Option.getD_some]
      · exact hl
      · exact Array.getElem?_setIfInBounds_self_of_lt hlt
    · cases htake : l.take u <;> simp [hm, htake]

/-- What is left of a node is the same as if only its own consumers had come. -/
theorem after_own (d : Demand) (calls : List (NodeId × Usage)) (n : NodeId) :
    (d.after calls).now.left[n]? = (d.after (calls.filter (·.1 = n))).now.left[n]? := by
  induction calls using List.reverseRecOn with
  | nil => rfl
  | append_singleton calls c ih =>
    obtain ⟨m, u⟩ := c
    have hnext : ∀ calls, d.after (calls ++ [(m, u)]) = (d.after calls).next met (m, u) := fun calls => History.run_snoc calls _
    rw [hnext, History.next, met_left, ih]
    by_cases hm : m = n
    · have hfilter : (calls ++ [(m, u)]).filter (·.1 = n) = calls.filter (·.1 = n) ++ [(m, u)] := by simp [hm]
      rw [hfilter, hnext, History.next, met_left]
    · have hfilter : (calls ++ [(m, u)]).filter (·.1 = n) = calls.filter (·.1 = n) := by simp [hm]
      rw [hfilter, if_neg hm]

namespace Tracks

/-- A consumer is accepted exactly when fewer have been than were counted for its usage. -/
theorem isOk (h : Tracks d₀ d past) (n : NodeId) (u : Usage) :
    (∃ r, d.consume n u = .ok r) ↔ spent past n u < d₀.counted n u := by
  have hmade := h.made n u
  rcases consume_cases (h.sane n) u with ⟨hzero, heq⟩ | ⟨l, ⟨-, heq⟩, -, -, hleft⟩
  · rw [heq]
    refine iff_of_false (by simp) ?_
    omega
  · have hof := hleft u
    rw [if_pos rfl] at hof
    rw [heq]
    refine iff_of_true ⟨_, rfl⟩ ?_
    omega

theorem consumers_add (h : Tracks d₀ d past) (n : NodeId) :
    (d.leftAt n).consumers + spent past n .value + spent past n .ignore = d₀.counted n .value + d₀.counted n .ignore := by
  have hsane := h.sane n
  have hvalue := h.made n .value
  have hignore := h.made n .ignore
  simp only [Left.of] at hvalue hignore
  omega

/-- What an accepted consumer leaves. -/
theorem accepted (h : Tracks d₀ d past) {left : Nat} {d' : Demand} (hok : d.consume n u = .ok (left, d')) :
    left + (spent past n .value + spent past n .ignore + 1) = d₀.counted n .value + d₀.counted n .ignore ∧
      d'.tallies = d.tallies ∧ ∀ m, m ≠ n → d'.left[m]? = d.left[m]? := by
  have hadd := h.consumers_add n
  rcases consume_cases (h.sane n) u with ⟨-, heq⟩ | ⟨l, ⟨-, heq⟩, -, hone, -⟩
  · rw [heq] at hok
    cases hok
  · rw [heq] at hok
    cases hok
    refine ⟨by omega, rfl, fun m hm => ?_⟩
    simp [Ne.symm hm]

theorem rejected (h : Tracks d₀ d past) {e : ConsumeError} (herr : d.consume n u = .error e) :
    (d.met (n, u)).2 = d ∧ (n < d₀.left.size → e = .mismatch n u) := by
  refine ⟨by simp [Demand.met, herr], fun hn => ?_⟩
  rcases consume_cases (h.sane n) u with ⟨-, heq⟩ | ⟨l, ⟨-, heq⟩, -⟩
  · rw [heq, if_pos (h.size ▸ hn)] at herr
    cases herr
    rfl
  · rw [heq] at herr
    cases herr

end Tracks

end Demand

open Demand

/-- After any consumers of any nodes have come: one that asks for the value of a node is accepted exactly when fewer have
    been than read it, and one that ignores it exactly when fewer have been than ignore it. The answer is the number of
    consumers that have still to come. The reads left are those that were counted less those that came. One that is not
    accepted changes nothing, and none changes what was counted or what is left of another node. -/
theorem consume_spends_counts {f : Function} {d : Demand} (hd : Demand.analyze f = .ok d) (calls : List (NodeId × Usage))
    (n : NodeId) :
    let now := (d.after calls).now
    let came := spent (d.after calls).past n
    ((∃ r, now.consume n .value = .ok r) ↔ came .value < d.total n - d.ignored n) ∧
    ((∃ r, now.consume n .ignore = .ok r) ↔ came .ignore < d.ignored n) ∧
    (∀ u left d', now.consume n u = .ok (left, d') → left + (came .value + came .ignore + 1) = d.total n ∧
      d'.tallies = now.tallies ∧ ∀ m, m ≠ n → d'.left[m]? = now.left[m]?) ∧
    now.valuesLeft n + came .value = d.total n - d.ignored n ∧
    (∀ u e, now.consume n u = .error e → (now.met (n, u)).2 = now ∧ (n < f.nodes.size → e = .mismatch n u)) ∧
    now.tallies = d.tallies ∧ now.left[n]? = (d.after (calls.filter (·.1 = n))).now.left[n]? := by
  intro now came
  have htracks : Tracks d now (d.after calls).past := tracks_after hd calls
  have hle := ignored_le_total hd n
  have htotal : d.counted n .value + d.counted n .ignore = d.total n := Nat.sub_add_cancel hle
  have hsize : d.left.size = f.nodes.size := by
    obtain ⟨hf, -, hleft⟩ := analyze_ok hd
    rw [hleft, Array.size_map]
    exact (Function.counted_tallies hf).size
  refine ⟨htracks.isOk n .value, htracks.isOk n .ignore, fun u left d' hok => ?_, htracks.made n .value, fun u e herr => ?_,
    htracks.tallies, after_own d calls n⟩
  · rw [← htotal]
    exact htracks.accepted hok
  · rw [← hsize]
    exact htracks.rejected herr

/-- Twice the successor of its parameter. The successor is one node, which a sequence names twice and reads once. -/
def doubledNext : Function where
  params := [.int]
  locals := []
  nodes := #[⟨.param 0, .int⟩, ⟨.const (.int 1), .int⟩, ⟨.binary (.arith .int .add) 0 1, .int⟩, ⟨.sequence 2 2, .int⟩,
    ⟨.const (.int 2), .int⟩, ⟨.binary (.arith .int .mul) 3 4, .int⟩]
  body := 5
  returnType := .int

def doubledNextDemand : Demand where
  tallies := #[⟨1, 0, true, true⟩, ⟨1, 0, true, true⟩, ⟨2, 1, true, true⟩, ⟨1, 0, true, true⟩, ⟨1, 0, true, true⟩,
    ⟨1, 0, true, true⟩]
  left := #[⟨1, 1⟩, ⟨1, 1⟩, ⟨2, 1⟩, ⟨1, 1⟩, ⟨1, 1⟩, ⟨1, 1⟩]

theorem analyze_doubledNext : Demand.analyze doubledNext = .ok doubledNextDemand := by
  have hnone : doubledNext.order.find? (fun id => doubledNext.nodes.size ≤ id) = none := by decide +kernel
  have htallies : doubledNext.tallies = doubledNextDemand.tallies := by decide +kernel
  rw [Demand.analyze, hnone, htallies]
  simp [doubledNextDemand]

/-- The successor is read, and a second read is refused, with one of the parameter in between; it can still be ignored. -/
theorem doubledNext_spends_counts :
    let h := doubledNextDemand.after [(2, .value), (0, .value), (2, .value)]
    Demand.analyze doubledNext = .ok doubledNextDemand ∧ spent h.past 2 .value = 1 ∧ h.now.valuesLeft 2 = 0 ∧
      (¬ ∃ r, h.now.consume 2 .value = .ok r) ∧ ∃ d', h.now.consume 2 .ignore = .ok (0, d') := by
  intro h
  obtain ⟨hvalue, hignore, hanswer, hleft, -⟩ :=
    consume_spends_counts analyze_doubledNext [(2, .value), (0, .value), (2, .value)] 2
  have hread : spent h.past 2 .value = 1 := by decide +kernel
  have hignored : spent h.past 2 .ignore = 0 := by decide +kernel
  have hcounted : doubledNextDemand.total 2 = 2 ∧ doubledNextDemand.ignored 2 = 1 := ⟨rfl, rfl⟩
  rw [hcounted.1, hcounted.2, hread] at hvalue hleft
  rw [hcounted.2, hignored] at hignore
  obtain ⟨⟨left, d'⟩, hok⟩ := hignore.2 Nat.zero_lt_one
  obtain ⟨hzero, -⟩ := hanswer .ignore left d' hok
  rw [hcounted.1, hread, hignored] at hzero
  obtain rfl : left = 0 := by omega
  have hspent : h.now.valuesLeft 2 + 1 = 1 := hleft
  exact ⟨analyze_doubledNext, hread, by omega, fun hr => absurd (hvalue.1 hr) (by omega), d', hok⟩

end SlotCode
