/-
  SlotCode.Proofs.CountedWalk — the walk with a counter for its depth and a search among the open regions.

  The walk is told how deep it is and asks whether a region is on the stack. Neither has to
  be so. The depth is the number of nodes that are underway: entering a node raises it by
  one and leaving the node lowers it again (`depth_enter`, `depth_leave`), so a counter
  that is moved at these two places can be read instead. The numbers on the stack fall from
  the innermost region to the whole function, so a region is found by halving the stack.

  Proved: the counter is the length of the way from the body (`Laid.depth_eq`), the search
  finds exactly the regions that are open (`Laid.isOpen_iff`), and a walk that reads the one
  and does the other lowers the body of every function as `walk` does (`countedWalk_eq`).
-/

import SlotCode.Proofs.Cycles

namespace SlotCode.Lowering

variable {ctx : Context} {base : Draft} {path : List NodeId} {m : Work} {s : State} {id : NodeId} {w' w : Walk}

/-! ## The depth -/

/-- How many nodes have been entered and not left. -/
def State.depth (s : State) : Nat := ((Finset.range s.nodes.size).filter fun id => s.stage id = .underway).card

theorem depth_enter (hid : id < s.nodes.size) (hn : s.stage id = .untouched) :
    (s.setNode id { s.node id with progress := .underway }).depth = s.depth + 1 := by
  have hstage := setProgress_stage hid .underway
  have hsize : (s.setNode id { s.node id with progress := .underway }).nodes.size = s.nodes.size := by simp [State.setNode]
  have hnew : id ∉ (Finset.range s.nodes.size).filter fun id => s.stage id = .underway := by simp [hn]
  rw [State.depth, State.depth, ← Finset.card_insert_of_notMem hnew, hsize]
  congr 1
  ext i
  rw [Finset.mem_insert, Finset.mem_filter, Finset.mem_filter, Finset.mem_range, hstage]
  by_cases hi : id = i
  · subst hi
    simp [hid, Progress.stage]
  · simp [hi, Ne.symm hi]

theorem depth_leave {slot : Option TypedSlot} {region : Region} (hid : id < s.nodes.size) (hn : s.stage id = .underway) :
    (s.setNode id { s.node id with progress := .built slot region }).depth + 1 = s.depth := by
  have hstage := setProgress_stage hid (.built slot region)
  have hsize : (s.setNode id { s.node id with progress := .built slot region }).nodes.size = s.nodes.size := by
    simp [State.setNode]
  have hmem : id ∈ (Finset.range s.nodes.size).filter fun id => s.stage id = .underway := by simp [hid, hn]
  rw [State.depth, State.depth, ← Finset.card_erase_add_one hmem, hsize]
  congr 2
  ext i
  rw [Finset.mem_erase, Finset.mem_filter, Finset.mem_filter, Finset.mem_range, hstage]
  by_cases hi : id = i
  · subst hi
    simp [Progress.stage]
  · simp [hi, Ne.symm hi]

/-- The counter is the depth of the node at hand. -/
theorem Laid.depth_eq (h : Laid ctx base path m s) : s.depth = path.length := by
  have hpath : ((Finset.range s.nodes.size).filter fun id => s.stage id = .underway) = path.toFinset := by
    ext i
    rw [Finset.mem_filter, Finset.mem_range, h.underway, List.mem_toFinset, h.arena]
    exact and_iff_right_of_imp h.lt_of_mem
  rw [State.depth, hpath, List.toFinset_card_of_nodup h.once]

/-! ## The open regions -/

/-- Where the search for a number narrows down to, among the `size` numbers from `start` on, which rise. -/
def narrow (numbers : Array Region) (r : Region) (start size : Nat) : Nat :=
  if size ≤ 1 then start
  else
    let half := size / 2
    narrow numbers r (if r < numbers.getD (start + half) 0 then start else start + half) (size - half)
termination_by size

/-- Whether the search among the open regions, from the whole function inward, finds a region. -/
def State.isOpen (s : State) (r : Region) : Bool :=
  let stack := s.regions.reverse.toArray
  stack[narrow stack r 0 stack.size]? == some r

/-- The search does not pass the number by. -/
theorem narrow_finds {numbers : Array Region} {r : Region} {i : Nat} (hrise : numbers.toList.Pairwise (· < ·)) (start size : Nat)
    (hfits : start + size ≤ numbers.size) (hfrom : start ≤ i) (hto : i < start + size) (hi : numbers[i]? = some r) :
    narrow numbers r start size = i := by
  induction size using Nat.strongRecOn generalizing start with
  | ind size ih =>
    rw [narrow]
    split
    · omega
    · have hmid : start + size / 2 < numbers.size := by omega
      have hrise' : ∀ j k (hj : j < numbers.size) (hk : k < numbers.size), j < k → numbers[j] < numbers[k] := by
        intro j k hj hk hjk
        exact List.pairwise_iff_getElem.1 hrise j k hj hk hjk
      obtain ⟨hin, rfl⟩ := Array.getElem?_eq_some_iff.1 hi
      have hget : numbers.getD (start + size / 2) 0 = numbers[start + size / 2] := by simp [hmid]
      dsimp only
      rw [hget]
      split
      · rename_i hless
        -- What stands in the middle is larger, so the number is before it.
        refine ih _ (by omega) start (by omega) hfrom ?_
        by_contra hlate
        rcases Nat.eq_or_lt_of_le (show start + size / 2 ≤ i by omega) with he | hlt
        · subst he
          exact Nat.lt_irrefl _ hless
        · exact Nat.lt_asymm hless (hrise' _ _ hmid hin hlt)
      · rename_i hless
        refine ih _ (by omega) (start + size / 2) (by omega) ?_ (by omega)
        by_contra hearly
        exact hless (hrise' _ _ hin hmid (by omega))

/-- The search finds exactly the members of the stack. -/
theorem Laid.isOpen_iff (h : Laid ctx base path m s) (r : Region) : s.isOpen r = true ↔ r ∈ s.regions := by
  have hrise : s.regions.reverse.toArray.toList.Pairwise (· < ·) := by
    simpa using List.pairwise_reverse.2 (List.pairwise_cons.1 h.sorted).2
  rw [State.isOpen, beq_iff_eq]
  constructor
  · intro hfound
    simpa using Array.mem_of_getElem? hfound
  · intro hmem
    obtain ⟨i, hi⟩ := Array.getElem?_of_mem (show r ∈ s.regions.reverse.toArray by simpa using hmem)
    have hlt := (Array.getElem?_eq_some_iff.1 hi).1
    rw [narrow_finds hrise 0 _ (by omega) (Nat.zero_le i) (by omega) hi, hi]

/-! ## The walk -/

/-- Lowers a node as `build` does, at the depth that the counter shows and with a search for the region. -/
def countedBuild (ctx : Context) (inner : Walk) (id : NodeId) (u : Usage) (hint : Option TypedSlot) (offer : Option Offer) :
    Lower Visited := do
  match (← nodeState id).progress with
  | .underway => throw (.cycle id)
  | .built slot region =>
    if u = .value ∧ (← get).isOpen region = false then throw (.sharedAcrossBranches id)
    else
      consume id u
      checkSlot id u { slot }
  | .untouched =>
    consume id u
    checkSlot id u (← entering ctx (← get).depth id (·.slot) (visit ctx inner id hint offer))

/-- Lowers a boolean node as `condition` does, at the depth that the counter shows. -/
def countedCondition (ctx : Context) (inner : Walk) (id : NodeId) : Lower Branch := do
  ctx.expectType id .boolean
  match ← ctx.composable? id with
  | some c =>
    consume id .value
    entering ctx (← get).depth id (fun _ => none) (compose inner c)
  | none => branchOn { inner with build := countedBuild ctx inner } id

/-- The walk without its depth. -/
def countedWalk (ctx : Context) : (room : Nat) → Walk
  | 0 => ⟨fun id _ _ _ => throw (.cycle id), fun id => throw (.cycle id)⟩
  | room + 1 =>
    let inner := countedWalk ctx room
    ⟨countedBuild ctx inner, countedCondition ctx inner⟩

/-- Two steps that start alike and go on alike from wherever the start leads to. -/
theorem bind_congr_run {α β : Type} {x : Lower α} {f g : α → Lower β} (h : ∀ a t, x s = .ok (a, t) → f a t = g a t) :
    (x >>= f) s = (x >>= g) s := by
  show x s >>= (fun r => f r.1 r.2) = x s >>= fun r => g r.1 r.2
  cases hr : x s with
  | error e => rfl
  | ok r => exact h r.1 r.2 hr

/-- The same for two steps that end alike. -/
theorem bind_congr_left {α β : Type} {x y : Lower α} {f : α → Lower β} (h : x s = y s) : (x >>= f) s = (y >>= f) s :=
  congrArg (fun r : Except BuildError (α × State) => r >>= fun q => f q.1 q.2) h

variable {u : Usage} {hint : Option TypedSlot} {offer : Option Offer}

/-- Wherever lowering comes to, the counter and the search do what the depth and the stack do. -/
theorem Laid.countedBuild_eq (h : Laid ctx base path m s) (hid : ctx.function.Reachable id) :
    countedBuild ctx w id u hint offer s = build ctx path.length w id u hint offer s := by
  refine bind_congr_run fun n t hn => ?_
  cases hn
  cases (s.node id).progress with
  | underway => rfl
  | built slot region =>
    have hsame : s.isOpen region = false ↔ region ∉ s.regions := by rw [← h.isOpen_iff, Bool.not_eq_true]
    refine bind_congr_run fun t' t ht => ?_
    cases ht
    simp only [hsame]
  | untouched =>
    refine bind_congr_run fun _ t ht => ?_
    have hlaid := ((h.consume hid u).ok rfl ht).1
    show (entering ctx t.depth id (·.slot) (visit ctx w id hint offer) >>= checkSlot id u) t = _
    rw [hlaid.depth_eq]

theorem Laid.countedCondition_eq (h : Laid ctx base path m s) (hid : ctx.function.Reachable id) :
    countedCondition ctx w id s = condition ctx path.length w id s := by
  refine bind_congr_run fun _ s₁ hexpect => ?_
  have h₁ := ((idle_expectType hid .boolean (base, path, m)).ok h hexpect).2
  refine bind_congr_run fun k s₂ hk => ?_
  obtain ⟨rfl, -⟩ := (composable_untouched (E := fun _ => True) fun _ => trivial).ok rfl hk
  cases k with
  | some c =>
    refine bind_congr_run fun _ s₃ hconsume => ?_
    have h₃ := ((h₁.consume hid .value).ok rfl hconsume).1
    show entering ctx s₃.depth id (fun _ => none) (compose w c) s₃ = _
    rw [h₃.depth_eq]
  | none =>
    refine bind_congr_left (bind_congr_left (bind_congr_run fun _ s₃ halloc => ?_))
    have h₃ := h₁.of_tends ((routine_alloc.meets h₁.clean).ok rfl halloc).2
    exact bind_congr_left (h₃.countedBuild_eq hid)

/-- Every level of the two walks does the same. -/
theorem countedWalk_works (room : Nat) : ∀ path : List NodeId, path.length ≤ ctx.options.maxDepth →
    ctx.function.nodes.size < room + path.length → (countedWalk ctx room).Works ctx path (walk ctx room path.length) := by
  induction room with
  | zero => exact fun path _ hroom => .of_full (by omega)
  | succ room ih =>
    intro path hlimit hroom
    have hinner : ∀ id, path.length + 1 ≤ ctx.options.maxDepth →
        (countedWalk ctx room).Works ctx (id :: path) (walk ctx room (path.length + 1)) :=
      fun id hfits => ih (id :: path) hfits (by rw [List.length_cons]; omega)
    refine ⟨fun c hc u hint offer base m => ?_, fun c hc base m => ?_⟩
    · have hbuild := Walk.Works.build_adds hlimit (hinner c) hc u hint offer base m
      exact ⟨hbuild.meets, fun s hs => (hs.countedBuild_eq hc.reachable).trans (hbuild.same s hs)⟩
    · have hcondition := Walk.Works.condition_adds hlimit (hinner c) hc base m
      exact ⟨hcondition.meets, fun s hs => (hs.countedCondition_eq hc.reachable).trans (hcondition.same s hs)⟩

/-- A counter that entering raises and leaving lowers, and a search among the open regions, lower the body of every
    function to the same code, or fail in the same way, as the depth that the walk is told and the stack that it asks. -/
theorem countedWalk_eq {u : Usage} (h : Outset ctx u s) :
    (countedWalk ctx (ctx.function.nodes.size + 1)).build ctx.function.body u none none s =
      (walk ctx (ctx.function.nodes.size + 1) 0).build ctx.function.body u none none s := by
  have hworks : (countedWalk ctx (ctx.function.nodes.size + 1)).Works ctx [] (walk ctx (ctx.function.nodes.size + 1) 0) :=
    countedWalk_works _ [] (Nat.zero_le _) (by simp)
  exact (hworks.build ctx.function.body .body u none none s.draft 0).same s h.laid

end SlotCode.Lowering
