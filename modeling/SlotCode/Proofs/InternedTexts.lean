/-
  SlotCode.Proofs.InternedTexts — a program holds each of its texts once, and its runs share the objects.

  The texts of a program are those of the text constants that can be reached and are read.
  A constant is a leaf, so it is lowered where the order of the function comes to it, and
  the table lists the texts as they come up first. Each of these constants has one
  instruction, whose number leads to the text of the constant. Loading makes one object for
  each entry of the table, and an image keeps these objects for all its runs. So two loads
  give the same object exactly when the texts are equal.

  Proved: `Passage.told` for the table and the code, `Image.loadsText_eq_iff` for the
  objects, and `compile_interns_texts`.
-/

import SlotCode.Proofs.Analysis
import SlotCode.Proofs.OncePerNode
import SlotCode.Proofs.Realization
import SlotCode.Proofs.TextWalk

namespace SlotCode

theorem nodup_eraseDups (xs : List String) : xs.eraseDups.Nodup := by
  induction xs using List.reverseRecOn with
  | nil => exact List.nodup_nil
  | append_singleton xs x ih =>
    rw [eraseDups_snoc]
    by_cases hx : x ∈ xs
    · rwa [if_pos hx]
    · rw [if_neg hx, List.nodup_append]
      refine ⟨ih, List.nodup_singleton x, fun y hy z hz => ?_⟩
      rintro rfl
      exact hx (List.mem_singleton.1 hz ▸ List.mem_eraseDups.1 hy)

/-! ## The table -/

namespace Lowering

variable {ctx : Context} {p : Program} {u : Usage} {s : State}

/-- Before anything is lowered, no node was come to and no text was met. -/
theorem Outset.told (h : Outset ctx u s) :
    Told ctx ⟨Array.replicate ctx.function.nodes.size false, []⟩ [] [] s := by
  obtain ⟨demand, hdemand, hs⟩ := h.analyzed
  obtain ⟨-, htallies, -⟩ := Demand.analyze_ok hdemand
  have hstage : ∀ id, s.stage id = .untouched := fun id => by
    rw [hs, State.stage, node_start]
    rfl
  refine ⟨?_, ?_, Array.size_replicate, fun id _ => ?_, ?_, ?_, ?_⟩
  · rw [hs]
    simp [State.start]
  · rw [hs]
    exact htallies
  · rw [hstage, Function.not_has_start]
    simp
  · rw [hs]
    exact ⟨List.nodup_nil, by simp [State.start]⟩
  · rw [hs]
    rfl
  · rw [hs]
    rfl

/-- When the lowering is over, the table holds the texts of all nodes that were read, as the order comes to them, and
    the code loads them one by one. -/
theorem Passage.told (P : Passage ctx p) :
    p.texts.toList = (ctx.function.order.reverse.filterMap ctx.function.textRead?).eraseDups ∧
      (p.code.toList.filterMap Instruction.text?).map (p.texts[·]?) =
        (ctx.function.order.reverse.filterMap ctx.function.textRead?).map some := by
  have hstrolls : (walk ctx (ctx.function.nodes.size + 1) 0).Strolls ctx := walk_strolls _ _
  have hwalked := (hstrolls.build ctx.function.body P.usage none none _).ok P.outset.told P.walks
  have htexts : p.texts = P.walked.texts := by
    rw [P.tables.2.1]
    rcases resultBinding_ok P.binds with ⟨-, hbound, -⟩ | ⟨x, -, -, -, hbound⟩
    · rw [hbound]
    · rw [hbound]
      rfl
  have hfinished : Trail.texts ctx.function (List.foldl (Trail.search ctx.function)
      ⟨Array.replicate ctx.function.nodes.size false, []⟩ [ctx.function.body]) =
        ctx.function.order.reverse.filterMap ctx.function.textRead? := rfl
  rw [P.picked (fun _ _ _ => rfl) rfl, htexts, hwalked.texts, hwalked.loads, hfinished]
  simp

end Lowering

/-! ## The nodes -/

/-- The nodes that are text constants and are read, in the order in which they are lowered. -/
def Function.textNodes (f : Function) : List NodeId := f.order.reverse.filter fun id => (f.textRead? id).isSome

namespace Function

variable {f : Function} {id : NodeId}

theorem textRead?_eq_some {value : String} : f.textRead? id = some value ↔ f.IsRead id ∧ f.text? id = some value := by
  rw [textRead?, Option.ite_none_right_eq_some]
  rfl

theorem textRead?_of_mem (h : id ∈ f.textNodes) : f.textRead? id = f.text? id := by
  obtain ⟨value, hvalue⟩ := Option.isSome_iff_exists.1 (List.mem_filter.1 h).2
  rw [hvalue, (textRead?_eq_some.1 hvalue).2]

theorem filterMap_textRead? (f : Function) : f.order.reverse.filterMap f.textRead? = f.textNodes.filterMap f.text? := by
  have hread : f.textNodes.filterMap f.textRead? = f.textNodes.filterMap f.text? :=
    List.filterMap_congr fun id hid => textRead?_of_mem hid
  rw [← hread, textNodes, List.filterMap_filter]
  refine List.filterMap_congr fun id _ => ?_
  cases f.textRead? id <;> rfl

/-- Without cycles these are the constants that someone reads. -/
theorem mem_textNodes (hf : ∀ id, f.Reachable id → id < f.nodes.size) (ha : f.Acyclic) :
    id ∈ f.textNodes ↔ f.Reachable id ∧ f.Demanded id ∧ ∃ value, f.text? id = some value := by
  rw [textNodes, List.mem_filter, List.mem_reverse, mem_order]
  refine and_congr_right fun hid => ?_
  rw [← isRead_iff hf ha hid, Option.isSome_iff_exists]
  simp only [textRead?_eq_some, exists_and_left]

theorem nodup_textNodes (hf : ∀ id, f.Reachable id → id < f.nodes.size) : f.textNodes.Nodup :=
  (List.nodup_reverse.2 (order_nodup hf)).filter _

end Function

/-- Numbers that lead to the texts of the nodes do so one by one. -/
theorem Function.forall₂_textNodes {f : Function} {table : Array String} {indices : List Nat}
    (h : indices.map (table[·]?) = (f.textNodes.filterMap f.text?).map some) :
    List.Forall₂ (fun id index => f.text? id = table[index]?) f.textNodes indices := by
  have hsome : ∀ ids ⊆ f.textNodes, (ids.filterMap f.text?).map some = ids.map f.text? := by
    intro ids
    induction ids with
    | nil => exact fun _ => rfl
    | cons id ids ih =>
      intro hids
      obtain ⟨hid, hrest⟩ := List.cons_subset.1 hids
      obtain ⟨value, hvalue⟩ := Option.isSome_iff_exists.1 (List.mem_filter.1 hid).2
      rw [textRead?_of_mem hid] at hvalue
      rw [List.filterMap_cons_some hvalue, List.map_cons, List.map_cons, ih hrest, hvalue]
  rw [hsome _ (List.Subset.refl _)] at h
  have heq : List.Forall₂ (· = ·) (f.textNodes.map f.text?) (indices.map (table[·]?)) := by
    rw [List.forall₂_eq_eq_eq]
    exact h.symm
  rwa [List.forall₂_map_left_iff, List.forall₂_map_right_iff] at heq

/-! ## The objects -/

/-- The next step is a load of a text of the program; it succeeds and leaves the object in the register. -/
def Image.LoadsText (im : Image) (m : Machine) (text : String) (object : Ref) : Prop :=
  ∃ r index m', im.program.code[m.pc]? = some (.text r index) ∧ im.program.texts[index]? = some text ∧
    im.step m = .ok m' ∧ m'.registers.get? ⟨.object, r⟩ = some (.ref (some object))

namespace Image

variable {im : Image} {m m' : Machine} {p : Program} {env : Environment} {w : World} {r : Slot} {index : Nat}

/-- A load of a text succeeds when it has a register to go to and an object to load. -/
theorem step_text (hc : im.program.code[m.pc]? = some (.text r index)) :
    im.step m = .ok m' ↔ m.registers.has ⟨.object, r⟩ = true ∧
      ∃ object, im.texts[index]? = some object ∧ m.wrote ⟨.object, r⟩ (.ref (some object)) = m' := by
  by_cases hr : m.registers.has ⟨.object, r⟩ = true
  · have hdoes : im.step m = _ := (performs_text (x := ⟨.object, r⟩) hc hr rfl).does
    rw [hdoes]
    cases htext : im.texts[index]? with
    | none => simp [Fault.expect]
    | some object => simp [Fault.expect, hr]
  · have hrefused : ∀ v, v.kind = .object → m.write ⟨.object, r⟩ v (.invalidInstruction m.pc) ≠ .ok m' := by
      intro v hv
      simp [Machine.write, Registers.set, hv, hr]
    rw [step_eq, hc]
    cases htext : im.texts[index]? with
    | none => simp [effect, htext, expectSome, hr]
    | some object =>
      have hstep := hrefused (.ref (some object)) rfl
      simpa [effect, htext, expectSome, commit, hr] using hstep

/-- The objects of the texts stand in the heap in the order of the table. -/
theorem loadsText_load {text : String} {object : Ref} :
    (load p env w).1.LoadsText m text object ↔ ∃ r index, p.code[m.pc]? = some (.text r index) ∧
      p.texts[index]? = some text ∧ m.registers.has ⟨.object, r⟩ = true ∧ object = w.heap.cells.size + index := by
  have hprogram : (load p env w).1.program = p := by rw [load_eq]
  unfold LoadsText
  rw [hprogram]
  constructor
  · rintro ⟨r, index, m', hc, htext, hstep, hget⟩
    rw [step_text (by rwa [hprogram]), (load_object htext env w).1] at hstep
    obtain ⟨hr, a, ha, rfl⟩ := hstep
    obtain rfl := Option.some.inj ha
    refine ⟨r, index, hc, htext, hr, ?_⟩
    have hput := Registers.get?_put_self (v := .ref (some (w.heap.cells.size + index))) hr
    have hsame := hput.symm.trans hget
    simp only [Option.some.injEq, Value.ref.injEq] at hsame
    exact hsame.symm
  · rintro ⟨r, index, hc, htext, hr, rfl⟩
    refine ⟨r, index, _, hc, htext, (step_text (by rwa [hprogram])).2 ⟨hr, _, (load_object htext env w).1, rfl⟩, ?_⟩
    exact Registers.get?_put_self (v := .ref (some (w.heap.cells.size + index))) hr

variable {m₁ m₂ : Machine} {text₁ text₂ : String} {object₁ object₂ : Ref}

/-- If no text is there twice, two loads give the same object exactly when they load equal texts. -/
theorem loadsText_eq_iff (hp : p.texts.toList.Nodup) (h₁ : (load p env w).1.LoadsText m₁ text₁ object₁)
    (h₂ : (load p env w).1.LoadsText m₂ text₂ object₂) : object₁ = object₂ ↔ text₁ = text₂ := by
  obtain ⟨r₁, i₁, -, ht₁, -, rfl⟩ := loadsText_load.1 h₁
  obtain ⟨r₂, i₂, -, ht₂, -, rfl⟩ := loadsText_load.1 h₂
  rw [Nat.add_left_cancel_iff]
  constructor
  · rintro rfl
    exact Option.some.inj (ht₁.symm.trans ht₂)
  · rintro rfl
    rw [← Array.getElem?_toList] at ht₁ ht₂
    exact (List.getElem?_inj (List.getElem?_eq_some_iff.1 ht₁).1 hp).1 (ht₁.trans ht₂.symm)

/-- Right after loading, the object is the text. -/
theorem heap_loadsText (h : (load p env w).1.LoadsText m₁ text₁ object₁) :
    (load p env w).2.heap.get object₁ = .text text₁ := by
  obtain ⟨r, index, -, htext, -, rfl⟩ := loadsText_load.1 h
  exact (load_object htext env w).2

end Image

/-! ## The whole lowering -/

/-- A program that lowering returns holds no text twice. Its table lists the texts of the constants that can be reached
    and are read, as they come up first when the nodes are lowered. Each of these constants has one instruction, and its
    number leads to the text of the constant. In all runs of one image, two of these instructions load the same object
    exactly when their texts are equal. -/
theorem compile_interns_texts {f : Function} {env : Environment} {options : CompileOptions} {p : Program}
    (h : compile f env options = .ok p) :
    p.texts.toList.Nodup ∧
    (∃ nodes : List NodeId, nodes.Sublist f.order.reverse ∧ nodes.Nodup ∧
      (∀ id, id ∈ nodes ↔ f.Reachable id ∧ f.Demanded id ∧ ∃ value, f.text? id = some value) ∧
      p.texts.toList = (nodes.filterMap f.text?).eraseDups ∧
      List.Forall₂ (fun id index => f.text? id = p.texts[index]?) nodes (p.code.toList.filterMap Instruction.text?)) ∧
    ∀ w : World,
      (∀ m r index, p.code[m.pc]? = some (.text r index) → m.registers.has ⟨.object, r⟩ = true →
        ∃ text object, (Image.load p env w).1.LoadsText m text object) ∧
      (∀ m text object, (Image.load p env w).1.LoadsText m text object →
        (Image.load p env w).2.heap.get object = .text text) ∧
      ∀ m₁ m₂ text₁ text₂ object₁ object₂, (Image.load p env w).1.LoadsText m₁ text₁ object₁ →
        (Image.load p env w).1.LoadsText m₂ text₂ object₂ → (object₁ = object₂ ↔ text₁ = text₂) := by
  obtain ⟨params, vars, ⟨P⟩⟩ := compile_passage h
  have hf : ∀ id, f.Reachable id → id < f.nodes.size := (Demand.analyze_ok P.analyzed).1
  have ha : f.Acyclic := compile_acyclic h
  obtain ⟨htexts, hloads⟩ := P.told
  rw [Function.filterMap_textRead?] at htexts hloads
  have hnodup : p.texts.toList.Nodup := htexts ▸ nodup_eraseDups _
  have hpairs := Function.forall₂_textNodes hloads
  refine ⟨hnodup, ⟨f.textNodes, List.filter_sublist, Function.nodup_textNodes hf, fun _ => Function.mem_textNodes hf ha,
    htexts, hpairs⟩, fun w => ⟨fun m r index hc hr => ?_, fun m text object => Image.heap_loadsText,
    fun m₁ m₂ text₁ text₂ object₁ object₂ => Image.loadsText_eq_iff hnodup⟩⟩
  have hindex : index ∈ p.code.toList.filterMap Instruction.text? :=
    List.mem_filterMap.2 ⟨.text r index, Array.mem_toList_iff.2 (Array.mem_of_getElem? hc), rfl⟩
  have hmem := List.mem_map_of_mem (f := (p.texts[·]?)) hindex
  rw [hloads] at hmem
  obtain ⟨text, -, htext⟩ := List.mem_map.1 hmem
  exact ⟨text, _, Image.loadsText_load.2 ⟨r, index, hc, htext.symm, hr, rfl⟩⟩

/-- Has one text in two nodes, another text, and a third that nobody reads. Tells whether the first text is the same
    object as its copy or as the other text. -/
def echoes : Function where
  params := []
  locals := []
  nodes := #[⟨.text "a", .object⟩, ⟨.text "b", .object⟩, ⟨.text "c", .object⟩, ⟨.text "a", .object⟩,
    ⟨.binary .refEq 0 3, .boolean⟩, ⟨.binary .refEq 0 1, .boolean⟩, ⟨.binary .or 4 5, .boolean⟩,
    ⟨.sequence 2 6, .boolean⟩]
  body := 7
  returnType := .boolean

def echoCode : Program where
  code := #[.text 0 0, .text 1 0, .same .eq 1 0 1, .jumpIf true 1 (.address 7), .text 1 1, .same .eq 1 0 1,
    .jumpIf false 1 (.address 9), .const 0 (.int 1), .goto (.address 10), .const 0 (.int 0), .stop]
  counts := ⟨2, 0, 0, 0, 2⟩
  texts := #["a", "b"]
  result := some ⟨.int, 0⟩

theorem echoes_interned : compile echoes {} {} = .ok echoCode ∧ echoCode.texts.toList.Nodup ∧
    ∃ im w, Image.load echoCode {} {} = (im, w) ∧
      (∃ text object, im.LoadsText (.start im w) text object ∧ w.heap.get object = .text text) ∧
      ∀ m₁ m₂ object₁ object₂, im.LoadsText m₁ "a" object₁ →
        (im.LoadsText m₂ "a" object₂ → object₁ = object₂) ∧
        (im.LoadsText m₂ "b" object₂ → object₁ ≠ object₂) := by
  have hp : compile echoes {} {} = .ok echoCode := by decide +kernel
  obtain ⟨hnodup, -, hobjects⟩ := compile_interns_texts hp
  obtain ⟨hloads, hheap, hiff⟩ := hobjects {}
  refine ⟨hp, hnodup, _, _, rfl, ?_, fun m₁ m₂ object₁ object₂ h₁ => ⟨fun h₂ => ?_, fun h₂ => ?_⟩⟩
  · have hregister : (Registers.new echoCode.counts).has ⟨.object, 0⟩ = true := (Registers.has_new _ _).2 (by decide)
    obtain ⟨text, object, hload⟩ := hloads (.start (Image.load echoCode {} {}).1 _) 0 0 rfl hregister
    exact ⟨text, object, hload, hheap _ _ _ hload⟩
  · exact (hiff _ _ _ _ _ _ h₁ h₂).2 rfl
  · intro hsame
    have htext := (hiff _ _ _ _ _ _ h₁ h₂).1 hsame
    exact absurd htext (by decide)

end SlotCode
