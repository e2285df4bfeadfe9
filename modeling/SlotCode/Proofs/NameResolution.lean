/-
  SlotCode.Proofs.NameResolution — what a name finds after any definitions.

  Functions and static fields are defined under an owner and a name, and looked up under
  both joined by a point. So a look-up finds what was defined last under any owner and name
  that read the same when joined. That is the last definition under this owner and this
  name, unless a point inside a name is taken for the one that joins: what is defined as
  `c` of `a.b` is found as `b.c` of `a`.

  Proved: a table is searched from its newest entry (`newest?_eq_find?`), joining takes
  nothing away from names without a point (`qualified_inj`), and for every sequence of
  definitions `names_resolve_by_text`, which says exactly when a look-up finds what was
  defined under its owner and name.
-/

import Mathlib.Data.List.Basic
import SlotCode.Host.Environment
import SlotCode.Proofs.History

namespace SlotCode

/-! ## Newest entries -/

section

variable {α : Type} {p : α → Bool}

theorem newest?_snoc (xs : List α) (x : α) : newest? p (xs ++ [x]) = if p x then some xs.length else newest? p xs := by
  induction xs with
  | nil => simp [newest?]
  | cons y xs ih =>
    simp only [List.cons_append, newest?, ih, List.length_cons]
    by_cases hx : p x = true
    · simp [hx]
    · simp [hx]

/-- The entries of a table with their positions, the last one first. -/
def newestFirst (xs : List α) : List (α × Nat) := xs.zipIdx.reverse

theorem newestFirst_snoc (xs : List α) (x : α) : newestFirst (xs ++ [x]) = (x, xs.length) :: newestFirst xs := by
  simp [newestFirst, List.zipIdx_append]

theorem mem_newestFirst {xs : List α} {x : α} {i : Nat} : (x, i) ∈ newestFirst xs ↔ xs[i]? = some x := by
  rw [newestFirst, List.mem_reverse, List.mk_mem_zipIdx_iff_getElem?]

theorem newest?_eq_find? (xs : List α) : newest? p xs = ((newestFirst xs).find? fun e => p e.1).map (·.2) := by
  induction xs using List.reverseRecOn with
  | nil => rfl
  | append_singleton xs x ih =>
    rw [newest?_snoc, newestFirst_snoc, List.find?_cons]
    by_cases hx : p x = true
    · simp [hx]
    · simp [hx, ih]

end

/-! ## Owners and names -/

/-- The first mark is where both are cut. -/
theorem append_mark_inj {α : Type} {a : α} {xs xs' ys ys' : List α} (h : a ∉ xs) (h' : a ∉ xs')
    (heq : xs ++ a :: ys = xs' ++ a :: ys') : xs = xs' ∧ ys = ys' := by
  induction xs generalizing xs' with
  | nil =>
    cases xs' with
    | nil => exact ⟨rfl, (List.cons.inj heq).2⟩
    | cons x xs' =>
      obtain ⟨rfl, -⟩ := List.cons.inj heq
      exact absurd List.mem_cons_self h'
  | cons x xs ih =>
    cases xs' with
    | nil =>
      obtain ⟨rfl, -⟩ := List.cons.inj heq
      exact absurd List.mem_cons_self h
    | cons x' xs' =>
      obtain ⟨rfl, hrest⟩ := List.cons.inj heq
      obtain ⟨rfl, hys⟩ := ih (List.not_mem_of_not_mem_cons h) (List.not_mem_of_not_mem_cons h') hrest
      exact ⟨rfl, hys⟩

/-- Names without a point keep apart from their owners. -/
theorem qualified_inj {owner name owner' name' : String} (hname : '.' ∉ name.toList) (hname' : '.' ∉ name'.toList) :
    qualified owner name = qualified owner' name' ↔ (owner, name) = (owner', name') := by
  have hjoined : ∀ owner name, (qualified owner name).toList = owner.toList ++ '.' :: name.toList := by
    intro owner name
    simp [qualified]
  rw [← String.toList_inj, hjoined, hjoined, Prod.mk.injEq, ← String.toList_inj, ← String.toList_inj]
  constructor
  · intro h
    -- The last point of both is the one that joins, so it is the first when read from the end.
    have hback := congrArg List.reverse h
    simp only [List.reverse_append, List.reverse_cons, List.append_assoc, List.singleton_append] at hback
    rw [← List.mem_reverse] at hname hname'
    obtain ⟨hnames, howners⟩ := append_mark_inj hname hname' hback
    exact ⟨List.reverse_injective howners, List.reverse_injective hnames⟩
  · rintro ⟨howner, hname⟩
    rw [howner, hname]

section

variable {α : Type} (key : α → String × String) (owner name : String)

/-- The last entry of that owner and that name. -/
def lastOf (entries : List (α × Nat)) : Option (α × Nat) := entries.find? fun e => key e.1 == (owner, name)

/-- The last entry whose owner and name read the same when joined. -/
def lastJoined (entries : List (α × Nat)) : Option (α × Nat) :=
  entries.find? fun e => qualified (key e.1).1 (key e.1).2 == qualified owner name

variable {key owner name} {entries : List (α × Nat)}

/-- The last entry of a joined text is right if it is of that owner and name, or if there is none. -/
theorem lastOf_eq_lastJoined (h : ∀ e, lastJoined key owner name entries = some e → key e.1 = (owner, name)) :
    lastOf key owner name entries = lastJoined key owner name entries := by
  induction entries with
  | nil => rfl
  | cons e entries ih =>
    simp only [lastJoined, lastOf, List.find?_cons] at h ih ⊢
    by_cases hjoined : qualified (key e.1).1 (key e.1).2 = qualified owner name
    · simp only [hjoined, beq_self_eq_true] at h ⊢
      simp [h e rfl]
    · have hkey : key e.1 ≠ (owner, name) := by
        intro he
        rw [he] at hjoined
        exact hjoined rfl
      simp only [beq_eq_false_iff_ne.2 hjoined, beq_eq_false_iff_ne.2 hkey] at h ⊢
      exact ih h

/-- A look-up by the joined text gives the wrong number exactly when the last entry of that text is of another owner or
    name. -/
theorem lastJoined_right_iff {xs : List α} : (lastJoined key owner name (newestFirst xs)).map (·.2) =
    (lastOf key owner name (newestFirst xs)).map (·.2) ↔
      ∀ e, lastJoined key owner name (newestFirst xs) = some e → key e.1 = (owner, name) := by
  constructor
  · intro hsame e he
    rw [he] at hsame
    obtain ⟨e', he', hid⟩ := Option.map_eq_some_iff.1 hsame.symm
    -- Both stand at the same place of the table, so they are one.
    have hat : xs[e.2]? = some e.1 := mem_newestFirst.1 (List.mem_of_find?_eq_some he)
    have hat' : xs[e'.2]? = some e'.1 := mem_newestFirst.1 (List.mem_of_find?_eq_some he')
    have hone : e.1 = e'.1 := by
      rw [hid] at hat'
      exact Option.some.inj (hat.symm.trans hat')
    rw [hone]
    have hpass := List.find?_some he'
    simpa using hpass
  · intro h
    rw [lastOf_eq_lastJoined h]

theorem key_of_lastJoined (hname : '.' ∉ name.toList) (hentries : ∀ e ∈ entries, '.' ∉ (key e.1).2.toList) :
    ∀ e, lastJoined key owner name entries = some e → key e.1 = (owner, name) := by
  intro e he
  have hmem := List.mem_of_find?_eq_some he
  have hpass := List.find?_some he
  exact (qualified_inj (hentries e hmem) hname).1 (by simpa using hpass)

end

def NativeFunction.key (f : NativeFunction) : String × String := (f.owner, f.name)

def StaticField.key (field : StaticField) : String × String := (field.owner, field.name)

/-! ## Definitions and what they answer -/

namespace Environment

/-- The definition of something that code refers to by owner and name. -/
inductive Definition where
  | function (f : NativeFunction)
  | static (field : StaticField) (v : Value)

namespace Definition

def name : Definition → String
  | .function f => f.name
  | .static field _ => field.name

def function? : Definition → Option NativeFunction
  | .function f => some f
  | .static _ _ => none

def static? : Definition → Option StaticField
  | .function _ => none
  | .static field _ => some field

end Definition

/-- What was defined, and the number it was given. -/
inductive Entry where
  | function (f : NativeFunction) (id : FunctionId)
  | static (field : StaticField) (id : StaticId)

def Entry.function? : Entry → Option (NativeFunction × FunctionId)
  | .function f id => some (f, id)
  | .static _ _ => none

def Entry.static? : Entry → Option (StaticField × StaticId)
  | .function _ _ => none
  | .static field id => some (field, id)

/-- Makes a definition. -/
def define (host : Environment × World) : Definition → Entry × (Environment × World)
  | .function f => (.function f (host.1.defineFunction f).1, ((host.1.defineFunction f).2, host.2))
  | .static field v => (.static field (host.1.defineStatic host.2 field v).1, (host.1.defineStatic host.2 field v).2)

/-- An environment that had classes only, and a world, after some definitions. -/
def defining (classes : ClassTable) (w : World) (defs : List Definition) : History (Environment × World) Entry :=
  History.run define ({ classes }, w) defs

/-- The functions defined so far with their numbers, the last one first. -/
def functionsIn (past : List Entry) : List (NativeFunction × FunctionId) := past.filterMap Entry.function?

/-- The static fields defined so far with their numbers, the last one first. -/
def staticsIn (past : List Entry) : List (StaticField × StaticId) := past.filterMap Entry.static?

variable {classes : ClassTable} {w : World} {defs : List Definition} {owner name : String}

/-- The tables hold what was answered. -/
theorem answers_defining (classes : ClassTable) (w : World) (defs : List Definition) :
    functionsIn (defining classes w defs).past = newestFirst (defining classes w defs).now.1.functions.toList ∧
      staticsIn (defining classes w defs).past = newestFirst (defining classes w defs).now.1.statics.toList := by
  refine History.run_keeps (P := fun h : History (Environment × World) Entry =>
    functionsIn h.past = newestFirst h.now.1.functions.toList ∧ staticsIn h.past = newestFirst h.now.1.statics.toList)
    ⟨rfl, rfl⟩ ?_ defs
  rintro ⟨⟨env, w⟩, past⟩ d ⟨hfunctions, hstatics⟩
  cases d with
  | function f =>
    have hnext : newestFirst (env.functions.push f).toList = (f, env.functions.size) :: newestFirst env.functions.toList := by
      rw [Array.toList_push, newestFirst_snoc, Array.length_toList]
    exact ⟨(congrArg (List.cons _) hfunctions).trans hnext.symm, hstatics⟩
  | static field v =>
    have hnext : newestFirst (env.statics.push field).toList = (field, env.statics.size) :: newestFirst env.statics.toList := by
      rw [Array.toList_push, newestFirst_snoc, Array.length_toList]
    exact ⟨hfunctions, (congrArg (List.cons _) hstatics).trans hnext.symm⟩

/-- The tables hold what was defined, each its own. -/
theorem tables_defining (classes : ClassTable) (w : World) (defs : List Definition) :
    (defining classes w defs).now.1.functions.toList = defs.filterMap Definition.function? ∧
      (defining classes w defs).now.1.statics.toList = defs.filterMap Definition.static? := by
  induction defs using List.reverseRecOn with
  | nil => exact ⟨rfl, rfl⟩
  | append_singleton defs d ih =>
    obtain ⟨hfunctions, hstatics⟩ := ih
    simp only [defining, History.run_snoc, List.filterMap_append] at hfunctions hstatics ⊢
    cases d with
    | function f =>
      simp [History.next, define, defineFunction, Definition.function?, Definition.static?, hfunctions, hstatics]
    | static field v =>
      simp [History.next, define, defineStatic, Definition.function?, Definition.static?, hfunctions, hstatics]

theorem resolveFunction_eq (env : Environment) (owner name : String) : env.resolveFunction owner name =
    (lastJoined NativeFunction.key owner name (newestFirst env.functions.toList)).map (·.2) := by
  rw [resolveFunction, newest?_eq_find?]
  rfl

theorem resolveStatic_eq (env : Environment) (owner name : String) : env.resolveStatic owner name =
    (lastJoined StaticField.key owner name (newestFirst env.statics.toList)).map fun e => (e.2, e.1.type) := by
  have hpass : (fun e : StaticField × Nat => qualified e.1.owner e.1.name == qualified owner name) =
      fun e => qualified e.1.key.1 e.1.key.2 == qualified owner name := rfl
  rw [resolveStatic, newest?_eq_find?, hpass]
  cases hfound : lastJoined StaticField.key owner name (newestFirst env.statics.toList) with
  | none =>
    rw [lastJoined] at hfound
    rw [hfound]
    rfl
  | some e =>
    have hat : env.statics[e.2]? = some e.1 := by
      rw [← Array.getElem?_toList]
      exact mem_newestFirst.1 (List.mem_of_find?_eq_some hfound)
    rw [lastJoined] at hfound
    rw [hfound]
    simp [hat]

theorem mem_functionsIn {e : NativeFunction × FunctionId} (h : e ∈ functionsIn (defining classes w defs).past) :
    .function e.1 ∈ defs := by
  rw [(answers_defining classes w defs).1] at h
  have hmem := List.mem_of_getElem? (mem_newestFirst.1 h)
  rw [(tables_defining classes w defs).1, List.mem_filterMap] at hmem
  obtain ⟨d, hd, hf⟩ := hmem
  cases d with
  | function f => rwa [Option.some.inj hf] at hd
  | static field v => cases hf

theorem mem_staticsIn {e : StaticField × StaticId} (h : e ∈ staticsIn (defining classes w defs).past) :
    ∃ v, .static e.1 v ∈ defs := by
  rw [(answers_defining classes w defs).2] at h
  have hmem := List.mem_of_getElem? (mem_newestFirst.1 h)
  rw [(tables_defining classes w defs).2, List.mem_filterMap] at hmem
  obtain ⟨d, hd, hf⟩ := hmem
  cases d with
  | function f => cases hf
  | static field v => exact ⟨v, by rwa [Option.some.inj hf] at hd⟩

/-- The function that a look-up finds is the last one whose owner and name, joined, read the same. It is the last one
    of that owner and name exactly if that last one is of that owner and name. -/
theorem resolveFunction_defining (classes : ClassTable) (w : World) (defs : List Definition) (owner name : String) :
    (defining classes w defs).now.1.resolveFunction owner name =
        (lastJoined NativeFunction.key owner name (functionsIn (defining classes w defs).past)).map (·.2) ∧
      ((defining classes w defs).now.1.resolveFunction owner name =
          (lastOf NativeFunction.key owner name (functionsIn (defining classes w defs).past)).map (·.2) ↔
        ∀ e, lastJoined NativeFunction.key owner name (functionsIn (defining classes w defs).past) = some e →
          e.1.key = (owner, name)) := by
  rw [(answers_defining classes w defs).1, resolveFunction_eq]
  exact ⟨rfl, lastJoined_right_iff⟩

theorem resolveStatic_defining (classes : ClassTable) (w : World) (defs : List Definition) (owner name : String) :
    (defining classes w defs).now.1.resolveStatic owner name =
        (lastJoined StaticField.key owner name (staticsIn (defining classes w defs).past)).map
          (fun e => (e.2, e.1.type)) ∧
      ((defining classes w defs).now.1.resolveStatic owner name =
          (lastOf StaticField.key owner name (staticsIn (defining classes w defs).past)).map (fun e => (e.2, e.1.type)) ↔
        ∀ e, lastJoined StaticField.key owner name (staticsIn (defining classes w defs).past) = some e →
          e.1.key = (owner, name)) := by
  rw [(answers_defining classes w defs).2, resolveStatic_eq]
  refine ⟨rfl, ?_, ?_⟩
  · intro hsame
    have hids := congrArg (Option.map Prod.fst) hsame
    simp only [Option.map_map] at hids
    exact lastJoined_right_iff.1 hids
  · intro h
    rw [lastOf_eq_lastJoined h]

/-- After any definitions, a look-up finds the last function, or the last static field, whose owner and name read like
    those asked for once a point joins them. It is the last one of that owner and that name exactly when no later one of
    another owner and name reads the same, and always when no name has a point in it. Functions are found as if no
    static field had been defined, and static fields as if no function had been. -/
theorem names_resolve_by_text (classes : ClassTable) (w : World) (defs : List Definition) (owner name : String) :
    let env := (defining classes w defs).now.1
    let functions := functionsIn (defining classes w defs).past
    let statics := staticsIn (defining classes w defs).past
    (env.resolveFunction owner name = (lastJoined NativeFunction.key owner name functions).map (·.2) ∧
      (env.resolveFunction owner name = (lastOf NativeFunction.key owner name functions).map (·.2) ↔
        ∀ e, lastJoined NativeFunction.key owner name functions = some e → e.1.key = (owner, name))) ∧
    (env.resolveStatic owner name = (lastJoined StaticField.key owner name statics).map (fun e => (e.2, e.1.type)) ∧
      (env.resolveStatic owner name = (lastOf StaticField.key owner name statics).map (fun e => (e.2, e.1.type)) ↔
        ∀ e, lastJoined StaticField.key owner name statics = some e → e.1.key = (owner, name))) ∧
    ('.' ∉ name.toList → (∀ d ∈ defs, '.' ∉ d.name.toList) →
      env.resolveFunction owner name = (lastOf NativeFunction.key owner name functions).map (·.2) ∧
        env.resolveStatic owner name = (lastOf StaticField.key owner name statics).map (fun e => (e.2, e.1.type))) ∧
    (∀ defs', (defs'.filterMap Definition.function? = defs.filterMap Definition.function? →
        (defining classes w defs').now.1.resolveFunction owner name = env.resolveFunction owner name) ∧
      (defs'.filterMap Definition.static? = defs.filterMap Definition.static? →
        (defining classes w defs').now.1.resolveStatic owner name = env.resolveStatic owner name)) := by
  have hfunctions := resolveFunction_defining classes w defs owner name
  have hstatics := resolveStatic_defining classes w defs owner name
  refine ⟨hfunctions, hstatics, ?_, ?_⟩
  · intro hname hnames
    constructor
    · exact hfunctions.2.2 (key_of_lastJoined hname fun e he => hnames _ (mem_functionsIn he))
    · apply hstatics.2.2
      apply key_of_lastJoined hname
      intro e he
      obtain ⟨v, hmem⟩ := mem_staticsIn he
      exact hnames _ hmem
  · intro defs'
    constructor
    · intro hsame
      rw [resolveFunction_eq, resolveFunction_eq, (tables_defining ..).1, (tables_defining ..).1, hsame]
    · intro hsame
      rw [resolveStatic_eq, resolveStatic_eq, (tables_defining ..).2, (tables_defining ..).2, hsame]

/-- A function of no parameters that gives null. -/
def giveNull (owner name : String) : NativeFunction where
  owner
  name
  kind := .static
  params := []
  result := .object
  body := fun _ _ _ w => (.ok .null, w)

/-- What is defined as `c` of `a.b`, and as nothing else, is found as `b.c` of `a`. -/
theorem name_taken_for_owner :
    let made := defining ClassTable.initial {} [.function (giveNull "a.b" "c"), .static ⟨"a.b", "c", .object⟩ .null]
    (made.now.1.resolveFunction "a" "b.c" = some 0 ∧
      lastOf NativeFunction.key "a" "b.c" (functionsIn made.past) = none) ∧
    (made.now.1.resolveStatic "a" "b.c" = some (0, .object) ∧
      lastOf StaticField.key "a" "b.c" (staticsIn made.past) = none) := by
  decide

end Environment

end SlotCode
