/-
  SlotCode.Proofs.FieldLayout — a field has one place in all instances of a class.

  Code that reads a field of an object knows the class that the object is at least of, and
  takes the place of the field from the layout of that class. The object may be of any
  class below. Its layout begins with that of the class above, so the place holds the same
  field there. `Laid` says what the layout of a class is without the walk along its lineage.

  Places come from two walks along a lineage: one lays out an instance, the other counts
  fields until the last one of a name. That they agree is a fact about both.

  Proved: the layout that is computed is that one (`Founded.layout_laid`), it is a prefix of
  the layouts below (`Laid.begins`) and has the fields of all classes above (`Laid.mem_iff`),
  the walk that counts ends at the last field of the name in the layout (`resolveField_eq`),
  and for every environment that grew by definitions `field_keeps_place`.
-/

import SlotCode.Proofs.Lineage
import SlotCode.Proofs.NameResolution

namespace SlotCode

/-! ## The last of its name -/

section

variable {α : Type} {p : α → Bool} {xs : List α} {i : Nat}

theorem newest?_eq_none : newest? p xs = none ↔ ∀ x ∈ xs, p x = false := by
  induction xs with
  | nil => simp [newest?]
  | cons x xs ih =>
    rw [newest?, List.forall_mem_cons]
    cases hrest : newest? p xs with
    | none =>
      cases hx : p x with
      | false => simpa [hx] using ih.1 hrest
      | true => simp
    | some i =>
      rw [hrest] at ih
      simp [← ih]

/-- What is found passes, and nothing after it does. -/
theorem newest?_last (h : newest? p xs = some i) :
    ∃ x, xs[i]? = some x ∧ p x = true ∧ ∀ j, i < j → ∀ y, xs[j]? = some y → p y = false := by
  induction xs generalizing i with
  | nil => cases h
  | cons x xs ih =>
    rw [newest?] at h
    cases hrest : newest? p xs with
    | some k =>
      rw [hrest] at h
      cases h
      obtain ⟨y, hy, hpass, hlast⟩ := ih hrest
      refine ⟨y, hy, hpass, fun j hj z hz => ?_⟩
      obtain ⟨j, rfl⟩ : ∃ n, j = n + 1 := ⟨j - 1, by omega⟩
      exact hlast j (by omega) z hz
    | none =>
      rw [hrest] at h
      cases hx : p x with
      | false => simp [hx] at h
      | true =>
        simp only [hx, if_true, Option.some.injEq] at h
        subst h
        refine ⟨x, rfl, hx, fun j hj z hz => ?_⟩
        obtain ⟨j, rfl⟩ : ∃ n, j = n + 1 := ⟨j - 1, by omega⟩
        exact newest?_eq_none.1 hrest z (List.mem_of_getElem? hz)

end

namespace ClassTable

/-- The fields of a class: those of its superclass first, then its own. -/
inductive Laid (t : ClassTable) : ClassId → List (String × ValueType) → Prop
  | root {id : ClassId} {c : ClassInfo} : t[id]? = some c → c.superclass = none → t.Laid id c.fields
  | under {id s : ClassId} {c : ClassInfo} {above : List (String × ValueType)} : t[id]? = some c → c.superclass = some s →
      t.Laid s above → t.Laid id (above ++ c.fields)

variable {t : ClassTable} {c : ClassInfo} {id s ancestor i : Nat} {fields above : List (String × ValueType)}

theorem mapM_classInfo (hc : t[id]? = some c) : [id].mapM t.classInfo = .ok [c] := by
  rw [List.mapM_cons, List.mapM_nil, classInfo_of_some hc]
  rfl

theorem layout_of_lineage {ids : List ClassId} (h : t.lineage id = .ok ids) :
    t.layout id = (ids.reverse.mapM t.classInfo).map fun classes => classes.flatMap (·.fields) := by
  rw [layout, h]
  show ids.reverse.mapM t.classInfo >>= _ = _
  cases ids.reverse.mapM t.classInfo <;> rfl

theorem layout_root (hc : t[id]? = some c) (hs : c.superclass = none) : t.layout id = .ok c.fields := by
  rw [layout_of_lineage (lineage_root hc hs), List.reverse_singleton, mapM_classInfo hc]
  exact congrArg Except.ok (List.flatMap_singleton _ c)

theorem layout_under {ids : List ClassId} (hc : t[id]? = some c) (hs : c.superclass = some s) (hids : t.lineage s = .ok ids)
    (habove : t.layout s = .ok above) : t.layout id = .ok (above ++ c.fields) := by
  rw [layout_of_lineage hids] at habove
  rw [layout_of_lineage (lineage_under hc hs hids), List.reverse_cons, List.mapM_append, mapM_classInfo hc]
  cases hup : ids.reverse.mapM t.classInfo with
  | error what =>
    rw [hup] at habove
    cases habove
  | ok classes =>
    rw [hup] at habove
    cases habove
    show Except.ok ((classes ++ [c]).flatMap (·.fields)) = _
    rw [List.flatMap_append, List.flatMap_singleton]

/-- A class has a layout, and it is laid out so. -/
theorem Founded.layout_laid (h : t.Founded) (hid : id < t.size) : ∃ fields, t.layout id = .ok fields ∧ t.Laid id fields := by
  have hboth : (∃ ids, t.lineage id = .ok ids) ∧ ∃ fields, t.layout id = .ok fields ∧ t.Laid id fields := by
    refine h.induct (P := fun id => (∃ ids, t.lineage id = .ok ids) ∧ ∃ fields, t.layout id = .ok fields ∧ t.Laid id fields)
      (fun id c hc ih => ?_) hid
    cases hs : c.superclass with
    | none => exact ⟨⟨_, lineage_root hc hs⟩, _, layout_root hc hs, .root hc hs⟩
    | some s =>
      obtain ⟨⟨ids, hids⟩, above, hlayout, hlaid⟩ := ih s hs
      exact ⟨⟨_, lineage_under hc hs hids⟩, _, layout_under hc hs hids hlayout, .under hc hs hlaid⟩
  exact hboth.2

namespace Laid

theorem unique (h : t.Laid id fields) {fields' : List (String × ValueType)} (h' : t.Laid id fields') : fields' = fields := by
  induction h generalizing fields' with
  | root hc hs =>
    cases h' with
    | root hc' hs' => cases hc.symm.trans hc'; rfl
    | under hc' hs' _ => cases hc.symm.trans hc'; cases hs.symm.trans hs'
  | under hc hs _ ih =>
    cases h' with
    | root hc' hs' => cases hc.symm.trans hc'; cases hs.symm.trans hs'
    | under hc' hs' habove =>
      cases hc.symm.trans hc'
      cases hs.symm.trans hs'
      rw [ih habove]

/-- A layout begins with the layouts of the classes above. -/
theorem begins (h : t.Laid id fields) (hinherits : t.Inherits id ancestor) (habove : t.Laid ancestor above) :
    above <+: fields := by
  induction hinherits generalizing fields with
  | self => exact h.unique habove ▸ List.prefix_refl _
  | step hc hs _ ih =>
    cases h with
    | root hc' hs' => cases hc.symm.trans hc'; cases hs.symm.trans hs'
    | under hc' hs' hup =>
      cases hc.symm.trans hc'
      cases hs.symm.trans hs'
      exact (ih hup habove).trans (List.prefix_append _ _)

/-- A layout has the fields that the class and those above declare, and no other. -/
theorem mem_iff (h : t.Laid id fields) {field : String × ValueType} :
    field ∈ fields ↔ ∃ a c, t.Inherits id a ∧ t[a]? = some c ∧ field ∈ c.fields := by
  induction h with
  | @root id c hc hs =>
    constructor
    · exact fun hmem => ⟨id, c, .self (Array.getElem?_eq_some_iff.1 hc).1, hc, hmem⟩
    · rintro ⟨a, c', hinherits, hc', hmem⟩
      cases hinherits with
      | self => cases hc.symm.trans hc'; exact hmem
      | step hc'' hs' _ => cases hc.symm.trans hc''; cases hs.symm.trans hs'
  | @under id s c above hc hs _ ih =>
    rw [List.mem_append, ih]
    constructor
    · rintro (⟨a, c', hup, hc', hmem⟩ | hmem)
      · exact ⟨a, c', .step hc hs hup, hc', hmem⟩
      · exact ⟨id, c, .self (Array.getElem?_eq_some_iff.1 hc).1, hc, hmem⟩
    · rintro ⟨a, c', hinherits, hc', hmem⟩
      cases hinherits with
      | self => cases hc.symm.trans hc'; exact .inr hmem
      | step hc'' hs' hup =>
        cases hc.symm.trans hc''
        cases hs.symm.trans hs'
        exact .inl ⟨a, c', hup, hc', hmem⟩

end Laid

/-! ## Finding a field -/

variable {name : String} {type : ValueType}

/-- The position and type of a field: of several of one name, the last. -/
def lastField (fields : List (String × ValueType)) (name : String) : Option (Nat × ValueType) :=
  (newest? (·.1 == name) fields).bind fun i => fields[i]?.map fun field => (i, field.2)

theorem lastField_eq_none : lastField fields name = none ↔ ∀ field ∈ fields, field.1 ≠ name := by
  unfold lastField
  cases hfound : newest? (fun field => field.1 == name) fields with
  | none => simpa using newest?_eq_none.1 hfound
  | some i =>
    obtain ⟨field, hfield, hname, -⟩ := newest?_last hfound
    simp only [Option.bind_some, hfield, Option.map_some, reduceCtorEq, false_iff]
    exact fun hnone => hnone field (List.mem_of_getElem? hfield) (beq_iff_eq.1 hname)

/-- The field that is found has the name, and no later one does. -/
theorem lastField_eq_some (h : lastField fields name = some (i, type)) :
    fields[i]? = some (name, type) ∧ ∀ j, i < j → ∀ type', fields[j]? ≠ some (name, type') := by
  obtain ⟨k, hfound, hk⟩ := Option.bind_eq_some_iff.1 h
  obtain ⟨field, hfield, hname, hlast⟩ := newest?_last hfound
  rw [hfield] at hk
  cases hk
  refine ⟨by rw [hfield, ← beq_iff_eq.1 hname], fun j hj type' hother => ?_⟩
  simpa using hlast j hj _ hother

theorem lastField_snoc (fields : List (String × ValueType)) (field : String × ValueType) (name : String) :
    lastField (fields ++ [field]) name =
      if field.1 == name then some (fields.length, field.2) else lastField fields name := by
  unfold lastField
  rw [newest?_snoc]
  split
  · simp
  · cases hfound : newest? (fun field => field.1 == name) fields with
    | none => rfl
    | some i =>
      obtain ⟨found, hi, -⟩ := newest?_last hfound
      rw [Option.bind_some, Option.bind_some, List.getElem?_append_left (List.getElem?_eq_some_iff.1 hi).1]

/-- A walk along fields counts them and ends with the last one of the name. -/
theorem foldl_pass (name : String) (fields : List (String × ValueType)) :
    fields.foldl (Sighting.pass name) {} = ⟨fields.length, lastField fields name⟩ := by
  induction fields using List.reverseRecOn with
  | nil => rfl
  | append_singleton fields field ih =>
    rw [List.foldl_append, ih, lastField_snoc, List.length_append]
    rfl

/-- Walking along the fields class by class is walking along the fields of all the classes. -/
theorem foldlM_fields (name : String) (ids : List ClassId) (seen : Sighting) :
    ids.foldlM (fun seen id => return (← t.classInfo id).fields.foldl (Sighting.pass name) seen) seen =
      (ids.mapM t.classInfo).map fun classes => (classes.flatMap (·.fields)).foldl (Sighting.pass name) seen := by
  induction ids generalizing seen with
  | nil => rfl
  | cons id ids ih =>
    rw [List.foldlM_cons, List.mapM_cons]
    cases t.classInfo id with
    | error what => rfl
    | ok c =>
      refine (ih _).trans ?_
      show _ = Except.map _ (ids.mapM t.classInfo >>= fun classes => pure (c :: classes))
      cases ids.mapM t.classInfo with
      | error what => rfl
      | ok classes =>
        show _ = Except.ok (((c :: classes).flatMap (·.fields)).foldl (Sighting.pass name) seen)
        rw [List.flatMap_cons, List.foldl_append]
        rfl

/-- The two walks along a lineage agree: the place of a field that is looked up is its last place in the layout. -/
theorem resolveField_eq (t : ClassTable) (owner name : String) : t.resolveField owner name =
    match t.find? owner with
    | none => .ok none
    | some id => (t.layout id).map fun fields => lastField fields name := by
  unfold resolveField
  cases t.find? owner with
  | none => rfl
  | some id =>
    dsimp only
    cases hids : t.lineage id with
    | error what =>
      rw [layout, hids]
      rfl
    | ok ids =>
      rw [layout_of_lineage hids]
      show ((ids.reverse.foldlM _ ({} : Sighting) : Except Missing Sighting) >>= _) = _
      rw [foldlM_fields]
      cases ids.reverse.mapM t.classInfo with
      | error what => rfl
      | ok classes => exact congrArg (fun s : Sighting => Except.ok s.found) (foldl_pass name _)

/-- A new instance has a zero of its own kind in the place of each field. -/
theorem instantiate_eq (h : t.layout id = .ok fields) :
    t.instantiate id = .ok (.record id (fields.map fun field => Value.zero (field.2.kind?.getD .object)).toArray) := by
  rw [instantiate, h]
  rfl

end ClassTable

/-- A field that is found for a class keeps its place in all classes below. In every environment that grew by definitions,
    and for the class `owner` last defined under a name: looking a field up gives an answer. It is none exactly when neither
    the class nor a class above declares the field. Otherwise it is the place and type of the last declaration in the layout
    of the class, which has the fields of the superclass first; that layout is a prefix of the layout of every class below,
    and a new instance of such a class has a zero of the field's kind in this place, null if the type has no kind. -/
theorem Environment.field_keeps_place (env : Environment) (ids : List ClassId) (h : env.Defined ids) (owner name : String)
    (B : ClassId) (hB : env.classes.find? owner = some B) :
    ∃ answer layout, env.classes.resolveField owner name = .ok answer ∧ env.classes.layout B = .ok layout ∧
      env.classes.Laid B layout ∧
      (answer = none ↔ ∀ A c, env.classes.isSubclass B A = .ok true → env.classes[A]? = some c →
        ∀ field ∈ c.fields, field.1 ≠ name) ∧
      ∀ i type, answer = some (i, type) →
        (layout[i]? = some (name, type) ∧ ∀ j, i < j → ∀ type', layout[j]? ≠ some (name, type')) ∧
        ∀ D, env.classes.isSubclass D B = .ok true → ∃ below fields, env.classes.layout D = .ok below ∧ layout <+: below ∧
          env.classes.instantiate D = .ok (.record D fields) ∧ i < fields.size ∧
          fields[i]? = some (.zero (type.kind?.getD .object)) := by
  have hfounded := h.founded
  have hlt := ClassTable.lt_of_find? hB
  obtain ⟨layout, hlayout, hlaid⟩ := hfounded.layout_laid hlt
  have hresolve : env.classes.resolveField owner name = .ok (ClassTable.lastField layout name) := by
    rw [ClassTable.resolveField_eq, hB]
    simp only [hlayout]
    rfl
  refine ⟨_, layout, hresolve, hlayout, hlaid, ?_, fun i type hfound => ?_⟩
  · rw [ClassTable.lastField_eq_none]
    constructor
    · intro hnone A c hsub hc field hfield
      have hA := (Array.getElem?_eq_some_iff.1 hc).1
      exact hnone field (hlaid.mem_iff.2 ⟨A, c, (hfounded.isSubclass_iff hA).1 hsub, hc, hfield⟩)
    · intro hnone field hfield
      obtain ⟨A, c, hinherits, hc, hmem⟩ := hlaid.mem_iff.1 hfield
      have hA := (Array.getElem?_eq_some_iff.1 hc).1
      exact hnone A c ((hfounded.isSubclass_iff hA).2 hinherits) hc field hmem
  · obtain ⟨hplace, hlast⟩ := ClassTable.lastField_eq_some hfound
    refine ⟨⟨hplace, hlast⟩, fun D hsub => ?_⟩
    have hinherits := (hfounded.isSubclass_iff hlt).1 hsub
    obtain ⟨below, hbelow, hlaidBelow⟩ := hfounded.layout_laid hinherits.lt_size
    have hbegins := hlaidBelow.begins hinherits hlaid
    have hsame : below[i]? = some (name, type) := by
      obtain ⟨rest, rfl⟩ := hbegins
      rw [List.getElem?_append_left (List.getElem?_eq_some_iff.1 hplace).1, hplace]
    refine ⟨below, _, hbelow, hbegins, ClassTable.instantiate_eq hbelow, ?_, ?_⟩
    · simpa using (List.getElem?_eq_some_iff.1 hsame).1
    · simp [hsame]

/-- Redefines a name, declares a field twice and once more below, there without a kind. -/
def shapes : Environment :=
  let env : Environment := {}
  let (point, env) := env.defineClass ⟨"Point", some ClassTable.objectClass, [("x", .int), ("x", .long)]⟩
  let (pixel, env) := env.defineClass ⟨"Pixel", some point, [("x", .void)]⟩
  (env.defineClass ⟨"Point", some pixel, [("y", .float)]⟩).2

theorem shapes_keep_place : shapes.Defined [4, 3, 2, 1, 0] ∧ shapes.classes.find? "Pixel" = some 3 ∧
    shapes.classes.resolveField "Pixel" "x" = .ok (some (2, .void)) ∧ shapes.classes.isSubclass 4 3 = .ok true ∧
    ∃ fields, shapes.classes.instantiate 4 = .ok (.record 4 fields) ∧ 2 < fields.size ∧ fields[2]? = some .null := by
  have hdefined : shapes.Defined [4, 3, 2, 1, 0] := by
    refine .define (.define (.define .new ?_) ?_) ?_ <;> intro s hs <;> cases hs <;> decide
  have hfind : shapes.classes.find? "Pixel" = some 3 := rfl
  have hresolve : shapes.classes.resolveField "Pixel" "x" = .ok (some (2, .void)) := rfl
  have hsub : shapes.classes.isSubclass 4 3 = .ok true := rfl
  obtain ⟨answer, layout, hanswer, -, -, -, hplaces⟩ := shapes.field_keeps_place _ hdefined "Pixel" "x" 3 hfind
  cases hresolve.symm.trans hanswer
  obtain ⟨-, hbelow⟩ := hplaces 2 .void rfl
  obtain ⟨-, fields, -, -, hinstance, hsize, hzero⟩ := hbelow 4 hsub
  exact ⟨hdefined, hfind, hresolve, hsub, fields, hinstance, hsize, hzero⟩

end SlotCode
