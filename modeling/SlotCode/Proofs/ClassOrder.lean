/-
  SlotCode.Proofs.ClassOrder — classes are ordered by inheritance, and later classes leave the order alone.

  Whether a class inherits from another is found by going from superclass to superclass
  until the other class or a class without superclass is met. Nothing keeps this search
  from going in circles but the way in which classes come about: a superclass has a number
  already when a class names it.

  Proved: inheritance is transitive
  (`Inherits.trans`), never goes to a larger number (`Inherits.le`) and never branches
  (`Inherits.chain`), a table that only grows keeps its answers (`Founded.isSubclass_grown`),
  and for every environment that grew by definitions `subclasses_are_ordered`.
-/

import SlotCode.Proofs.Lineage
import SlotCode.Proofs.MachineSteps

namespace SlotCode

namespace ClassTable

variable {t grown : ClassTable} {c : ClassInfo} {id a b d ancestor : Nat}

/-! ## The order -/

namespace Inherits

theorem trans (h : t.Inherits a b) (h' : t.Inherits b d) : t.Inherits a d := by
  induction h with
  | self _ => exact h'
  | step hc hs _ ih => exact .step hc hs (ih h')

theorem le (hfounded : t.Founded) (h : t.Inherits id ancestor) : ancestor ≤ id := by
  induction h with
  | self _ => exact Nat.le_refl _
  | step hc hs _ ih =>
    have hlt := hfounded _ _ hc _ hs
    exact Nat.le_trans ih (Nat.le_of_lt hlt)

/-- Of two ancestors of a class, one inherits from the other. -/
theorem chain (h : t.Inherits a b) (h' : t.Inherits a d) : t.Inherits b d ∨ t.Inherits d b := by
  induction h with
  | self _ => exact .inl h'
  | step hc hs hup ih =>
    cases h' with
    | self _ => exact .inr (.step hc hs hup)
    | step hc' hs' hup' =>
      cases hc.symm.trans hc'
      cases hs.symm.trans hs'
      exact ih hup'

end Inherits

namespace Founded

theorem isSubclass_trans (h : t.Founded) (hab : t.isSubclass a b = .ok true) (hbd : t.isSubclass b d = .ok true) :
    t.isSubclass a d = .ok true := by
  rcases h.isSubclass_eq_true_iff.1 hab with hab | ⟨rfl, -⟩
  · rcases h.isSubclass_eq_true_iff.1 hbd with hbd | ⟨rfl, -⟩
    · exact h.isSubclass_eq_true_iff.2 (.inl (hab.trans hbd))
    · exact h.isSubclass_eq_true_iff.2 (.inl hab)
  · exact hbd

/-- An ancestor has no larger number. -/
theorem le_of_isSubclass (h : t.Founded) (hab : t.isSubclass a b = .ok true) : b ≤ a := by
  rcases h.isSubclass_eq_true_iff.1 hab with hab | ⟨rfl, -⟩
  · exact hab.le h
  · exact Nat.le_refl _

theorem isSubclass_chain (h : t.Founded) (hab : t.isSubclass a b = .ok true) (had : t.isSubclass a d = .ok true) :
    t.isSubclass b d = .ok true ∨ t.isSubclass d b = .ok true := by
  rcases h.isSubclass_eq_true_iff.1 hab with hinherits | ⟨rfl, -⟩
  · rcases h.isSubclass_eq_true_iff.1 had with hinherits' | ⟨rfl, -⟩
    · rcases hinherits.chain hinherits' with hup | hup
      · exact .inl (h.isSubclass_eq_true_iff.2 (.inl hup))
      · exact .inr (h.isSubclass_eq_true_iff.2 (.inl hup))
    · exact .inr hab
  · exact .inl had

/-! ## Later classes -/

/-- The search from a class stays among the classes before it. -/
theorem searchUpTo_grown (h : t.Founded) (hgrown : ∀ i < t.size, grown[i]? = t[i]?) (n : Nat) {place : Option ClassId}
    (hplace : ∀ id : Nat, place = some id → id < t.size) :
    grown.searchUpTo ancestor n place = t.searchUpTo ancestor n place := by
  induction n generalizing place with
  | zero => cases place <;> rfl
  | succ n ih =>
    cases place with
    | none => rfl
    | some id =>
      have hid := hplace id rfl
      have hc : t[id]? = some t[id] := Array.getElem?_eq_getElem hid
      rw [searchUpTo, searchUpTo, classInfo_of_some hc, classInfo_of_some ((hgrown id hid).trans hc)]
      split
      · rfl
      · refine ih fun s hs => ?_
        have hlt := h id _ hc s hs
        exact Nat.lt_trans hlt hid

/-- A table that only grows answers as before for the classes it had, whatever is added. -/
theorem isSubclass_grown (h : t.Founded) (hgrown : ∀ i < t.size, grown[i]? = t[i]?) (hsize : t.size ≤ grown.size)
    (hid : id < t.size) (ancestor : ClassId) : grown.isSubclass id ancestor = t.isSubclass id ancestor := by
  obtain ⟨answer, hsearch, -⟩ := h.search ancestor hid
  rw [h.isSubclass_eq_ok.2 hsearch, isSubclass, h.searchUpTo_grown hgrown]
  · refine h.searchUpTo_of_search hsearch ?_
    rintro _ ⟨⟩
    omega
  · rintro _ ⟨⟩
    exact hid

end Founded

/-! ## Instances -/

/-- An array is an instance of the root only, and the root has no class above it. -/
theorem Founded.isInstance_mono (h : t.Founded) (hroot : t[objectClass]? = some c) (htop : c.superclass = none) {o : Object}
    (ho : t.isInstance o a = .ok true) (hab : t.isSubclass a b = .ok true) : t.isInstance o b = .ok true := by
  cases o with
  | text s => exact h.isSubclass_trans ho hab
  | record classId fields => exact h.isSubclass_trans ho hab
  | array elements =>
    have ha : a = objectClass := by simpa [isInstance] using ho
    subst ha
    have hb : b = objectClass := by
      cases h.isSubclass_eq_ok.1 hab with
      | found => rfl
      | up _ hc hup =>
        cases hroot.symm.trans hc
        rw [htop] at hup
        cases hup
    simp [isInstance, hb]

end ClassTable

/-! ## Growing environments -/

namespace Environment

/-- More classes, one after the other. -/
def defineClasses (env : Environment) (later : List ClassInfo) : Environment :=
  later.foldl (fun env c => (env.defineClass c).2) env

theorem classes_defineClasses (env : Environment) (later : List ClassInfo) :
    (env.defineClasses later).classes = env.classes ++ later.toArray := by
  induction later generalizing env with
  | nil => simp [defineClasses]
  | cons c later ih =>
    have hnext : env.defineClasses (c :: later) = (env.defineClass c).2.defineClasses later := rfl
    rw [hnext, ih]
    simp [defineClass]

namespace Defined

variable {env : Environment} {ids : List ClassId}

/-- The first class stays the root. -/
theorem root (h : env.Defined ids) : ∃ c, env.classes[ClassTable.objectClass]? = some c ∧ c.superclass = none := by
  induction h with
  | new => exact ⟨_, rfl, rfl⟩
  | @define env ids c _ _ ih =>
    obtain ⟨root, hroot, htop⟩ := ih
    refine ⟨root, ?_, htop⟩
    have hlt := (Array.getElem?_eq_some_iff.1 hroot).1
    have hpush : (env.classes.push c)[ClassTable.objectClass]? = some root := by
      rw [Array.getElem?_push, if_neg (Nat.ne_of_lt hlt), hroot]
    exact hpush
  | other _ hclasses ih =>
    rw [hclasses]
    exact ih

theorem isSubclass_later (h : env.Defined ids) (later : List ClassInfo) {a : ClassId} (ha : a ∈ ids) (b : ClassId) :
    (env.defineClasses later).classes.isSubclass a b = env.classes.isSubclass a b := by
  rw [classes_defineClasses]
  refine h.founded.isSubclass_grown ?_ ?_ (h.lt_size a ha) b
  · intro i hi
    exact Array.getElem?_append_left hi
  · simp

end Defined

end Environment

/-! ## Checks of a class -/

namespace Image

variable {im : Image} {m : Machine} {r a : Slot} {target : ClassId} {v : Option Ref}

/-- A cast goes on exactly when there is no object, or one of the class. -/
theorem step_cast (hcode : im.program.code[m.pc]? = some (.cast r a target)) (hv : m.registers.ref a = .ok v)
    (hr : m.registers.has ⟨.object, r⟩ = true) : (∃ m', im.step m = .ok m') ↔
      ∀ o, v = some o → im.env.classes.isInstance (m.world.heap.get o) target = .ok true := by
  cases v with
  | none =>
    have heffect : im.effect m (.cast r a target) = .ok (.write ⟨.object, r⟩ .null) := by
      simp only [effect, hv]
      rfl
    simp [step_eq, hcode, heffect, commit, Machine.write, Registers.set, Value.kind, Value.null, hr]
  | some o =>
    cases hinstance : im.env.classes.isInstance (m.world.heap.get o) target with
    | error what =>
      have heffect : im.effect m (.cast r a target) = .error (.missing what) := by
        simp only [effect, hv, Fault.lift_ok, pure_bind, hinstance]
        rfl
      simp [step_eq, hcode, heffect, hinstance]
    | ok fits =>
      cases fits with
      | true =>
        have heffect : im.effect m (.cast r a target) = .ok (.write ⟨.object, r⟩ (.ref (some o))) := by
          simp only [effect, hv, Fault.lift_ok, pure_bind, hinstance]
          rfl
        simp [step_eq, hcode, heffect, commit, Machine.write, Registers.set, Value.kind, hr, hinstance]
      | false =>
        obtain ⟨e, heffect⟩ : ∃ e, im.effect m (.cast r a target) = .error e := by
          simp only [effect, hv, Fault.lift_ok, pure_bind, hinstance]
          cases im.env.classes.classInfo target with
          | error what => exact ⟨_, rfl⟩
          | ok c => exact ⟨_, rfl⟩
        simp [step_eq, hcode, heffect, hinstance]

/-- A test of the class gives one exactly when there is an object of the class. -/
theorem step_instanceOf (hcode : im.program.code[m.pc]? = some (.instanceOf r a target)) (hv : m.registers.ref a = .ok v)
    (hr : m.registers.has ⟨.int, r⟩ = true) :
    (∃ m', im.step m = .ok m' ∧ m'.registers.get? ⟨.int, r⟩ = some (.int 1)) ↔
      ∃ o, v = some o ∧ im.env.classes.isInstance (m.world.heap.get o) target = .ok true := by
  -- Either way a truth value is written, and it reads one exactly when it is true.
  have written : ∀ answer, im.effect m (.instanceOf r a target) = .ok (.write ⟨.int, r⟩ (.ofBool answer)) →
      ((∃ m', im.step m = .ok m' ∧ m'.registers.get? ⟨.int, r⟩ = some (.int 1)) ↔ answer = true) := by
    intro answer heffect
    have hget : (m.registers.put r (.ofBool answer)).get? ⟨.int, r⟩ = some (.ofBool answer) := Registers.get?_put_self hr
    have hkind : (Value.ofBool answer).kind = .int := rfl
    have hone : Value.ofBool answer = .int 1 ↔ answer = true := by cases answer <;> simp [Value.ofBool]
    simp [step_eq, hcode, heffect, commit, Machine.write, Registers.set, hkind, hr, Machine.next, hget, hone]
  cases v with
  | none =>
    have heffect : im.effect m (.instanceOf r a target) = .ok (.write ⟨.int, r⟩ (.ofBool false)) := by
      simp only [effect, hv]
      rfl
    rw [written false heffect]
    simp
  | some o =>
    cases hinstance : im.env.classes.isInstance (m.world.heap.get o) target with
    | error what =>
      have heffect : im.effect m (.instanceOf r a target) = .error (.missing what) := by
        simp only [effect, hv, Fault.lift_ok, pure_bind, hinstance]
        rfl
      simp [step_eq, hcode, heffect, hinstance]
    | ok answer =>
      have heffect : im.effect m (.instanceOf r a target) = .ok (.write ⟨.int, r⟩ (.ofBool answer)) := by
        simp only [effect, hv, Fault.lift_ok, pure_bind, hinstance]
        rfl
      rw [written answer heffect]
      simp [hinstance]

end Image

/-- The classes of an environment that grew by definitions are ordered. Going from ancestor to ancestor comes to an end; the
    search from any class ends, with the answer of `isSubclass`, which is reflexive, transitive and antisymmetric; the
    ancestors of a class form a chain. Classes defined later, whatever their names and superclasses, change no answer for
    the classes before them. An instance of a class is an instance of all classes above it, and a cast succeeds exactly on
    null and on the objects for which a test of the same class gives one. -/
theorem Environment.subclasses_are_ordered (env : Environment) (ids : List ClassId) (h : env.Defined ids) :
    WellFounded (fun b a => b ≠ a ∧ env.classes.isSubclass a b = .ok true) ∧
    (∀ a ∈ ids, ∀ b, ∃ answer, env.classes.isSubclass a b = .ok answer ∧ env.classes.Search b (some a) answer) ∧
    (∀ a ∈ ids, env.classes.isSubclass a a = .ok true) ∧
    (∀ a b c, env.classes.isSubclass a b = .ok true → env.classes.isSubclass b c = .ok true →
      env.classes.isSubclass a c = .ok true) ∧
    (∀ a b, env.classes.isSubclass a b = .ok true → env.classes.isSubclass b a = .ok true → a = b) ∧
    (∀ a b c, env.classes.isSubclass a b = .ok true → env.classes.isSubclass a c = .ok true →
      env.classes.isSubclass b c = .ok true ∨ env.classes.isSubclass c b = .ok true) ∧
    (∀ later, ∀ a ∈ ids, ∀ b, (env.defineClasses later).classes.isSubclass a b = env.classes.isSubclass a b) ∧
    (∀ o D B, env.classes.isInstance o D = .ok true → env.classes.isSubclass D B = .ok true →
      env.classes.isInstance o B = .ok true) ∧
    ∀ (im jm : Image) (m n : Machine) (r a s b : Slot) (target : ClassId) (v : Option Ref),
      im.env.classes = env.classes → jm.env.classes = env.classes → n.world.heap = m.world.heap →
      im.program.code[m.pc]? = some (.cast r a target) → jm.program.code[n.pc]? = some (.instanceOf s b target) →
      m.registers.ref a = .ok v → n.registers.ref b = .ok v →
      m.registers.has ⟨.object, r⟩ = true → n.registers.has ⟨.int, s⟩ = true →
        ((∃ m', im.step m = .ok m') ↔
          v = none ∨ ∃ n', jm.step n = .ok n' ∧ n'.registers.get? ⟨.int, s⟩ = some (.int 1)) := by
  have hfounded := h.founded
  obtain ⟨root, hroot, htop⟩ := h.root
  refine ⟨?_, ?_, ?_, ?_, ?_, ?_, ?_, ?_, ?_⟩
  · -- An ancestor has a smaller number.
    refine Subrelation.wf ?_ Nat.lt_wfRel.wf
    rintro b a ⟨hne, hsub⟩
    have hle := hfounded.le_of_isSubclass hsub
    exact Nat.lt_of_le_of_ne hle hne
  · intro a ha b
    have hlt := h.lt_size a ha
    obtain ⟨answer, hsearch, -⟩ := hfounded.search b hlt
    exact ⟨answer, hfounded.isSubclass_eq_ok.2 hsearch, hsearch⟩
  · intro a ha
    exact hfounded.isSubclass_eq_true_iff.2 (.inl (.self (h.lt_size a ha)))
  · intro a b c hab hbc
    exact hfounded.isSubclass_trans hab hbc
  · intro a b hab hba
    exact Nat.le_antisymm (hfounded.le_of_isSubclass hba) (hfounded.le_of_isSubclass hab)
  · intro a b c hab hac
    exact hfounded.isSubclass_chain hab hac
  · intro later a ha b
    exact h.isSubclass_later later ha b
  · intro o D B ho hsub
    exact hfounded.isInstance_mono hroot htop ho hsub
  · intro im jm m n r a s b target v him hjm hheap hcast htest hm hn hr hs
    rw [Image.step_cast hcast hm hr, Image.step_instanceOf htest hn hs, him, hjm, hheap]
    cases v <;> simp

/-- Cars under vehicles, and another class of the name of the first. -/
def garage : Environment :=
  let env : Environment := {}
  let (vehicle, env) := env.defineClass ⟨"Vehicle", some ClassTable.objectClass, []⟩
  let (_, env) := env.defineClass ⟨"Car", some vehicle, []⟩
  (env.defineClass ⟨"Vehicle", none, []⟩).2

/-- A car is a vehicle also after more classes, one of them its own superclass, and a car can be cast to a vehicle. -/
theorem garage_is_ordered : garage.Defined [4, 3, 2, 1, 0] ∧ garage.classes.isSubclass 3 2 = .ok true ∧
    (garage.defineClasses [⟨"Car", some 5, []⟩]).classes.isSubclass 3 2 = .ok true ∧
    garage.classes.Search 4 (some 3) false ∧ garage.classes.isInstance (.record 3 #[]) 2 = .ok true ∧
    garage.classes.isInstance (.record 3 #[]) 0 = .ok true ∧ ∃ m',
      (⟨{ code := #[.cast 0 0 2, .instanceOf 0 0 2, .stop] }, garage, #[]⟩ : Image).step
        { registers := .new ⟨1, 0, 0, 0, 1⟩, world := {} } = .ok m' := by
  have hdefined : garage.Defined [4, 3, 2, 1, 0] := by
    refine .define (.define (.define .new ?_) ?_) ?_ <;> intro s hs <;> cases hs <;> decide
  have hcar : garage.classes.isSubclass 3 2 = .ok true := rfl
  have hinstance : garage.classes.isInstance (.record 3 #[]) 2 = .ok true := rfl
  have hvehicle : garage.classes.isSubclass 2 0 = .ok true := rfl
  obtain ⟨-, hends, -, -, -, -, hlater, hmono, hcast⟩ := garage.subclasses_are_ordered _ hdefined
  refine ⟨hdefined, hcar, ?_, ?_, hinstance, hmono _ 2 0 hinstance hvehicle, ?_⟩
  · rw [hlater _ 3 (by decide) 2]
    exact hcar
  · obtain ⟨answer, hanswer, hsearch⟩ := hends 3 (by decide) 4
    have hno : garage.classes.isSubclass 3 4 = .ok false := rfl
    cases hno.symm.trans hanswer
    exact hsearch
  · have hsame := hcast ⟨{ code := #[.cast 0 0 2, .instanceOf 0 0 2, .stop] }, garage, #[]⟩
      ⟨{ code := #[.cast 0 0 2, .instanceOf 0 0 2, .stop] }, garage, #[]⟩
      { registers := .new ⟨1, 0, 0, 0, 1⟩, world := {} } { registers := .new ⟨1, 0, 0, 0, 1⟩, pc := 1, world := {} }
      0 0 0 0 2 none rfl rfl rfl rfl rfl rfl rfl rfl rfl
    exact hsame.2 (.inl rfl)

end SlotCode
