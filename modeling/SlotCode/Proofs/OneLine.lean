/-
  SlotCode.Proofs.OneLine — printed instructions do not break lines.

  A listing can only be read line by line if no instruction's own text breaks a line. The
  texts of string constants may hold line breaks, but they are printed quoted, and quoting
  writes a line break as a backslash and a letter; all else that is printed is made of
  names, digits and punctuation.

  Proved: a text put together from lines reads back as these lines (`lines_intercalate`,
  `lines_join`), and every instruction is printed on one line (`Printer.oneLine_line`).
-/

import Mathlib.Data.List.Basic
import SlotCode.Code.Listing

namespace SlotCode

namespace Text

/-- The lines of a text, which line breaks separate. -/
def lines (s : String) : List String := (s.toList.splitOn '\n').map String.ofList

/-- A text without a line break. -/
def OneLine (s : String) : Prop := '\n' ∉ s.toList

instance : DecidablePred OneLine := fun s => inferInstanceAs (Decidable ('\n' ∉ s.toList))

theorem lines_intercalate {ls : List String} (h : ∀ l ∈ ls, OneLine l) (hne : ls ≠ []) :
    lines ("\n".intercalate ls) = ls := by
  have hbreak : "\n".toList = ['\n'] := rfl
  have hfree : ∀ cs ∈ ls.map String.toList, '\n' ∉ cs := by
    intro cs hcs
    obtain ⟨l, hl, rfl⟩ := List.mem_map.1 hcs
    exact h l hl
  rw [lines, String.toList_intercalate, hbreak, List.splitOn_intercalate '\n' hfree (by simpa using hne)]
  simp

/-- Lines that are each ended by a break are followed by an empty one. -/
theorem lines_join {ls : List String} (h : ∀ l ∈ ls, OneLine l) :
    lines (String.join (ls.map (· ++ "\n"))) = ls ++ [""] := by
  have hjoin : String.join (ls.map (· ++ "\n")) = "\n".intercalate (ls ++ [""]) := by
    rw [← String.toList_inj, String.toList_join, String.toList_intercalate]
    induction ls with
    | nil => rfl
    | cons l ls ih =>
      have hrest := ih fun l' hl' => h l' (List.mem_cons_of_mem l hl')
      cases ls with
      | nil => simp [List.intercalate]
      | cons l' ls =>
        simp only [List.map_cons, List.flatMap_cons, List.cons_append] at hrest ⊢
        rw [hrest]
        simp [List.intercalate]
  rw [hjoin]
  apply lines_intercalate
  · intro l hl
    rcases List.mem_append.1 hl with hl | hl
    · exact h l hl
    · rw [List.mem_singleton.1 hl]
      decide
  · simp

@[simp]
theorem oneLine_append {s t : String} : OneLine (s ++ t) ↔ OneLine s ∧ OneLine t := by
  simp [OneLine, not_or]

@[simp]
theorem oneLine_ofList {cs : List Char} : OneLine (String.ofList cs) ↔ '\n' ∉ cs := by
  simp [OneLine]

theorem oneLine_ite {c : Prop} [Decidable c] {s t : String} (hs : OneLine s) (ht : OneLine t) :
    OneLine (if c then s else t) := by
  split_ifs
  · exact hs
  · exact ht

theorem oneLine_intercalate {s : String} {ss : List String} (hs : OneLine s) (h : ∀ t ∈ ss, OneLine t) :
    OneLine (s.intercalate ss) := by
  rw [OneLine, String.toList_intercalate]
  induction ss with
  | nil => simp [List.intercalate]
  | cons t ss ih =>
    have hrest := ih fun t' ht' => h t' (List.mem_cons_of_mem t ht')
    have ht : '\n' ∉ t.toList := h t List.mem_cons_self
    cases ss with
    | nil => simpa [List.intercalate] using ht
    | cons t' ss =>
      rw [List.map_cons, List.map_cons, List.intercalate_cons_cons]
      simp only [List.mem_append, not_or]
      exact ⟨⟨ht, hs⟩, hrest⟩

/-! ## Numbers and quoted texts -/

theorem digitChar_ne_break (d : Nat) : Nat.digitChar d ≠ '\n' := by
  by_cases hd : d < 16
  · revert d
    decide
  · have hlarge : Nat.digitChar d = '*' := by
      unfold Nat.digitChar
      repeat rw [if_neg (by omega)]
    rw [hlarge]
    decide

theorem break_notMem_toDigits {b : Nat} (hb : 1 < b) (n : Nat) : '\n' ∉ Nat.toDigits b n := by
  induction n using Nat.strongRecOn with
  | ind n ih =>
    rw [Nat.toDigits_eq_if hb]
    by_cases hn : n < b
    · rw [if_pos hn, List.mem_singleton]
      exact (digitChar_ne_break n).symm
    · have hless : n / b < n := Nat.div_lt_self (by omega) hb
      rw [if_neg hn, List.mem_append, List.mem_singleton, not_or]
      exact ⟨ih _ hless, (digitChar_ne_break _).symm⟩

@[simp]
theorem oneLine_repr (n : Nat) : OneLine n.repr := by
  rw [Nat.repr, oneLine_ofList]
  exact break_notMem_toDigits (by decide) n

@[simp]
theorem oneLine_toString (n : Int) : OneLine (toString n) := by
  cases n with
  | ofNat n => exact oneLine_repr n
  | negSucc n => exact oneLine_append.2 ⟨by decide, oneLine_repr (n + 1)⟩

theorem oneLine_layout (style : NumberStyle) (d : Arith.Decimal) : OneLine (style.layout d) := by
  have hdigits := break_notMem_toDigits (by decide : 1 < 10) d.digits
  have htake : ∀ n, '\n' ∉ (Nat.toDigits 10 d.digits).take n := fun n h => hdigits (List.mem_of_mem_take h)
  have hdrop : ∀ n, '\n' ∉ (Nat.toDigits 10 d.digits).drop n := fun n h => hdigits (List.mem_of_mem_drop h)
  have hzeros : ∀ n, '\n' ∉ List.replicate n '0' := fun n h => absurd (List.eq_of_mem_replicate h) (by decide)
  have hpoint : '\n' ≠ '.' := by decide
  have hzero : '\n' ≠ '0' := by decide
  refine oneLine_ite (oneLine_ite ?_ (oneLine_ite ?_ ?_)) ?_
  all_goals simp only [oneLine_append, oneLine_ofList, List.mem_append, List.mem_cons, not_or]
  · exact ⟨⟨hdigits, hzeros _⟩, oneLine_ite (by decide) (by decide)⟩
  · exact ⟨htake _, hpoint, hdrop _⟩
  · exact ⟨hzero, hpoint, hzeros _, hdigits⟩
  · refine ⟨⟨⟨htake 1, ?_⟩, by decide⟩, oneLine_toString _⟩
    split_ifs
    · exact List.not_mem_nil
    · exact List.not_mem_cons_of_ne_of_not_mem hpoint (hdrop 1)

theorem oneLine_render (style : NumberStyle) (f : Arith.Format) (d : Arith.Datum) : OneLine (style.render f d) := by
  have hsign : ∀ negative : Bool, OneLine (if negative then "-" else "") := fun _ => oneLine_ite (by decide) (by decide)
  cases d with
  | nan => exact (by decide : OneLine "NaN")
  | infinite negative => exact oneLine_append.2 ⟨hsign negative, by decide⟩
  | finite negative m q => exact oneLine_append.2 ⟨hsign negative, oneLine_layout style _⟩

theorem break_notMem_escape (c : Char) : '\n' ∉ escape c := by
  have hdigits := break_notMem_toDigits (by decide : 1 < 16) c.toNat
  unfold escape
  split
  case h_7 hbreak _ _ =>
    split_ifs
    · simp only [List.mem_append, List.mem_cons, not_or]
      exact ⟨⟨by decide, hdigits⟩, by decide, List.not_mem_nil⟩
    · rw [List.mem_singleton]
      exact fun h => hbreak h.symm
  all_goals decide

/-- However a text breaks lines, its quoted form does not. -/
theorem oneLine_quoted (s : String) : OneLine (quoted s) := by
  simp only [quoted, oneLine_append, oneLine_ofList, List.mem_flatMap, not_exists, not_and]
  exact ⟨⟨by decide, fun c _ => break_notMem_escape c⟩, by decide⟩

end Text

namespace Printer

open Text

theorem oneLine_letter (kind : Kind) : OneLine kind.letter.toString := by
  cases kind <;> decide

theorem oneLine_text (s : TypedSlot) : OneLine s.text := oneLine_append.2 ⟨oneLine_letter s.kind, oneLine_repr s.slot⟩

theorem oneLine_target (p : Printer) (l : Label) : OneLine (p.target l) := by
  have hnumber : ∀ n : Nat, OneLine ("L" ++ n.repr) ∧ OneLine ("@" ++ n.repr) := fun n =>
    ⟨oneLine_append.2 ⟨by decide, oneLine_repr n⟩, oneLine_append.2 ⟨by decide, oneLine_repr n⟩⟩
  cases l with
  | pending => exact (by decide : OneLine "@?")
  | address n =>
    unfold target
    dsimp only
    split
    · exact (hnumber _).1
    · exact (hnumber n).2

theorem oneLine_operation {name : String} {operands : List String} (hname : OneLine name)
    (h : ∀ s ∈ operands, OneLine s) : OneLine (operation name operands) := by
  refine oneLine_ite hname ?_
  simp only [oneLine_append]
  exact ⟨⟨hname, by decide⟩, oneLine_intercalate (by decide) h⟩

theorem oneLine_assign {kind : Kind} {r : Slot} {value : String} (h : OneLine value) : OneLine (assign kind r value) := by
  simp only [assign, oneLine_append]
  exact ⟨⟨oneLine_text _, by decide⟩, h⟩

theorem oneLine_onKind {kind : Kind} {name : String} {operands : List TypedSlot} (hname : OneLine name) :
    OneLine (onKind kind name operands) := by
  apply oneLine_operation
  · exact oneLine_append.2 ⟨oneLine_letter kind, hname⟩
  · intro s hs
    obtain ⟨operand, -, rfl⟩ := List.mem_map.1 hs
    exact oneLine_text operand

theorem oneLine_scalar (v : Arith.Scalar) : OneLine (scalar v) := by
  cases v with
  | int v => exact oneLine_append.2 ⟨by decide, oneLine_toString _⟩
  | long v => exact oneLine_append.2 ⟨by decide, oneLine_toString _⟩
  | float v => exact oneLine_append.2 ⟨by decide, oneLine_render _ _ _⟩
  | double v => exact oneLine_append.2 ⟨by decide, oneLine_render _ _ _⟩

theorem oneLine_call (p : Printer) (site : Nat) : OneLine (p.call site) := by
  unfold call
  cases p.sites[site]? with
  | none => exact oneLine_append.2 ⟨by decide, oneLine_repr site⟩
  | some s =>
    have htext : OneLine ("call #" ++ s.function.repr ++ "(" ++
        ", ".intercalate (((s.receiver.map (TypedSlot.mk .object)).toList ++ s.args).map TypedSlot.text) ++ ")") := by
      simp only [oneLine_append]
      refine ⟨⟨⟨⟨by decide, oneLine_repr _⟩, by decide⟩, oneLine_intercalate (by decide) ?_⟩, by decide⟩
      intro t ht
      obtain ⟨operand, -, rfl⟩ := List.mem_map.1 ht
      exact oneLine_text operand
    dsimp only
    cases s.result with
    | none => exact htext
    | some r => exact oneLine_assign htext

/-- Every instruction is printed on one line. -/
theorem oneLine_line (p : Printer) (i : Instruction) : OneLine (p.line i) := by
  have hnumber : ∀ (mark : String) (n : Nat), OneLine mark → OneLine (mark ++ n.repr) := fun _ n hmark =>
    oneLine_append.2 ⟨hmark, oneLine_repr n⟩
  have hone : ∀ {name : String} {s : String}, OneLine name → OneLine s → OneLine (operation name [s]) := fun hname hs =>
    oneLine_operation hname (List.forall_mem_singleton.2 hs)
  have htwo : ∀ {name : String} {s t : String}, OneLine name → OneLine s → OneLine t →
      OneLine (operation name [s, t]) := fun hname hs ht =>
    oneLine_operation hname (List.forall_mem_cons.2 ⟨hs, List.forall_mem_singleton.2 ht⟩)
  cases i with
  | const r value => exact oneLine_assign (oneLine_scalar value)
  | text r index =>
    refine oneLine_assign (oneLine_append.2 ⟨by decide, ?_⟩)
    cases p.texts[index]? with
    | some s => exact oneLine_quoted s
    | none => exact hnumber "#" index (by decide)
  | null r => exact oneLine_assign (by decide)
  | move kind r a => exact oneLine_assign (oneLine_onKind (by decide))
  | arith width op r a b =>
    cases width with
    | int => exact oneLine_assign (oneLine_onKind (by cases op <;> decide))
    | long => exact oneLine_assign (oneLine_onKind (by cases op <;> decide))
  | real precision op r a b => exact oneLine_assign (oneLine_onKind (by cases op <;> decide))
  | neg kind r a => exact oneLine_assign (oneLine_onKind (by decide))
  | inv kind r a => exact oneLine_assign (oneLine_onKind (by decide))
  | not r a => exact oneLine_assign (hone (by decide) (oneLine_text _))
  | convert c r a => exact oneLine_assign (hone (by cases c <;> decide) (oneLine_text _))
  | test op r a b => exact oneLine_assign (oneLine_onKind (by cases op <;> decide))
  | order kind r a b => exact oneLine_assign (oneLine_onKind (by decide))
  | same op r a b => exact oneLine_assign (oneLine_onKind (by cases op <;> decide))
  | arrayLength r a => exact oneLine_assign (hone (by decide) (oneLine_text _))
  | nullCheck r a => exact oneLine_assign (hone (by decide) (oneLine_text _))
  | arrayGet kind r array index => exact oneLine_assign (oneLine_onKind (by decide))
  | arraySet kind array index value => exact oneLine_onKind (by decide)
  | getField kind r object field =>
    exact oneLine_assign (htwo (by decide) (oneLine_text _) (hnumber "#" field (by decide)))
  | getStatic kind r field => exact oneLine_assign (hone (by decide) (hnumber "#" field (by decide)))
  | cast r a target => exact oneLine_assign (htwo (by decide) (oneLine_text _) (hnumber "class#" target (by decide)))
  | instanceOf r a target =>
    exact oneLine_assign (htwo (by decide) (oneLine_text _) (hnumber "class#" target (by decide)))
  | lowerBound index => exact hone (by decide) (oneLine_text _)
  | upperBound index array => exact htwo (by decide) (oneLine_text _) (oneLine_text _)
  | call site => exact oneLine_call p site
  | goto target => exact oneLine_append.2 ⟨by decide, oneLine_target p target⟩
  | jumpIf wanted cond target =>
    cases wanted with
    | true =>
      simp only [line, oneLine_append]
      exact ⟨⟨⟨by decide, oneLine_text _⟩, by decide⟩, oneLine_target p target⟩
    | false =>
      simp only [line, oneLine_append]
      exact ⟨⟨⟨by decide, oneLine_text _⟩, by decide⟩, oneLine_target p target⟩
  | unreachable => exact (by decide : OneLine "unreachable")
  | nop => exact (by decide : OneLine "nop")
  | stop => exact (by decide : OneLine "stop")

end Printer

end SlotCode
