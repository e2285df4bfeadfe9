/-
  SlotCode.Proofs.ListingLabels — the labels of a listing stand where its jumps say.

  A listing gets its labels from one list of addresses, which is used at two places: an
  address in the list gets a line with its label in front of its own, and a jump prints the
  label of its target. Both look the address up in the list, so that a jump names the right
  line comes down to what the list is: the targets of all jumps, each once, ascending.

  Proved: the labelled addresses are the sorted targets (`Program.labels_eq_sort`), where the
  lines of an address stand (`Program.lines_of_address`), and `listing_resolves_labels`.
-/

import Mathlib.Data.Finset.Sort
import SlotCode.Proofs.OneLine

namespace SlotCode

/-! ## The labelled addresses -/

theorem mem_insertAscending {n m : Nat} {ns : List Nat} : m ∈ insertAscending n ns ↔ m = n ∨ m ∈ ns := by
  induction ns with
  | nil => simp [insertAscending]
  | cons k ns ih =>
    unfold insertAscending
    split_ifs with hless hsame
    · simp
    · simp [hsame]
    · simp only [List.mem_cons, ih]
      exact or_left_comm

theorem pairwise_insertAscending {n : Nat} {ns : List Nat} (h : ns.Pairwise (· < ·)) :
    (insertAscending n ns).Pairwise (· < ·) := by
  induction ns with
  | nil => simp [insertAscending]
  | cons k ns ih =>
    have ⟨hk, hns⟩ := List.pairwise_cons.1 h
    unfold insertAscending
    split_ifs with hless hsame
    · refine List.pairwise_cons.2 ⟨?_, h⟩
      intro m hm
      rcases List.mem_cons.1 hm with rfl | hm
      · exact hless
      · exact Nat.lt_trans hless (hk m hm)
    · exact h
    · refine List.pairwise_cons.2 ⟨?_, ih hns⟩
      intro m hm
      rcases mem_insertAscending.1 hm with rfl | hm
      · omega
      · exact hk m hm

namespace Program

variable {p : Program} {a n : Nat} {i : Instruction}

theorem mem_labels : a ∈ p.labels ↔ a ∈ p.targets := by
  unfold labels
  induction p.targets with
  | nil => simp
  | cons b bs ih => rw [List.foldr_cons, mem_insertAscending, ih, List.mem_cons]

theorem pairwise_labels (p : Program) : p.labels.Pairwise (· < ·) := by
  unfold labels
  induction p.targets with
  | nil => exact List.Pairwise.nil
  | cons b bs ih => exact pairwise_insertAscending ih

theorem nodup_labels (p : Program) : p.labels.Nodup := p.pairwise_labels.imp Nat.ne_of_lt

theorem toFinset_labels (p : Program) : p.labels.toFinset = p.targets.toFinset := by
  ext a
  simp [mem_labels]

/-- The labelled addresses are the targets in ascending order. -/
theorem labels_eq_sort (p : Program) : p.labels = p.targets.toFinset.sort (· ≤ ·) := by
  rw [← toFinset_labels]
  exact ((List.toFinset_sort (· ≤ ·) p.nodup_labels).2 (p.pairwise_labels.imp Nat.le_of_lt)).symm

theorem length_labels (p : Program) : p.labels.length = p.targets.toFinset.card := by
  rw [← toFinset_labels, List.toFinset_card_of_nodup p.nodup_labels]

theorem labelAt_eq_some_iff : (Printer.ofProgram p).labelAt a = some n ↔ p.labels[n]? = some a := by
  constructor
  · intro h
    obtain ⟨hn, hat, -⟩ := List.idxOf?_eq_some_iff.1 h
    exact List.getElem?_eq_some_iff.2 ⟨hn, hat⟩
  · intro h
    obtain ⟨hn, rfl⟩ := List.getElem?_eq_some_iff.1 h
    refine List.idxOf?_eq_some_iff.2 ⟨hn, rfl, ?_⟩
    intro m hm hsame
    exact absurd ((p.nodup_labels.getElem_inj_iff).1 hsame) (Nat.ne_of_lt hm)

theorem labelAt_eq_none_iff : (Printer.ofProgram p).labelAt a = none ↔ a ∉ p.targets := by
  rw [← mem_labels]
  exact List.idxOf?_eq_none_iff

/-- Going through all addresses meets the labels in order. -/
theorem filterMap_labelAt (h : ∀ a ∈ p.targets, a < p.code.size) :
    (List.range p.code.size).filterMap (Printer.ofProgram p).labelAt = List.range p.targets.toFinset.card := by
  have hmet : (List.range p.code.size).filter (· ∈ p.labels) = p.labels := by
    have hperm : ((List.range p.code.size).filter (· ∈ p.labels)).Perm p.labels := by
      refine (List.perm_ext_iff_of_nodup (List.nodup_range.filter _) p.nodup_labels).2 ?_
      intro a
      simp only [List.mem_filter, List.mem_range, decide_eq_true_eq, and_iff_right_iff_imp]
      exact fun ha => h a (mem_labels.1 ha)
    refine hperm.eq_of_pairwise ?_ (List.pairwise_lt_range.filter _) p.pairwise_labels
    intro a b _ _ hab hba
    exact absurd hab (Nat.lt_asymm hba)
  have hnumber : ∀ a ∈ p.labels, (Printer.ofProgram p).labelAt a = some (p.labels.idxOf a) := by
    intro a ha
    rw [labelAt_eq_some_iff]
    exact List.getElem?_idxOf ha
  calc (List.range p.code.size).filterMap (Printer.ofProgram p).labelAt
      = ((List.range p.code.size).filter (· ∈ p.labels)).filterMap (Printer.ofProgram p).labelAt := by
        rw [List.filterMap_filter]
        refine List.filterMap_congr ?_
        intro a _
        by_cases ha : a ∈ p.labels
        · simp [ha]
        · simp [ha, labelAt_eq_none_iff, ← mem_labels]
    _ = p.labels.map p.labels.idxOf := by
        rw [hmet, ← List.filterMap_eq_map]
        exact List.filterMap_congr hnumber
    _ = List.range p.targets.toFinset.card := by
        refine List.ext_getElem (by simp [length_labels]) ?_
        intro n hn _
        simp [p.nodup_labels.idxOf_getElem]

/-! ## The lines of a listing -/

/-- The line of a label. -/
def labelLine (n : Nat) : String := "L" ++ n.repr ++ ":"

/-- The lines of an address: its label, if it has one, and its instruction. -/
def linesAt (p : Program) (i : Instruction) (a : Nat) : List String :=
  (((Printer.ofProgram p).labelAt a).map labelLine).toList ++ ["  " ++ (Printer.ofProgram p).line i]

theorem listingLines_eq (p : Program) : p.listingLines = p.code.toList.zipIdx.flatMap fun x => p.linesAt x.1 x.2 := by
  unfold listingLines
  refine List.flatMap_congr ?_
  rintro ⟨i, a⟩ -
  dsimp only [linesAt]
  cases (Printer.ofProgram p).labelAt a with
  | some n => rfl
  | none => rfl

/-- The place of an address among the lines: behind all addresses before it, their labels and its own. -/
def lineOf (p : Program) (a : Nat) : Nat := a + (p.targets.toFinset.filter (· ≤ a)).card

theorem card_targets_le (p : Program) (a : Nat) : (p.targets.toFinset.filter (· ≤ a)).card =
    (p.targets.toFinset.filter (· < a)).card + if a ∈ p.targets then 1 else 0 := by
  by_cases ha : a ∈ p.targets
  · have hinsert : p.targets.toFinset.filter (· ≤ a) = insert a (p.targets.toFinset.filter (· < a)) := by
      ext b
      simp only [Finset.mem_filter, Finset.mem_insert, List.mem_toFinset, Nat.le_iff_lt_or_eq]
      grind
    rw [hinsert, Finset.card_insert_of_notMem (by simp), if_pos ha]
  · have hsame : p.targets.toFinset.filter (· ≤ a) = p.targets.toFinset.filter (· < a) := by
      ext b
      simp only [Finset.mem_filter, List.mem_toFinset, Nat.le_iff_lt_or_eq]
      grind
    rw [hsame, if_neg ha, Nat.add_zero]

theorem length_linesAt (p : Program) (i : Instruction) (a : Nat) :
    (p.linesAt i a).length = 1 + if a ∈ p.targets then 1 else 0 := by
  unfold linesAt
  cases hlabel : (Printer.ofProgram p).labelAt a with
  | none => simp [labelAt_eq_none_iff.1 hlabel]
  | some n =>
    have ha : a ∈ p.targets := mem_labels.1 (List.mem_of_getElem? (labelAt_eq_some_iff.1 hlabel))
    simp [ha]

theorem length_lines (p : Program) (is : List Instruction) : (is.zipIdx.flatMap fun x => p.linesAt x.1 x.2).length =
    is.length + (p.targets.toFinset.filter (· < is.length)).card := by
  induction is using List.reverseRecOn with
  | nil => simp
  | append_singleton is i ih =>
    have hle : p.targets.toFinset.filter (· < is.length + 1) = p.targets.toFinset.filter (· ≤ is.length) := by
      ext a
      rw [Finset.mem_filter, Finset.mem_filter, Nat.lt_succ_iff]
    rw [List.zipIdx_append, List.flatMap_append, List.length_append, ih, List.length_append, List.length_singleton, hle,
      card_targets_le]
    simp only [List.zipIdx_singleton, List.flatMap_singleton, length_linesAt, Nat.zero_add]
    omega

theorem lines_of_address (h : p.code[a]? = some i) : ∃ before after, p.listingLines = before ++ p.linesAt i a ++ after ∧
    before.length = a + (p.targets.toFinset.filter (· < a)).card := by
  rw [← Array.getElem?_toList] at h
  obtain ⟨ha, rfl⟩ := List.getElem?_eq_some_iff.1 h
  have hlength : (p.code.toList.take a).length = a := List.length_take_of_le (Nat.le_of_lt ha)
  refine ⟨(p.code.toList.take a).zipIdx.flatMap fun x => p.linesAt x.1 x.2,
    ((p.code.toList.drop (a + 1)).zipIdx (a + 1)).flatMap fun x => p.linesAt x.1 x.2, ?_, ?_⟩
  · have hsplit : p.code.toList = p.code.toList.take a ++ p.code.toList[a] :: p.code.toList.drop (a + 1) := by
      rw [List.cons_getElem_drop_succ, List.take_append_drop]
    rw [listingLines_eq]
    nth_rewrite 1 [hsplit]
    rw [List.zipIdx_append, List.flatMap_append, List.zipIdx_cons, List.flatMap_cons, hlength, Nat.zero_add,
      List.append_assoc]
  · rw [length_lines, hlength]

/-- The instruction of an address stands on the line of that address. -/
theorem getElem?_lineOf (h : p.code[a]? = some i) :
    p.listingLines[p.lineOf a]? = some ("  " ++ (Printer.ofProgram p).line i) := by
  obtain ⟨before, after, hlines, hbefore⟩ := lines_of_address h
  have hplace : p.lineOf a = (before ++ (((Printer.ofProgram p).labelAt a).map labelLine).toList).length := by
    have hlength := p.length_linesAt i a
    rw [linesAt, List.length_append, List.length_singleton] at hlength
    rw [lineOf, card_targets_le, List.length_append, hbefore]
    omega
  rw [hlines, linesAt, hplace, ← List.append_assoc, List.append_assoc _ _ after,
    List.getElem?_append_right (Nat.le_refl _), Nat.sub_self]
  rfl

/-- The label of an address stands on the line before it. -/
theorem getElem?_before_lineOf (h : p.code[a]? = some i) (hlabel : p.labels[n]? = some a) :
    ∃ place, p.lineOf a = place + 1 ∧ p.listingLines[place]? = some (labelLine n) := by
  obtain ⟨before, after, hlines, hbefore⟩ := lines_of_address h
  have ha : a ∈ p.targets := mem_labels.1 (List.mem_of_getElem? hlabel)
  refine ⟨before.length, ?_, ?_⟩
  · rw [lineOf, card_targets_le, if_pos ha, hbefore, Nat.add_assoc]
  · rw [hlines, linesAt, labelAt_eq_some_iff.2 hlabel]
    simp

theorem length_listingLines (h : ∀ a ∈ p.targets, a < p.code.size) :
    p.listingLines.length = p.code.size + p.targets.toFinset.card := by
  have hall : p.targets.toFinset.filter (· < p.code.toList.length) = p.targets.toFinset := by
    refine Finset.filter_true_of_mem ?_
    intro a ha
    exact h a (List.mem_toFinset.1 ha)
  rw [listingLines_eq, length_lines, hall, Array.length_toList]

theorem oneLine_labelLine (n : Nat) : Text.OneLine (labelLine n) := by
  simp only [labelLine, Text.oneLine_append]
  exact ⟨⟨by decide, Text.oneLine_repr n⟩, by decide⟩

theorem lines_listing (p : Program) : Text.lines p.listing = p.listingLines ++ [""] := by
  apply Text.lines_join
  intro l hl
  rw [listingLines_eq] at hl
  obtain ⟨x, -, hl⟩ := List.mem_flatMap.1 hl
  rcases List.mem_append.1 hl with hl | hl
  · obtain ⟨n, -, rfl⟩ := Option.map_eq_some_iff.1 (Option.mem_toList.1 hl)
    exact oneLine_labelLine n
  · rw [List.mem_singleton.1 hl]
    exact Text.oneLine_append.2 ⟨by decide, Printer.oneLine_line _ _⟩

/-- Whether a line starts with that character. -/
def opensWith (c : Char) (l : String) : Bool := l.toList.head? == some c

/-- The lines that are not indented are the labels, in order. -/
theorem filter_listingLines (h : ∀ a ∈ p.targets, a < p.code.size) :
    p.listingLines.filter (opensWith 'L') = (List.range p.targets.toFinset.card).map labelLine := by
  have hlabel : ∀ n, opensWith 'L' (labelLine n) = true := by
    intro n
    simp [opensWith, labelLine]
  have hcode : ∀ l, opensWith 'L' ("  " ++ l) = false := by
    intro l
    simp [opensWith]
  have hat : ∀ x : Instruction × Nat, (p.linesAt x.1 x.2).filter (opensWith 'L') =
      (((Printer.ofProgram p).labelAt x.2).map labelLine).toList := by
    intro x
    unfold linesAt
    cases (Printer.ofProgram p).labelAt x.2 with
    | some n => simp [hlabel, hcode]
    | none => simp [hcode]
  have hranks : p.code.toList.zipIdx.map Prod.snd = List.range p.code.size := by
    rw [List.zipIdx_map_snd, List.range_eq_range', Array.length_toList]
  rw [listingLines_eq, List.filter_flatMap, ← filterMap_labelAt h, ← hranks, List.filterMap_map, List.map_filterMap]
  simp only [hat]
  rw [← List.filterMap_eq_flatMap_toList]
  rfl

/-! ## Jumps -/

end Program

/-- What the line of a jump says before its target. -/
def Instruction.beforeTarget : Instruction → String
  | .jumpIf true cond _ => "if-true " ++ (TypedSlot.mk .int cond).text ++ " goto "
  | .jumpIf false cond _ => "if-false " ++ (TypedSlot.mk .int cond).text ++ " goto "
  | _ => "goto "

theorem Printer.line_of_target {i : Instruction} {l : Label} (p : Printer) (h : i.target? = some l) :
    p.line i = i.beforeTarget ++ p.target l := by
  cases i with
  | goto target =>
    obtain rfl := Option.some.inj h
    rfl
  | jumpIf wanted cond target =>
    obtain rfl := Option.some.inj h
    cases wanted <;> rfl
  | _ => cases h

namespace Program

variable {p : Program} {a n : Nat} {i : Instruction}

theorem mem_targets (hi : i ∈ p.code) (h : i.target? = some (.address a)) : a ∈ p.targets := by
  refine List.mem_filterMap.2 ⟨i, Array.mem_toList_iff.2 hi, ?_⟩
  rw [h]

/-- A jump names the label of its target. -/
theorem line_of_jump (hi : i ∈ p.code) (h : i.target? = some (.address a)) :
    ∃ n : Nat, p.labels[n]? = some a ∧ (Printer.ofProgram p).line i = i.beforeTarget ++ ("L" ++ n.repr) := by
  obtain ⟨n, hn⟩ := List.mem_iff_getElem?.1 (mem_labels.2 (mem_targets hi h))
  refine ⟨n, hn, ?_⟩
  rw [Printer.line_of_target _ h, Printer.target, labelAt_eq_some_iff.2 hn]

/-! ## The described program -/

/-- The label of an address, empty if it has none. -/
def labelText (p : Program) (a : Nat) : String := (((Printer.ofProgram p).labelAt a).map labelLine).getD ""

/-- An address, its label and its instruction. -/
def describedLine (a : Nat) (label text : String) : String :=
  "    " ++ rightAligned 4 a.repr ++ " " ++ rightAligned 4 label ++ "  " ++ text

theorem labelText_of_label (h : p.labels[n]? = some a) : p.labelText a = labelLine n := by
  rw [labelText, labelAt_eq_some_iff.2 h]
  rfl

theorem labelText_of_no_target (h : a ∉ p.targets) : p.labelText a = "" := by
  rw [labelText, labelAt_eq_none_iff.2 h]
  rfl

theorem oneLine_rightAligned {width : Nat} {s : String} (h : Text.OneLine s) : Text.OneLine (rightAligned width s) := by
  refine Text.oneLine_append.2 ⟨Text.oneLine_ofList.2 ?_, h⟩
  intro hmem
  exact absurd (List.eq_of_mem_replicate hmem) (by decide)

theorem oneLine_describedLine (p : Program) (i : Instruction) (a : Nat) :
    Text.OneLine (describedLine a (p.labelText a) ((Printer.ofProgram p).line i)) := by
  have hlabel : Text.OneLine (p.labelText a) := by
    unfold labelText
    cases (Printer.ofProgram p).labelAt a with
    | some n => exact oneLine_labelLine n
    | none => decide
  simp only [describedLine, Text.oneLine_append]
  exact ⟨⟨⟨⟨⟨by decide, oneLine_rightAligned (Text.oneLine_repr a)⟩, by decide⟩, oneLine_rightAligned hlabel⟩,
    by decide⟩, Printer.oneLine_line _ i⟩

/-- The lines before the instructions: the slot counts, and the texts if there are any. -/
def headLines (p : Program) : List String :=
  let c := p.counts
  let slots := s!"  slots: int={c.int} long={c.long} float={c.float} double={c.double} object={c.object}"
  let texts :=
    if p.texts.isEmpty then []
    else ["  strings: ["] ++ p.texts.toList.zipIdx.map (fun x => "    [" ++ x.2.repr ++ "] = " ++ Text.quoted x.1) ++ ["  ]"]
  ["Program \x7b", slots] ++ texts ++ ["  instructions:"]

theorem oneLine_headLines (p : Program) : ∀ l ∈ p.headLines, Text.OneLine l := by
  have hslots : ∀ c : SlotCounts, Text.OneLine
      s!"  slots: int={c.int} long={c.long} float={c.float} double={c.double} object={c.object}" := by
    intro c
    simp only [Text.oneLine_append]
    and_intros
    all_goals first | decide | exact Text.oneLine_repr _
  have htext : ∀ (n : Nat) (s : String), Text.OneLine ("    [" ++ n.repr ++ "] = " ++ Text.quoted s) := by
    intro n s
    simp only [Text.oneLine_append]
    exact ⟨⟨⟨by decide, Text.oneLine_repr n⟩, by decide⟩, Text.oneLine_quoted s⟩
  intro l hl
  simp only [headLines, List.mem_append, List.mem_cons, List.not_mem_nil, or_false] at hl
  rcases hl with ((rfl | rfl) | hl) | rfl
  · decide
  · exact hslots _
  · split_ifs at hl
    · cases hl
    · simp only [List.mem_append, List.mem_singleton, List.mem_map] at hl
      rcases hl with (rfl | ⟨x, -, rfl⟩) | rfl
      · decide
      · exact htext x.2 x.1
      · decide
  · decide

/-- A described program is its head, the lines of its instructions and a brace. -/
theorem describe_eq (p : Program) : p.describe = "\n".intercalate (p.headLines ++ p.code.toList.zipIdx.map
    (fun x => describedLine x.2 (p.labelText x.2) ((Printer.ofProgram p).line x.1)) ++ ["\x7d"]) := by
  unfold describe headLines
  refine congrArg (String.intercalate "\n") (congrArg (· ++ ["\x7d"]) (congrArg _ (List.map_congr_left ?_)))
  rintro ⟨i, a⟩ -
  dsimp only [describedLine, labelText]
  cases (Printer.ofProgram p).labelAt a with
  | some n => rfl
  | none => rfl

theorem lines_describe (p : Program) : Text.lines p.describe = p.headLines ++ p.code.toList.zipIdx.map
    (fun x => describedLine x.2 (p.labelText x.2) ((Printer.ofProgram p).line x.1)) ++ ["\x7d"] := by
  rw [describe_eq]
  apply Text.lines_intercalate
  · intro l hl
    simp only [List.mem_append, List.mem_map, List.mem_singleton] at hl
    rcases hl with (hl | ⟨x, -, rfl⟩) | rfl
    · exact p.oneLine_headLines l hl
    · exact p.oneLine_describedLine x.1 x.2
    · decide
  · simp

theorem getElem?_lines_describe (h : p.code[a]? = some i) : (Text.lines p.describe)[p.headLines.length + a]? =
    some (describedLine a (p.labelText a) ((Printer.ofProgram p).line i)) := by
  rw [← Array.getElem?_toList] at h
  obtain ⟨ha, rfl⟩ := List.getElem?_eq_some_iff.1 h
  rw [lines_describe, List.append_assoc, List.getElem?_append_right (Nat.le_add_right _ _), Nat.add_sub_cancel_left,
    List.getElem?_append_left (by simpa using ha), List.getElem?_map, List.getElem?_zipIdx, h]
  simp

/-- In the listing of a program whose jumps all go to addresses of it, the lines `L0:`, `L1:` and so on, one for each
    distinct target, are the labels, each once and in this order; every address stands on a line of its own, and right
    before the line of the target with the number `n` in ascending order stands the line `Ln:`. A jump names the label
    of its target. The described program shows the same label at every address and prints the same instructions. -/
theorem listing_resolves_labels (p : Program) (h : ∀ a ∈ p.targets, a < p.code.size) :
    let listed := Text.lines p.listing
    let described := Text.lines p.describe
    let ordered := p.targets.toFinset.sort (· ≤ ·)
    let printed := (Printer.ofProgram p).line
    (listed.filter (opensWith 'L') = (List.range p.targets.toFinset.card).map labelLine ∧
      listed.length = p.code.size + p.targets.toFinset.card + 1) ∧
    (∀ a i, p.code[a]? = some i → listed[p.lineOf a]? = some ("  " ++ printed i)) ∧
    (∀ n a, ordered[n]? = some a → ∃ place, p.lineOf a = place + 1 ∧ listed[place]? = some (labelLine n)) ∧
    (∀ i ∈ p.code, ∀ a, i.target? = some (.address a) →
      ∃ n : Nat, ordered[n]? = some a ∧ printed i = i.beforeTarget ++ ("L" ++ n.repr)) ∧
    ∃ head, described.length = head + p.code.size + 1 ∧ ∀ a i, p.code[a]? = some i →
      ∃ label, described[head + a]? = some (describedLine a label (printed i)) ∧
        (∀ n, ordered[n]? = some a → label = labelLine n) ∧ (a ∉ p.targets → label = "") := by
  dsimp only
  rw [lines_listing, ← labels_eq_sort]
  have hinside : ∀ {place : Nat} {l : String}, p.listingLines[place]? = some l →
      (p.listingLines ++ [""])[place]? = some l := by
    intro place l hl
    have hplace := (List.getElem?_eq_some_iff.1 hl).1
    rw [List.getElem?_append_left hplace, hl]
  refine ⟨⟨?_, ?_⟩, ?_, ?_, ?_, p.headLines.length, ?_, ?_⟩
  · rw [List.filter_append, filter_listingLines h]
    exact List.append_nil _
  · rw [List.length_append, length_listingLines h, List.length_singleton]
  · intro a i hi
    exact hinside (getElem?_lineOf hi)
  · intro n a hn
    have ha := h a (mem_labels.1 (List.mem_of_getElem? hn))
    obtain ⟨place, hplace, hline⟩ := getElem?_before_lineOf (Array.getElem?_eq_getElem ha) hn
    exact ⟨place, hplace, hinside hline⟩
  · intro i hi a ha
    exact line_of_jump hi ha
  · rw [lines_describe]
    simp [Nat.add_assoc]
  · intro a i hi
    exact ⟨p.labelText a, getElem?_lines_describe hi, fun n => labelText_of_label, labelText_of_no_target⟩

/-- Counts a slot down to zero: a jump forward to the end and one back to the start. -/
def countdownCode : Program where
  code := #[.jumpIf false 0 (.address 3), .arith .int .sub 0 0 1, .goto (.address 0), .stop]
  counts := { PerKind.replicate 0 with int := 2 }

theorem countdownCode_resolves_labels :
    (∀ a ∈ countdownCode.targets, a < countdownCode.code.size) ∧
      (Text.lines countdownCode.listing).filter (opensWith 'L') = ["L0:", "L1:"] ∧
      (Text.lines countdownCode.listing)[0]? = some "L0:" ∧ (Text.lines countdownCode.listing)[4]? = some "L1:" ∧
      (Text.lines countdownCode.listing)[1]? = some "  if-false i0 goto L1" ∧
      (Text.lines countdownCode.listing)[3]? = some "  goto L0" := by
  have htargets : ∀ a ∈ countdownCode.targets, a < countdownCode.code.size := by decide
  obtain ⟨⟨hlabels, -⟩, hlines, hplaces, -⟩ := listing_resolves_labels countdownCode htargets
  have hordered : countdownCode.targets.toFinset.sort (· ≤ ·) = [0, 3] := (labels_eq_sort _).symm.trans (by decide)
  obtain ⟨start, hstart, hfirst⟩ := hplaces 0 0 (by rw [hordered]; rfl)
  obtain ⟨stop, hstop, hsecond⟩ := hplaces 1 3 (by rw [hordered]; rfl)
  have hstart' : start = 0 := Nat.succ_injective (hstart.symm.trans (by decide))
  have hstop' : stop = 4 := Nat.succ_injective (hstop.symm.trans (by decide))
  refine ⟨htargets, hlabels, ?_, ?_, ?_, ?_⟩
  · rw [← hstart', hfirst]
    decide
  · rw [← hstop', hsecond]
    decide
  · exact hlines 0 _ rfl
  · exact hlines 2 _ rfl

end Program

end SlotCode
