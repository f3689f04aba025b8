import StringStack.Proofs.Instruction.Printed
import StringStack.Proofs.Program.Relisting

/-! Marks and targets without a name. The line that shows such a mark is never read. The line that
shows a jump to such a target is read as a jump to a label that is called like the target, so a
listing with one is refused as long as it has no line for a label of this name. If it does have one,
by chance, then the jump goes there instead. -/
namespace StringStack

namespace Statement

theorem eq_of_splitWord {line word argument : String} (split : splitWord line = (word, argument))
    (more : argument ≠ "") : line = word ++ " " ++ argument := by
  obtain ⟨rfl, back⟩ := Prod.mk.inj split
  have whole : line.toList.takeWhile (· ≠ ' ') ++ line.toList.dropWhile (· ≠ ' ') = line.toList :=
    List.takeWhile_append_dropWhile
  have stopped := List.head?_dropWhile_not (· ≠ ' ') line.toList
  cases rest : line.toList.dropWhile (· ≠ ' ') with
  | nil =>
    rw [rest] at back
    exact absurd back.symm more
  | cons c later =>
    rw [rest] at whole back stopped
    obtain rfl : c = ' ' := by simpa using stopped
    obtain rfl : String.ofList later = argument := back
    apply String.toList_injective
    simp only [String.toList_append, String.toList_ofList, List.append_assoc]
    exact whole.symm

theorem eq_of_parse_label {line name : String} (read : parse line = .ok (.label name)) :
    line = "LABEL " ++ name := by
  obtain ⟨k, word, reads⟩ := parse_eq_ok_iff.1 read
  generalize argument : (splitWord line).2 = text at reads
  cases reads with
  | label named => exact eq_of_splitWord (Prod.ext word argument) named

end Statement

namespace Program

/-- A mark at an index that no label has. -/
def NamelessMark (p : Program) : Prop :=
  ∃ i : Nat, p.instructions[i]? = some .mark ∧ ∀ name, p.labels.get? name ≠ some i

/-- A fixed jump leads to this index, which no label has. -/
def NamelessTarget (p : Program) (target : Nat) : Prop :=
  .jump target ∈ p.instructions ∧ ∀ name, p.labels.get? name ≠ some target

def nameOf (target : Nat) : String := "#" ++ toString target

theorem nameOf_ne_empty (target : Nat) : nameOf target ≠ "" := Instruction.hash_ne_empty target

theorem lineAt_mem {p : Program} {i : Nat} {instr : Instruction}
    (there : p.instructions[i]? = some instr) :
    lineAt p.labels i instr ∈ p.listingLines := by
  have listed : (instr, i) ∈ p.instructions.toList.zipIdx := by
    rw [List.mem_zipIdx_iff_getElem?, Array.getElem?_toList]
    exact there
  exact List.mem_map.2 ⟨(instr, i), listed, rfl⟩

theorem mem_codeLines_listing {p : Program} {i : Nat} {instr : Instruction}
    (there : p.instructions[i]? = some instr)
    (shown : lineAt p.labels i instr = (Statement.instruction instr).text)
    (plain : (Statement.instruction instr).payload = "") :
    (Statement.instruction instr).text ∈ codeLines (Text.lines p.listing) := by
  have listed : (Statement.instruction instr).text ∈ p.listingLines := shown ▸ lineAt_mem there
  have clean : '\n' ∉ (Statement.instruction instr).text.toList := by
    intro newline
    have inside := Statement.mem_payload_of_mem_text (by decide) (by decide) (by decide) newline
    rw [plain] at inside
    cases inside
  obtain ⟨k, rest, written⟩ := (Statement.instruction instr).exists_text_eq
  have code : isComment (Statement.instruction instr).text = false :=
    written ▸ isComment_keyword_append k rest
  refine List.mem_filter.2 ⟨?_, by rw [code]; rfl⟩
  exact Text.mem_lines_join listed clean (Statement.getLast?_text_instruction instr)

theorem exists_parse_of_mem {lines : List String} {statements : List Statement}
    (parsed : (codeLines lines).mapM Statement.parse = .ok statements) {line : String}
    (member : line ∈ codeLines lines) : ∃ s ∈ statements, Statement.parse line = .ok s := by
  obtain ⟨i, at_i⟩ := List.mem_iff_getElem?.1 member
  obtain ⟨s, there, read⟩ := (mapM_eq_ok_iff.1 parsed).2 i line at_i
  exact ⟨s, List.mem_of_getElem? there, read⟩

theorem not_namelessMark_of_load {p q : Program} (loaded : loadText p.listing = .ok q) :
    ¬ p.NamelessMark := by
  rintro ⟨i, there, nameless⟩
  obtain ⟨statements, parsed, -⟩ := means_of_load loaded
  have shown : lineAt p.labels i .mark = "LABEL" := by
    rw [lineAt, LabelTable.nameAt?_eq_none_iff.2 nameless]
  obtain ⟨s, -, read⟩ := exists_parse_of_mem parsed (mem_codeLines_listing there shown rfl)
  have refused : Statement.parse "LABEL" = .error .emptyLabel := by decide
  cases read.symm.trans refused

theorem label_line_of_load {p q : Program} {target : Nat} (loaded : loadText p.listing = .ok q)
    (nameless : p.NamelessTarget target) : "LABEL " ++ nameOf target ∈ Text.lines p.listing := by
  obtain ⟨member, nameless⟩ := nameless
  obtain ⟨i, there⟩ := Array.mem_iff_getElem?.1 member
  obtain ⟨statements, parsed, means⟩ := means_of_load loaded
  have shown : lineAt p.labels i (.jump target) = (Statement.jumpTo (nameOf target)).text := by
    rw [lineAt, LabelTable.nameAt?_eq_none_iff.2 nameless]
    rfl
  obtain ⟨s, listed, read⟩ := exists_parse_of_mem parsed (mem_codeLines_listing there shown rfl)
  cases read.symm.trans (Statement.parse_text (s := .jumpTo (nameOf target))
    (nameOf_ne_empty target))
  obtain ⟨j, at_j⟩ := List.mem_iff_getElem?.1 listed
  obtain ⟨k, at_k⟩ := means.jumpsDefined j _ at_j
  obtain ⟨line, written, label⟩ := exists_line_of_parsed parsed (List.mem_of_getElem? at_k)
  exact Statement.eq_of_parse_label label ▸ written

/-- The listing cannot be read: there is a mark without a name, or a target without a name and no
line of the listing that is a label of the name that the jump gives it. -/
def Stuck (p : Program) : Prop :=
  p.NamelessMark ∨ ∃ target, p.NamelessTarget target ∧
    "LABEL " ++ nameOf target ∉ Text.lines p.listing

/-- A listing that is stuck does not load, neither as its program nor as any other. -/
theorem listing_refused_of_stuck (p : Program) (stuck : p.Stuck) :
    ∃ cause, loadText p.listing = .error cause := by
  cases loaded : loadText p.listing with
  | error cause => exact ⟨cause, rfl⟩
  | ok q =>
    rcases stuck with mark | ⟨target, nameless, absent⟩
    · exact absurd mark (not_namelessMark_of_load loaded)
    · exact absurd (label_line_of_load loaded nameless) absent

theorem listing_refused_of_stuck_at_five :
    let p : Program := ⟨#[.mark, .jump 0, .jump 5], ⟨[("#4", 0)], List.pairwise_singleton _ _⟩⟩
    p.Stuck ∧ ∃ cause, loadText p.listing = .error cause := by
  intro p
  have absent : "LABEL " ++ nameOf 5 ∉ Text.lines p.listing := by
    have shown : Text.lines p.listing = ["LABEL #4", "JMP #4", "JMP #5"] := by decide +kernel
    rw [shown]
    decide
  have unlabeled : ∀ name, p.labels.get? name ≠ some 5 := by
    intro name found
    have listed := LabelTable.mem_entries_iff.2 found
    simp [p] at listed
  have stuck : p.Stuck := .inr ⟨5, ⟨by simp [p], unlabeled⟩, absent⟩
  exact ⟨stuck, listing_refused_of_stuck p stuck⟩

theorem listing_loses_nameless_target :
    let p : Program := ⟨#[.mark, .jump 5], ⟨[("#5", 0)], List.pairwise_singleton _ _⟩⟩
    (∀ i ∈ p.instructions, ∀ n ∈ i.offsets, n ≤ 2 ^ 64 - 2) ∧ p.labels.Apart ∧ p.NamelessTarget 5 ∧
      loadText p.listing = .ok ⟨#[.mark, .jump 0], p.labels⟩ := by
  intro p
  have only {name index} (found : p.labels.get? name = some index) : name = "#5" ∧ index = 0 := by
    have listed := LabelTable.mem_entries_iff.2 found
    simpa [p] using listed
  have words : ∀ i ∈ p.instructions, ∀ n ∈ i.offsets, n ≤ 2 ^ 64 - 2 := by
    simp [p, Instruction.offsets]
  have loaded : loadText p.listing = .ok ⟨#[.mark, .jump 0], p.labels⟩ := by decide +kernel
  refine ⟨words, ?_, ⟨by simp [p], ?_⟩, loaded⟩
  · intro a b index first second
    exact (only first).1.trans (only second).1.symm
  · intro name found
    cases (only found).2

/-- A jump to a target without a name goes to the label that is called like the target, if there is
one. -/
def reroute (labels : LabelTable) : Instruction → Instruction
  | .jump target =>
    match labels.nameAt? target with
    | some _ => .jump target
    | none => .jump ((labels.get? (nameOf target)).getD target)
  | i => i

def rerouted (p : Program) : Program := ⟨p.instructions.map (reroute p.labels), p.labels⟩

theorem lineAt_reroute {labels : LabelTable} (apart : labels.Apart) (index : Nat) {i : Instruction}
    (named : ∀ target, reroute labels i = .jump target → ∃ name, labels.get? name = some target) :
    lineAt labels index (reroute labels i) = lineAt labels index i := by
  cases i with
  | jump target =>
    cases at_target : labels.nameAt? target with
    | some name => simp only [reroute, at_target]
    | none =>
      have nameless := LabelTable.nameAt?_eq_none_iff.1 at_target
      cases found : labels.get? (nameOf target) with
      | none =>
        obtain ⟨name, taken⟩ :=
          named target (by simp only [reroute, at_target, found, Option.getD_none])
        exact absurd taken (nameless name)
      | some other =>
        have at_other := apart.nameAt?_eq_some_iff.2 found
        simp only [reroute, lineAt, at_target, found, Option.getD_some, at_other]
        rfl
  | _ => rfl

theorem offsets_reroute (labels : LabelTable) (i : Instruction) :
    (reroute labels i).offsets = i.offsets := by
  cases i with
  | jump target =>
    simp only [reroute]
    cases labels.nameAt? target with
    | none => rfl
    | some name => rfl
  | _ => rfl

theorem loadText_listing_eq_rerouted {p : Program}
    (words : ∀ i ∈ p.instructions, ∀ n ∈ i.offsets, n ≤ 2 ^ 64 - 2) (apart : p.labels.Apart)
    (listable : p.rerouted.Listable) : loadText p.listing = .ok p.rerouted := by
  have same : p.rerouted.listingLines = p.listingLines := by
    refine List.ext_getElem? fun index => ?_
    simp only [listingLines, List.getElem?_map, List.getElem?_zipIdx, Array.getElem?_toList,
      rerouted, Array.getElem?_map, Nat.zero_add]
    cases there : p.instructions[index]? with
    | none => rfl
    | some i =>
      have member : reroute p.labels i ∈ p.rerouted.instructions :=
        Array.mem_map_of_mem (Array.mem_of_getElem? there)
      exact congrArg some (lineAt_reroute apart index fun target jumps =>
        listable.jumps target (jumps ▸ member))
  have words' : ∀ i ∈ p.rerouted.instructions, ∀ n ∈ i.offsets, n ≤ 2 ^ 64 - 2 := by
    intro i member
    obtain ⟨j, was, rfl⟩ := Array.mem_map.1 member
    rw [offsets_reroute]
    exact words j was
  have loaded := listable.loadText_listing words' apart
  rwa [listing, same] at loaded

end Program
end StringStack
