import StringStack.Proofs.Instruction.Written
import StringStack.Proofs.Program.Loading

namespace StringStack.Program

theorem exists_line_of_parsed {lines : List String} {statements : List Statement}
    (parsed : (codeLines lines).mapM Statement.parse = .ok statements) {s : Statement}
    (member : s ∈ statements) :
    ∃ line ∈ lines, Statement.parse line = .ok s := by
  obtain ⟨i, at_i⟩ := List.mem_iff_getElem?.1 member
  obtain ⟨line, there, read⟩ := (readsAt_iff parsed).2 at_i
  exact ⟨line, (List.mem_filter.1 (List.mem_of_getElem? there)).1, read⟩

theorem readable_of_parsed {lines : List String} {statements : List Statement}
    (parsed : (codeLines lines).mapM Statement.parse = .ok statements) :
    ∀ s ∈ statements, s.Readable := by
  intro s member
  obtain ⟨line, -, read⟩ := exists_line_of_parsed parsed member
  exact Statement.readable_iff_exists_line.2 ⟨line, read⟩

theorem Means.exists_statement {statements : List Statement} {p : Program}
    (means : Means statements p) {i : Nat} {instr : Instruction}
    (there : p.instructions[i]? = some instr) :
    ∃ s, statements[i]? = some s ∧ Resolves p.labels s instr := by
  have inside : i < statements.length := means.size ▸ (Array.getElem?_eq_some_iff.1 there).1
  have at_i := List.getElem?_eq_getElem inside
  obtain ⟨instr', there', resolved⟩ := means.resolves i _ at_i
  cases there.symm.trans there'
  exact ⟨_, at_i, resolved⟩

theorem Means.mark_of_label {statements : List Statement} {p : Program} (means : Means statements p)
    {name : String} {i : Nat} (found : p.labels.get? name = some i) :
    p.instructions[i]? = some .mark := by
  obtain ⟨instr, there, resolved⟩ := means.resolves i _ ((means.labels name i).1 found)
  cases resolved with
  | label name => exact there

theorem Means.label_of_jump {statements : List Statement} {p : Program} (means : Means statements p)
    (readable : ∀ s ∈ statements, s.Readable) {i target : Nat}
    (there : p.instructions[i]? = some (.jump target)) :
    ∃ name, p.labels.get? name = some target := by
  obtain ⟨s, at_i, resolved⟩ := means.exists_statement there
  cases resolved with
  | instruction _ => exact (readable _ (List.mem_of_getElem? at_i)).elim
  | jumpTo found => exact ⟨_, found⟩

/-- All jumps, fixed or by name, go to marks. -/
structure Linked (p : Program) : Prop where
  jumps : ∀ (i target : Nat), p.instructions[i]? = some (.jump target) →
    p.instructions[target]? = some .mark
  labels : ∀ name index, p.labels.get? name = some index → p.instructions[index]? = some .mark

theorem linked_of_load {lines : List String} {p : Program} (loaded : load lines = .ok p) :
    p.Linked := by
  obtain ⟨statements, parsed, means⟩ := means_of_load loaded
  refine ⟨fun i target there => ?_, fun name index found => means.mark_of_label found⟩
  obtain ⟨name, found⟩ := means.label_of_jump (readable_of_parsed parsed) there
  exact means.mark_of_label found

theorem lt_size_of_getElem? {p : Program} {i : Nat} {instr : Instruction}
    (there : p.instructions[i]? = some instr) : i < p.size :=
  (Array.getElem?_eq_some_iff.1 there).1

end StringStack.Program
