import StringStack.Proofs.Text.Lines
import StringStack.Proofs.Program.Targets

namespace StringStack

namespace Statement

/-- The statement that is read from the line when a carriage return before its end is taken away. -/
def clip : Statement → Statement
  | instruction i => instruction i
  | label name => label (String.ofList (Text.dropFinal '\r' name.toList))
  | jumpTo name => jumpTo (String.ofList (Text.dropFinal '\r' name.toList))

theorem dropFinal_written (k : Keyword) {name : String} (named : name ≠ "") :
    String.ofList (Text.dropFinal '\r' (k.text ++ " " ++ name).toList) =
      k.text ++ " " ++ String.ofList (Text.dropFinal '\r' name.toList) := by
  have filled : name.toList ≠ [] := by simpa using named
  rw [String.toList_append, Text.dropFinal_append _ filled, String.ofList_append,
    String.ofList_toList]

theorem dropFinal_text {s : Statement} (readable : s.Readable) :
    String.ofList (Text.dropFinal '\r' s.text.toList) = s.clip.text := by
  cases s with
  | instruction i =>
    rw [Text.dropFinal_of_getLast?_ne (getLast?_text_instruction i), String.ofList_toList, clip]
  | label name => exact dropFinal_written .label readable
  | jumpTo name => exact dropFinal_written .jump readable

theorem exists_text_eq (s : Statement) :
    ∃ (k : Keyword) (rest : String), s.text = k.text ++ rest := by
  cases s with
  | label name => exact ⟨.label, " " ++ name, String.append_assoc⟩
  | jumpTo name => exact ⟨.jump, " " ++ name, String.append_assoc⟩
  | instruction i =>
    rw [text, Instruction.text]
    split
    · exact ⟨i.keyword, "", String.append_empty.symm⟩
    · next operands _ => exact ⟨i.keyword, " " ++ operands, String.append_assoc⟩

end Statement

namespace Program

theorem isComment_keyword_append (k : Keyword) (rest : String) :
    isComment (k.text ++ rest) = false := by
  unfold isComment
  rw [String.toList_append]
  cases k <;> rfl

theorem codeLines_text (statements : List Statement) :
    codeLines (statements.map Statement.text) = statements.map Statement.text := by
  refine List.filter_eq_self.2 fun line member => ?_
  obtain ⟨s, -, rfl⟩ := List.mem_map.1 member
  obtain ⟨k, rest, written⟩ := s.exists_text_eq
  rw [written, isComment_keyword_append]
  rfl

theorem Records.nameAt?_eq {statements : List Statement} {labels : LabelTable} {name : String}
    {i : Nat} (records : Records statements labels) (found : labels.get? name = some i) :
    labels.nameAt? i = some name := by
  refine LabelTable.nameAt?_of_get? (fun other also => ?_) found
  have at_i := (records name i).1 found
  have also_at_i := (records other i).1 also
  cases at_i.symm.trans also_at_i
  rfl

theorem Means.lineAt_eq {statements : List Statement} {p : Program} (means : Means statements p)
    {i : Nat} {s : Statement} {instr : Instruction} (readable : s.Readable)
    (at_i : statements[i]? = some s) (resolved : Resolves p.labels s instr) :
    lineAt p.labels i instr = s.text := by
  cases resolved with
  | label name =>
    have named := means.labels.nameAt?_eq ((means.labels name i).2 at_i)
    simp only [lineAt, named]
    rfl
  | @jumpTo name target found =>
    have named := means.labels.nameAt?_eq found
    simp only [lineAt, named]
    rfl
  | instruction instr =>
    cases instr with
    | mark => exact readable.elim
    | jump target => exact readable.elim
    | _ => rfl

theorem Means.listingLines_eq {statements : List Statement} {p : Program}
    (means : Means statements p) (readable : ∀ s ∈ statements, s.Readable) :
    p.listingLines = statements.map Statement.text := by
  refine List.ext_getElem? fun i => ?_
  rw [listingLines, List.getElem?_map, List.getElem?_map, List.getElem?_zipIdx,
    Array.getElem?_toList]
  cases at_i : statements[i]? with
  | none =>
    have beyond : p.instructions.size ≤ i := means.size ▸ List.getElem?_eq_none_iff.1 at_i
    rw [Array.getElem?_eq_none beyond]
    rfl
  | some s =>
    obtain ⟨instr, there, resolved⟩ := means.resolves i s at_i
    have line := means.lineAt_eq (readable s (List.mem_of_getElem? at_i)) at_i resolved
    rw [there]
    simpa using line

theorem Means.lines_listing {statements : List Statement} {p : Program} (means : Means statements p)
    (readable : ∀ s ∈ statements, s.Readable) (clean : ∀ s ∈ statements, '\n' ∉ s.text.toList) :
    Text.lines p.listing = (statements.map Statement.clip).map Statement.text := by
  have clean_lines : ∀ line ∈ statements.map Statement.text, '\n' ∉ line.toList := by
    simpa using clean
  rw [listing, means.listingLines_eq readable, Text.lines_join clean_lines, List.map_map,
    List.map_map]
  exact List.map_congr_left fun s member => Statement.dropFinal_text (readable s member)

/-- The names that loading the listing gives back. -/
def NamesKept (p : Program) : Prop :=
  ∀ name i, p.labels.get? name = some i → name.toList.getLast? ≠ some '\r'

theorem Means.clip_eq {statements : List Statement} {p : Program} (means : Means statements p)
    (kept : p.NamesKept) {s : Statement} (member : s ∈ statements) : s.clip = s := by
  obtain ⟨i, at_i⟩ := List.mem_iff_getElem?.1 member
  cases s with
  | instruction instr => rfl
  | label name =>
    have unended := kept name i ((means.labels name i).2 at_i)
    rw [Statement.clip, Text.dropFinal_of_getLast?_ne unended, String.ofList_toList]
  | jumpTo name =>
    obtain ⟨instr, -, resolved⟩ := means.resolves i _ at_i
    cases resolved with
    | @jumpTo _ target found =>
      have unended := kept name target found
      rw [Statement.clip, Text.dropFinal_of_getLast?_ne unended, String.ofList_toList]

theorem mapM_parse_text {statements : List Statement} (readable : ∀ s ∈ statements, s.Readable) :
    (statements.map Statement.text).mapM Statement.parse = .ok statements := by
  refine mapM_eq_ok_iff.2 ⟨by simp, fun i line at_i => ?_⟩
  rw [List.getElem?_map, Option.map_eq_some_iff] at at_i
  obtain ⟨s, there, rfl⟩ := at_i
  exact ⟨s, there, Statement.parse_text (readable s (List.mem_of_getElem? there))⟩

theorem parse_clip_label {name : String} {s : Statement}
    (read : Statement.parse (Statement.label name).clip.text = .ok s) :
    s = (Statement.label name).clip := by
  obtain ⟨k, word, reads⟩ := Statement.parse_eq_ok_iff.1 read
  rw [Statement.clip, Statement.text, Statement.splitWord_append] at word reads
  obtain rfl : Keyword.label = k := Keyword.text_injective word
  cases reads
  rfl

theorem Means.loadText_listing_iff {statements : List Statement} {p : Program}
    (means : Means statements p) (readable : ∀ s ∈ statements, s.Readable)
    (clean : ∀ s ∈ statements, '\n' ∉ s.text.toList) :
    loadText p.listing = .ok p ↔ p.NamesKept := by
  rw [loadText, load_eq_ok_iff, means.lines_listing readable clean, codeLines_text]
  constructor
  · rintro ⟨reloaded, parsed, means'⟩ name i found ended
    have at_i := (means.labels name i).1 found
    have line : ((statements.map Statement.clip).map Statement.text)[i]? =
        some (Statement.label name).clip.text := by
      rw [List.getElem?_map, List.getElem?_map, at_i]
      rfl
    obtain ⟨s, there, read⟩ := (mapM_eq_ok_iff.1 parsed).2 i _ line
    obtain rfl := parse_clip_label read
    -- The table would have the shorter name for this place, where the statements have the longer
    -- one.
    have shorter := (means.labels _ i).1 ((means'.labels _ i).2 there)
    have same : String.ofList (Text.dropFinal '\r' name.toList) = name :=
      Statement.label.inj (Option.some.inj (shorter.symm.trans at_i))
    exact Text.dropFinal_ne_self ended
      (String.ofList_injective (same.trans String.ofList_toList.symm))
  · intro kept
    have unchanged : statements.map Statement.clip = statements := by
      refine (List.map_congr_left fun s member => ?_).trans (List.map_id statements)
      exact means.clip_eq kept member
    rw [unchanged]
    exact ⟨statements, mapM_parse_text readable, means⟩

theorem statements_of_loadText {source : String} {p : Program} (loaded : loadText source = .ok p) :
    ∃ statements, Means statements p ∧ (∀ s ∈ statements, s.Readable) ∧
      ∀ s ∈ statements, '\n' ∉ s.text.toList := by
  obtain ⟨statements, parsed, means⟩ := means_of_load loaded
  refine ⟨statements, means, readable_of_parsed parsed, fun s member newline => ?_⟩
  obtain ⟨line, listed, read⟩ := exists_line_of_parsed parsed member
  have in_payload := Statement.mem_payload_of_mem_text (by decide) (by decide) (by decide) newline
  exact Text.not_mem_of_mem_lines listed (Statement.mem_of_mem_payload read in_payload)

/-- A loaded program is loaded again from its listing exactly when no name of a label ends in a
carriage return. -/
theorem listing_reloads_iff {source : String} {p : Program} (loaded : loadText source = .ok p) :
    loadText p.listing = .ok p ↔ p.NamesKept := by
  obtain ⟨statements, means, readable, clean⟩ := statements_of_loadText loaded
  exact means.loadText_listing_iff readable clean

theorem listing_reloads_two_labels :
    ∃ p, loadText "JMP the end\n\n\tagain\nLABEL loop\r\nPUSH 'it''s'\nJMP loop\nLABEL the end" =
      .ok p ∧
      loadText p.listing = .ok p := by
  have loaded :
      loadText "JMP the end\n\n\tagain\nLABEL loop\r\nPUSH 'it''s'\nJMP loop\nLABEL the end" =
        .ok ⟨#[.jump 4, .mark, .push "it's", .jump 1, .mark],
          ⟨[("loop", 1), ("the end", 4)], by decide⟩⟩ := by decide +kernel
  refine ⟨_, loaded, (listing_reloads_iff loaded).2 fun name i found => ?_⟩
  have listed := LabelTable.mem_entries_iff.2 found
  simp only [List.mem_cons, List.not_mem_nil, or_false, Prod.mk.injEq] at listed
  rcases listed with ⟨rfl, -⟩ | ⟨rfl, -⟩
  · decide
  · decide

/-- The last line of a source keeps its carriage return, and so does the name; the listing has a
line feed after it. -/
theorem listing_loses_carriage_return :
    ∃ p q, loadText "LABEL x\r" = .ok p ∧ loadText p.listing = .ok q ∧ q ≠ p := by
  refine ⟨⟨#[.mark], ⟨[("x\r", 0)], List.pairwise_singleton _ _⟩⟩,
    ⟨#[.mark], ⟨[("x", 0)], List.pairwise_singleton _ _⟩⟩, ?_, ?_, ?_⟩
  · decide +kernel
  · decide +kernel
  · decide

end Program
end StringStack
