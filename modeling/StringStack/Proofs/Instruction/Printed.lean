import StringStack.Proofs.Instruction.Written

/-! Printed instructions. The keyword and the operands of an instruction can be told from its
text, and no two instructions share both as long as offsets are words. Marks and fixed jumps have a
text of their own too, but it is not read as the instruction. -/
namespace StringStack.Instruction

open Text.Decimal

structure Spelled (i : Instruction) : Prop where
  unmarked : i ≠ .mark
  unfixed : ∀ target, i ≠ .jump target
  words : ∀ n ∈ i.offsets, n ≤ 2 ^ 64 - 2

theorem spelled_of_readable {i : Instruction} (readable : (Statement.instruction i).Readable) :
    i.Spelled := by
  have limit : wordLimit = 2 ^ 64 := rfl
  cases i with
  | mark => exact readable.elim
  | jump target => exact readable.elim
  | swap a b =>
    obtain ⟨first, second⟩ := readable
    refine ⟨nofun, nofun, List.forall_mem_cons.2 ⟨by omega, List.forall_mem_singleton.2 (by omega)⟩⟩
  | copy n =>
    have small : n + 1 < wordLimit := readable
    exact ⟨nofun, nofun, List.forall_mem_singleton.2 (by omega)⟩
  | _ => exact ⟨nofun, nofun, nofun⟩

theorem spelled_iff_readable {i : Instruction} : i.Spelled ↔ (Statement.instruction i).Readable :=
  ⟨fun spelled => Statement.readable_instruction spelled.unmarked spelled.unfixed spelled.words,
    spelled_of_readable⟩

theorem splitWord_text (i : Instruction) :
    Statement.splitWord i.text = (i.keyword.text, i.operands?.getD "") := by
  unfold text
  split
  · next none => rw [none, Statement.splitWord_keyword, Option.getD_none]
  · next operands some => rw [some, Statement.splitWord_append, Option.getD_some]

theorem pair_injective {a b c d : Nat}
    (same : toString a ++ " " ++ toString b = toString c ++ " " ++ toString d) : a = c ∧ b = d := by
  have clean (n : Nat) : ' ' ∉ (toString n).toList := not_mem_toString (by decide)
  have parts := congrArg Statement.splitWord same
  rw [Statement.splitWord_spaced (clean a), Statement.splitWord_spaced (clean c)] at parts
  exact ⟨toString_injective (Prod.mk.inj parts).1, toString_injective (Prod.mk.inj parts).2⟩

theorem hash_ne_empty (target : Nat) : "#" ++ toString target ≠ "" := by
  intro empty
  have characters := congrArg String.toList empty
  rw [String.toList_append] at characters
  cases characters

section Words

variable {i j : Instruction} (words : ∀ n ∈ i.offsets, n < 2 ^ 64)
  (others : ∀ n ∈ j.offsets, n < 2 ^ 64)

include words others

theorem eq_of_operands (keyword : i.keyword = j.keyword)
    (operands : i.operands?.getD "" = j.operands?.getD "") : i = j := by
  cases i with
  | push v =>
    cases j with
    | push w => rw [quote_injective operands]
    | _ => cases keyword
  | swap a b =>
    cases j with
    | swap c d =>
      simp only [offsets, List.forall_mem_cons] at words others
      obtain ⟨first, second⟩ := pair_injective operands
      rw [Position.ofOffset_injective words.1 others.1 first,
        Position.ofOffset_injective words.2.1 others.2.1 second]
    | _ => cases keyword
  | copy n =>
    cases j with
    | copy m =>
      simp only [offsets, List.forall_mem_cons] at words others
      rw [Position.ofOffset_injective words.1 others.1 (toString_injective operands)]
    | _ => cases keyword
  | jump target =>
    cases j with
    | jump other => rw [toString_injective ((String.append_right_inj "#").1 operands)]
    | jumpDynamic => exact absurd operands (hash_ne_empty target)
    | _ => cases keyword
  | jumpDynamic =>
    cases j with
    | jump other => exact absurd operands.symm (hash_ne_empty other)
    | jumpDynamic => rfl
    | _ => cases keyword
  | pop | write | read | mark | concat | replaceOne => cases j <;> first | rfl | cases keyword

theorem eq_of_text_eq (same : i.text = j.text) : i = j := by
  have parts := congrArg Statement.splitWord same
  rw [splitWord_text, splitWord_text] at parts
  exact eq_of_operands words others (Keyword.text_injective (Prod.mk.inj parts).1)
    (Prod.mk.inj parts).2

end Words

section Checked

variable {i : Instruction} {text : String}

theorem checkedText?_eq_some_iff :
    i.checkedText? = some text ↔ (∀ n ∈ i.offsets, n + 1 < wordLimit) ∧ i.text = text := by
  cases i with
  | swap a b =>
    simp only [checkedText?, Option.bind_eq_bind, Option.bind_eq_some_iff, Option.pure_def,
      Option.some.injEq, Position.ofOffset?_eq_some_iff, offsets, List.forall_mem_cons,
      List.not_mem_nil, false_implies, implies_true, and_true]
    constructor
    · rintro ⟨_, ⟨first, rfl⟩, _, ⟨second, rfl⟩, rfl⟩
      exact ⟨⟨first, second⟩, rfl⟩
    · rintro ⟨⟨first, second⟩, rfl⟩
      exact ⟨_, ⟨first, rfl⟩, _, ⟨second, rfl⟩, rfl⟩
  | copy n =>
    simp only [checkedText?, Option.bind_eq_bind, Option.bind_eq_some_iff, Option.pure_def,
      Option.some.injEq, Position.ofOffset?_eq_some_iff, offsets, List.forall_mem_singleton]
    constructor
    · rintro ⟨_, ⟨only, rfl⟩, rfl⟩
      exact ⟨only, rfl⟩
    · rintro ⟨only, rfl⟩
      exact ⟨_, ⟨only, rfl⟩, rfl⟩
  | _ => simp [checkedText?, offsets]

theorem checkedText?_eq_none_iff (words : ∀ n ∈ i.offsets, n < 2 ^ 64) :
    i.checkedText? = none ↔ 2 ^ 64 - 1 ∈ i.offsets := by
  have limit : wordLimit = 2 ^ 64 := rfl
  rw [Option.eq_none_iff_forall_ne_some]
  simp only [ne_eq, checkedText?_eq_some_iff, not_and]
  constructor
  · intro refused
    by_contra lacks
    refine refused i.text (fun n member => ?_) rfl
    have word := words n member
    have other : n ≠ 2 ^ 64 - 1 := fun last => lacks (last ▸ member)
    omega
  · intro last _ small _
    have beyond := small _ last
    omega

end Checked

/-- The text of an instruction is read as the instruction unless this is a mark, a fixed jump or
has an offset that is too large; these three are read from no line at all. What is read can be
printed with checked additions, which fails among words for the last one only. No two instructions
whose offsets are words have the same text, with or without the checks. -/
theorem text_read_back_and_unshared (i : Instruction) :
    (Statement.parse i.text = .ok (.instruction i) ↔ i.Spelled) ∧
    ((∃ line, Statement.parse line = .ok (.instruction i)) ↔ i.Spelled) ∧
    (i.Spelled → i.checkedText? = some i.text) ∧
    ((∀ n ∈ i.offsets, n < 2 ^ 64) →
      (i.checkedText? = none ↔ 2 ^ 64 - 1 ∈ i.offsets) ∧
      ∀ j : Instruction, (∀ n ∈ j.offsets, n < 2 ^ 64) →
        (i.text = j.text ↔ i = j) ∧
        ∀ text, i.checkedText? = some text → (j.checkedText? = some text ↔ i = j)) := by
  have limit : wordLimit = 2 ^ 64 := rfl
  have fromLine := Statement.readable_iff_exists_line (s := .instruction i)
  rw [← spelled_iff_readable] at fromLine
  refine ⟨⟨fun read => fromLine.2 ⟨_, read⟩, fun spelled => ?_⟩, fromLine.symm, ?_, ?_⟩
  · exact Statement.parse_text (s := .instruction i) (spelled_iff_readable.1 spelled)
  · intro spelled
    refine checkedText?_eq_some_iff.2 ⟨fun n member => ?_, rfl⟩
    have small := spelled.words n member
    omega
  · intro words
    refine ⟨checkedText?_eq_none_iff words, fun j others => ⟨?_, fun text printed => ?_⟩⟩
    · exact ⟨eq_of_text_eq words others, congrArg Instruction.text⟩
    · constructor
      · intro again
        refine eq_of_text_eq words others ?_
        exact (checkedText?_eq_some_iff.1 printed).2.trans (checkedText?_eq_some_iff.1 again).2.symm
      · rintro rfl
        exact printed

/-- The last offset shows as zero: this text is no other instruction's, and is not read at all. -/
theorem text_of_last_offset_unshared :
    let last : Instruction := .copy (2 ^ 64 - 1)
    last.text = "COPY 0" ∧ last.checkedText? = none ∧
      Statement.parse last.text = .error (.zeroIndex .copy) ∧
      last.text ≠ (Instruction.copy 0).text ∧ last.text ≠ (Instruction.swap 0 (2 ^ 64 - 1)).text ∧
      (Instruction.swap 0 (2 ^ 64 - 2)).checkedText? = some "SWAP 1 18446744073709551615" := by
  intro last
  have words : ∀ n ∈ last.offsets, n < 2 ^ 64 := by simp [last, offsets]
  have zero : ∀ n ∈ (Instruction.copy 0).offsets, n < 2 ^ 64 := by simp [offsets]
  have both : ∀ n ∈ (Instruction.swap 0 (2 ^ 64 - 1)).offsets, n < 2 ^ 64 := by simp [offsets]
  obtain ⟨-, -, -, unshared⟩ := text_read_back_and_unshared last
  obtain ⟨refused, unshared⟩ := unshared words
  refine ⟨by decide +kernel, refused.2 (by simp [last, offsets]), by decide +kernel, ?_, ?_, ?_⟩
  · exact fun same => absurd ((unshared _ zero).1.1 same) (by simp [last])
  · exact fun same => absurd ((unshared _ both).1.1 same) (by simp [last])
  · have spelled : (Instruction.swap 0 (2 ^ 64 - 2)).Spelled :=
      ⟨nofun, nofun, by simp [offsets]⟩
    rw [(text_read_back_and_unshared _).2.2.1 spelled]
    decide +kernel

end StringStack.Instruction
