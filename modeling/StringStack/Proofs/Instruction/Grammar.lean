import StringStack.Proofs.Instruction.Written

namespace StringStack

def Keyword.standalone : List Keyword := [.pop, .write, .read, .concat, .replaceOne]

def Keyword.positions? : Keyword → Option Nat
  | .swap => some 2
  | .copy => some 1
  | _ => none

namespace Statement

open Text.Quoted Position

inductive Splits : String → String → String → Prop where
  | spaced {word : String} (argument : String) :
      ' ' ∉ word.toList → Splits (word ++ " " ++ argument) word argument
  | alone {word : String} : ' ' ∉ word.toList → Splits word word ""

theorem Splits.splitWord_eq {line word argument : String} (splits : Splits line word argument) :
    splitWord line = (word, argument) := by
  cases splits with
  | spaced argument clean => exact splitWord_spaced clean argument
  | alone clean => exact splitWord_alone clean

theorem exists_splits (line : String) : ∃ word argument, Splits line word argument := by
  by_cases spaced : ' ' ∈ line.toList
  · obtain ⟨word, argument, whole, clean⟩ := List.eq_append_cons_of_mem spaced
    have parts : line = String.ofList word ++ " " ++ String.ofList argument := by
      apply String.toList_injective
      simpa using whole
    refine ⟨String.ofList word, String.ofList argument, parts ▸ .spaced _ ?_⟩
    rwa [String.toList_ofList]
  · exact ⟨line, "", .alone spaced⟩

/-- What the rule of a keyword says against an argument. -/
inductive Refuses : Keyword → String → SyntaxError → Prop where
  | unexpectedArgument {k : Keyword} {argument : String} : k ∈ Keyword.standalone → argument ≠ "" →
      Refuses k argument (.unexpectedArgument k argument)
  | unquotedLiteral {argument : String} : ¬ Enclosed argument.toList →
      Refuses .push argument (.unquotedLiteral argument)
  | unescapedQuote {argument : String} :
      Enclosed argument.toList → ¬ EvenRuns (inner argument.toList) →
      Refuses .push argument (.unescapedQuote argument)
  | zeroIndex {k : Keyword} {count : Nat} {argument : String} : k.positions? = some count →
      ZeroFirst count (argument.toList.splitOn ' ') → Refuses k argument (.zeroIndex k)
  | invalidIndices {k : Keyword} {count : Nat} {argument : String} : k.positions? = some count →
      ¬ ZeroFirst count (argument.toList.splitOn ' ') → (∀ s, ¬ Reads k argument s) →
        Refuses k argument (.invalidIndices k count argument)
  | emptyLabel : Refuses .label "" .emptyLabel

section Rules

variable {k : Keyword} {argument : String}

theorem bare_of_ne_empty {i : Instruction} (more : argument ≠ "") :
    bare k i argument = .error (.unexpectedArgument k argument) := if_neg more

theorem ofKeyword_standalone (alone : k ∈ Keyword.standalone) :
    ∃ i, ∀ argument, ofKeyword k argument = bare k i argument := by
  cases k with
  | pop => exact ⟨.pop, fun _ => rfl⟩
  | write => exact ⟨.write, fun _ => rfl⟩
  | read => exact ⟨.read, fun _ => rfl⟩
  | concat => exact ⟨.concat, fun _ => rfl⟩
  | replaceOne => exact ⟨.replaceOne, fun _ => rfl⟩
  | _ => simp [Keyword.standalone] at alone

section Positions

variable {count : Nat} (asks : k.positions? = some count)
include asks

theorem ofKeyword_of_parse_error {e : SyntaxError}
    (refused : Position.parse k count argument = .error e) :
    ofKeyword k argument = .error e := by
  cases k with
  | swap =>
    cases asks
    simp only [ofKeyword, refused]
  | copy =>
    cases asks
    simp only [ofKeyword, refused]
  | _ => cases asks

theorem exists_reads_of_parse {ns : List Nat} (read : Position.parse k count argument = .ok ns) :
    ∃ s, Reads k argument s := by
  have size := (Position.parse_eq_ok_iff.1 read).1
  cases k with
  | swap =>
    cases asks
    obtain ⟨a, b, rfl⟩ := List.length_eq_two.1 size
    obtain ⟨p, q, rfl, first, second⟩ := Position.parse_two_iff.1 read
    exact ⟨_, .swap first second⟩
  | copy =>
    cases asks
    obtain ⟨n, rfl⟩ := List.length_eq_one_iff.1 size
    exact ⟨_, .copy (Position.parse_one_iff.1 read)⟩
  | _ => cases asks

theorem ofKeyword_eq_error_iff_parse {e : SyntaxError} :
    ofKeyword k argument = .error e ↔ Position.parse k count argument = .error e := by
  refine ⟨fun refused => ?_, ofKeyword_of_parse_error asks⟩
  cases read : Position.parse k count argument with
  | ok ns =>
    obtain ⟨s, reads⟩ := exists_reads_of_parse asks read
    cases (ofKeyword_of_reads reads).symm.trans refused
  | error other =>
    cases (ofKeyword_of_parse_error asks read).symm.trans refused
    rfl

end Positions

theorem ofKeyword_of_refuses {e : SyntaxError} (refuses : Refuses k argument e) :
    ofKeyword k argument = .error e := by
  cases refuses with
  | unexpectedArgument alone more =>
    obtain ⟨i, rule⟩ := ofKeyword_standalone alone
    rw [rule, bare_of_ne_empty more]
  | unquotedLiteral openEnded =>
    rw [ofKeyword, unquote_of_not_enclosed openEnded]
    rfl
  | unescapedQuote enclosed odd =>
    rw [ofKeyword, unquote_of_odd enclosed odd]
    rfl
  | zeroIndex asks zeroFirst => exact ofKeyword_of_parse_error asks (parse_of_zeroFirst zeroFirst)
  | invalidIndices asks zeroFirst unread =>
    refine ofKeyword_of_parse_error asks (parse_of_invalid zeroFirst fun ns read => ?_)
    obtain ⟨s, reads⟩ := exists_reads_of_parse asks read
    exact unread s reads
  | emptyLabel => rfl

theorem refuses_standalone (alone : k ∈ Keyword.standalone) (unread : ∀ s, ¬ Reads k argument s) :
    Refuses k argument (.unexpectedArgument k argument) := by
  obtain ⟨i, rule⟩ := ofKeyword_standalone alone
  refine .unexpectedArgument alone fun empty => unread (.instruction i) (reads_of_ofKeyword ?_)
  rw [rule, empty, bare_empty]

theorem exists_refuses_push (unread : ∀ s, ¬ Reads .push argument s) :
    ∃ e, Refuses .push argument e := by
  by_cases enclosed : Enclosed argument.toList
  · refine ⟨_, .unescapedQuote enclosed fun even => ?_⟩
    obtain ⟨value, read⟩ := exists_unquote enclosed even
    obtain rfl := unquote_eq_ok_iff.1 read
    exact unread _ (.push value)
  · exact ⟨_, .unquotedLiteral enclosed⟩

theorem exists_refuses_positions {count : Nat} (asks : k.positions? = some count)
    (unread : ∀ s, ¬ Reads k argument s) : ∃ e, Refuses k argument e := by
  by_cases zeroFirst : ZeroFirst count (argument.toList.splitOn ' ')
  · exact ⟨_, .zeroIndex asks zeroFirst⟩
  · exact ⟨_, .invalidIndices asks zeroFirst unread⟩

theorem exists_refuses (unread : ∀ s, ¬ Reads k argument s) : ∃ e, Refuses k argument e := by
  cases k with
  | pop | write | read | concat | replaceOne => exact ⟨_, refuses_standalone (by decide) unread⟩
  | push => exact exists_refuses_push unread
  | swap | copy => exact exists_refuses_positions rfl unread
  | label =>
    obtain rfl : argument = "" := not_not.1 fun named => unread _ (.label named)
    exact ⟨_, .emptyLabel⟩
  | jump =>
    obtain rfl : argument = "" := not_not.1 fun named => unread _ (.jumpTo named)
    exact absurd .jumpDynamic (unread _)

theorem ofKeyword_eq_error_iff {e : SyntaxError} :
    ofKeyword k argument = .error e ↔ Refuses k argument e := by
  refine ⟨fun refused => ?_, ofKeyword_of_refuses⟩
  have unread : ∀ s, ¬ Reads k argument s := by
    intro s reads
    cases (ofKeyword_of_reads reads).symm.trans refused
  obtain ⟨other, refuses⟩ := exists_refuses unread
  cases (ofKeyword_of_refuses refuses).symm.trans refused
  exact refuses

end Rules

/-- With an argument split at its spaces, as many positions as are asked for are read as their
offsets. A zero among the parts that are asked for, with positions only in front of it, is reported
as such, whatever comes behind it. All other arguments are invalid. `COPY` asks for one position and
`SWAP` for two, and they refuse what is no such position. -/
theorem positions_classified (argument : String) :
    (∀ k count,
      (∀ ns, Position.parse k count argument = .ok ns ↔
        ns.length = count ∧ List.Forall₂ Names (argument.toList.splitOn ' ') ns) ∧
      (Position.parse k count argument = .error (.zeroIndex k) ↔
        ZeroFirst count (argument.toList.splitOn ' ')) ∧
      (Position.parse k count argument = .error (.invalidIndices k count argument) ↔
        ¬ ZeroFirst count (argument.toList.splitOn ' ') ∧
          ¬ ((argument.toList.splitOn ' ').length = count ∧
            ∀ part ∈ argument.toList.splitOn ' ', ∃ n, Names part n))) ∧
    (∀ s, ofKeyword .copy argument = .ok s ↔
      ∃ n, Position.parse .copy 1 argument = .ok [n] ∧ s = .instruction (.copy n)) ∧
    (∀ s, ofKeyword .swap argument = .ok s ↔
      ∃ a b, Position.parse .swap 2 argument = .ok [a, b] ∧ s = .instruction (.swap a b)) ∧
    (∀ e, ofKeyword .copy argument = .error e ↔ Position.parse .copy 1 argument = .error e) ∧
    ∀ e, ofKeyword .swap argument = .error e ↔ Position.parse .swap 2 argument = .error e := by
  refine ⟨fun k count => ⟨fun ns => Position.parse_eq_ok_iff, parse_eq_zeroIndex_iff, ?_⟩,
    fun s => ofKeyword_copy_eq_ok_iff, fun s => ofKeyword_swap_eq_ok_iff,
    fun e => ofKeyword_eq_error_iff_parse rfl, fun e => ofKeyword_eq_error_iff_parse rfl⟩
  rw [parse_eq_invalidIndices_iff, ← exists_parse_eq_ok_iff, not_exists]

theorem parse_eq_error_iff {line : String} {e : SyntaxError} : parse line = .error e ↔
    (∀ k : Keyword, (splitWord line).1 ≠ k.text) ∧ e = .unknownCommand (splitWord line).1 ∨
      ∃ k : Keyword, (splitWord line).1 = k.text ∧ Refuses k (splitWord line).2 e := by
  rw [parse_eq]
  constructor
  · intro refused
    split at refused
    · next unknown =>
      cases refused
      refine .inl ⟨fun k known => ?_, rfl⟩
      cases unknown.symm.trans (Keyword.ofText?_eq_some_iff.2 known.symm)
    · next k known =>
        exact .inr ⟨k, (Keyword.ofText?_eq_some_iff.1 known).symm, ofKeyword_eq_error_iff.1 refused⟩
  · rintro (⟨unknown, rfl⟩ | ⟨k, known, refuses⟩)
    · split
      · rfl
      · next k known => exact absurd (Keyword.ofText?_eq_some_iff.1 known).symm (unknown k)
    · rw [known, Keyword.ofText?_eq_some_iff.2 rfl]
      exact ofKeyword_of_refuses refuses

/-- A line has one word before its first space and one argument behind it, and what is read from it
is decided by these two: a statement if the word is a keyword and the grammar gives one for this
keyword and this argument, an error about the word if it is no keyword, and otherwise the error by
which the rule of the keyword refuses the argument. -/
theorem line_read_or_refused (line : String) : ∃ word argument, Splits line word argument ∧
    (∀ s, parse line = .ok s ↔ ∃ k : Keyword, word = k.text ∧ Reads k argument s) ∧
    ∀ e, parse line = .error e ↔
      (∀ k : Keyword, word ≠ k.text) ∧ e = .unknownCommand word ∨
        ∃ k : Keyword, word = k.text ∧ Refuses k argument e := by
  obtain ⟨word, argument, splits⟩ := exists_splits line
  refine ⟨word, argument, splits, fun s => ?_, fun e => ?_⟩
  · rw [parse_eq_ok_iff, splits.splitWord_eq]
  · rw [parse_eq_error_iff, splits.splitWord_eq]

example : parse "SWAP 0 x" = .error (.zeroIndex .swap) ∧
    parse "SWAP x 0" = .error (.invalidIndices .swap 2 "x 0") := by decide

end Statement
end StringStack
