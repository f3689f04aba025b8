import Mathlib.Data.List.TakeWhile
import StringStack.Instruction.Statement
import StringStack.Proofs.Instruction.Literals
import StringStack.Proofs.Instruction.Positions

namespace StringStack

/-- The offsets that an instruction counts from the head of the stack. -/
def Instruction.offsets : Instruction → List Nat
  | swap a b => [a, b]
  | copy n => [n]
  | _ => []

namespace Statement

def text : Statement → String
  | instruction i => i.text
  | label name => Keyword.label.text ++ " " ++ name
  | jumpTo name => Keyword.jump.text ++ " " ++ name

/-- Marks and fixed jumps have no line of their own, names are not empty, and positions are
words. -/
def Readable : Statement → Prop
  | instruction .mark => False
  | instruction (.jump _) => False
  | instruction (.swap a b) => a + 1 < Text.Decimal.wordLimit ∧ b + 1 < Text.Decimal.wordLimit
  | instruction (.copy n) => n + 1 < Text.Decimal.wordLimit
  | instruction _ => True
  | label name => name ≠ ""
  | jumpTo name => name ≠ ""

theorem readable_instruction {i : Instruction} (unmarked : i ≠ .mark)
    (unfixed : ∀ target, i ≠ .jump target) (words : ∀ n ∈ i.offsets, n ≤ 2 ^ 64 - 2) :
    (instruction i).Readable := by
  have limit : Text.Decimal.wordLimit = 2 ^ 64 := rfl
  cases i with
  | mark => exact unmarked rfl
  | jump target => exact unfixed target rfl
  | swap a b =>
    have first := words a List.mem_cons_self
    have second := words b (List.mem_cons_of_mem a List.mem_cons_self)
    exact ⟨by omega, by omega⟩
  | copy n =>
    have only := words n List.mem_cons_self
    show n + 1 < Text.Decimal.wordLimit
    omega
  | _ => trivial

theorem not_mem_keyword {k : Keyword} {c : Char} (other : c.isUpper = false) :
    c ∉ k.text.toList := by
  have upper : k.text.toList.all Char.isUpper = true := by
    cases k <;> decide
  intro member
  rw [List.all_eq_true.1 upper c member] at other
  cases other

section Words

variable {word : String}

theorem decide_ne_space (clean : ' ' ∉ word.toList) :
    ∀ c ∈ word.toList, decide (c ≠ ' ') = true := by
  intro c member
  exact decide_eq_true fun same => clean (same ▸ member)

theorem splitWord_spaced (clean : ' ' ∉ word.toList) (argument : String) :
    splitWord (word ++ " " ++ argument) = (word, argument) := by
  have inside := decide_ne_space clean
  have characters : (word ++ " " ++ argument).toList = word.toList ++ ' ' :: argument.toList := by
    simp
  rw [splitWord, characters, List.takeWhile_append_of_pos inside,
    List.dropWhile_append_of_pos inside]
  simp

theorem splitWord_alone (clean : ' ' ∉ word.toList) : splitWord word = (word, "") := by
  have inside := decide_ne_space clean
  rw [splitWord, List.takeWhile_eq_self_iff.2 inside, List.dropWhile_eq_nil_iff.2 inside]
  simp

end Words

theorem splitWord_append (k : Keyword) (argument : String) :
    splitWord (k.text ++ " " ++ argument) = (k.text, argument) :=
  splitWord_spaced (not_mem_keyword (by decide)) argument

theorem splitWord_keyword (k : Keyword) : splitWord k.text = (k.text, "") :=
  splitWord_alone (not_mem_keyword (by decide))

theorem parse_eq (line : String) :
    parse line = match Keyword.ofText? (splitWord line).1 with
      | none => .error (.unknownCommand (splitWord line).1)
      | some k => ofKeyword k (splitWord line).2 := rfl

theorem bare_eq_ok_iff {k : Keyword} {i : Instruction} {argument : String} {s : Statement} :
    bare k i argument = .ok s ↔ argument = "" ∧ s = .instruction i := by
  unfold bare
  split
  · next alone => simp [alone, eq_comm]
  · next more => simp [more]

theorem bare_empty (k : Keyword) (i : Instruction) : bare k i "" = .ok (.instruction i) :=
  bare_eq_ok_iff.2 ⟨rfl, rfl⟩

theorem ofKeyword_copy_eq_ok_iff {argument : String} {s : Statement} :
    ofKeyword .copy argument = .ok s ↔
    ∃ n, Position.parse .copy 1 argument = .ok [n] ∧ s = .instruction (.copy n) := by
  constructor
  · intro read
    rw [ofKeyword] at read
    split at read
    · next n parsed =>
      cases read
      exact ⟨n, parsed, rfl⟩
    · cases read
    · cases read
  · rintro ⟨n, parsed, rfl⟩
    simp only [ofKeyword, parsed]

theorem ofKeyword_swap_eq_ok_iff {argument : String} {s : Statement} :
    ofKeyword .swap argument = .ok s ↔
    ∃ a b, Position.parse .swap 2 argument = .ok [a, b] ∧ s = .instruction (.swap a b) := by
  constructor
  · intro read
    rw [ofKeyword] at read
    split at read
    · next a b parsed =>
      cases read
      exact ⟨a, b, parsed, rfl⟩
    · cases read
    · cases read
  · rintro ⟨a, b, parsed, rfl⟩
    simp only [ofKeyword, parsed]

/-- The grammar of a line: what a keyword with its argument stands for. -/
inductive Reads : Keyword → String → Statement → Prop where
  | pop : Reads .pop "" (.instruction .pop)
  | write : Reads .write "" (.instruction .write)
  | read : Reads .read "" (.instruction .read)
  | concat : Reads .concat "" (.instruction .concat)
  | replaceOne : Reads .replaceOne "" (.instruction .replaceOne)
  | jumpDynamic : Reads .jump "" (.instruction .jumpDynamic)
  | push (value : String) : Reads .push (quote value) (.instruction (.push value))
  | swap {p q : String} {a b : Nat} : Position.Names p.toList a → Position.Names q.toList b →
      Reads .swap (p ++ " " ++ q) (.instruction (.swap a b))
  | copy {p : String} {n : Nat} : Position.Names p.toList n → Reads .copy p (.instruction (.copy n))
  | label {name : String} : name ≠ "" → Reads .label name (.label name)
  | jumpTo {name : String} : name ≠ "" → Reads .jump name (.jumpTo name)

theorem ofKeyword_of_reads {k : Keyword} {argument : String} {s : Statement}
    (reads : Reads k argument s) :
    ofKeyword k argument = .ok s := by
  cases reads with
  | pop => exact bare_empty .pop .pop
  | write => exact bare_empty .write .write
  | read => exact bare_empty .read .read
  | concat => exact bare_empty .concat .concat
  | replaceOne => exact bare_empty .replaceOne .replaceOne
  | jumpDynamic => rfl
  | push value =>
    rw [ofKeyword, unquote_quote]
    rfl
  | swap first second =>
    exact ofKeyword_swap_eq_ok_iff.2 ⟨_, _,
      Position.parse_two_iff.2 ⟨_, _, rfl, first, second⟩, rfl⟩
  | copy names => exact ofKeyword_copy_eq_ok_iff.2 ⟨_, Position.parse_one_iff.2 names, rfl⟩
  | label named => rw [ofKeyword, if_neg named]
  | jumpTo named => rw [ofKeyword, if_neg named]

theorem reads_of_bare {k : Keyword} {i : Instruction} {argument : String} {s : Statement}
    (read : bare k i argument = .ok s) (reads : Reads k "" (.instruction i)) :
    Reads k argument s := by
  obtain ⟨rfl, rfl⟩ := bare_eq_ok_iff.1 read
  exact reads

theorem reads_of_ofKeyword {k : Keyword} {argument : String} {s : Statement}
    (read : ofKeyword k argument = .ok s) : Reads k argument s := by
  cases k with
  | pop => exact reads_of_bare read .pop
  | write => exact reads_of_bare read .write
  | read => exact reads_of_bare read .read
  | concat => exact reads_of_bare read .concat
  | replaceOne => exact reads_of_bare read .replaceOne
  | push =>
    rw [ofKeyword] at read
    cases unquoted : unquote argument with
    | error e =>
      rw [unquoted] at read
      cases read
    | ok value =>
      rw [unquoted] at read
      cases read
      obtain rfl := unquote_eq_ok_iff.1 unquoted
      exact .push value
  | swap =>
    obtain ⟨a, b, parsed, rfl⟩ := ofKeyword_swap_eq_ok_iff.1 read
    obtain ⟨p, q, rfl, first, second⟩ := Position.parse_two_iff.1 parsed
    exact .swap first second
  | copy =>
    obtain ⟨n, parsed, rfl⟩ := ofKeyword_copy_eq_ok_iff.1 read
    exact .copy (Position.parse_one_iff.1 parsed)
  | label =>
    rw [ofKeyword] at read
    split at read
    · cases read
    · next named =>
      cases read
      exact .label named
  | jump =>
    rw [ofKeyword] at read
    split at read
    · next alone =>
      cases read
      exact alone ▸ .jumpDynamic
    · next named =>
      cases read
      exact .jumpTo named

theorem parse_eq_ok_iff {line : String} {s : Statement} :
    parse line = .ok s ↔ ∃ k, (splitWord line).1 = Keyword.text k ∧
    Reads k (splitWord line).2 s := by
  rw [parse_eq]
  constructor
  · intro read
    split at read
    · cases read
    · next k found => exact ⟨k, (Keyword.ofText?_eq_some_iff.1 found).symm, reads_of_ofKeyword read⟩
  · rintro ⟨k, word, reads⟩
    rw [word, Keyword.ofText?_eq_some_iff.2 rfl]
    exact ofKeyword_of_reads reads

theorem Reads.parse_append {k : Keyword} {argument : String} {s : Statement}
    (reads : Reads k argument s) :
    parse (k.text ++ " " ++ argument) = .ok s := by
  rw [parse_eq_ok_iff, splitWord_append]
  exact ⟨k, rfl, reads⟩

theorem Reads.parse_keyword {k : Keyword} {s : Statement} (reads : Reads k "" s) :
    parse k.text = .ok s := by
  rw [parse_eq_ok_iff, splitWord_keyword]
  exact ⟨k, rfl, reads⟩

theorem Reads.readable {k : Keyword} {argument : String} {s : Statement}
    (reads : Reads k argument s) :
    s.Readable := by
  cases reads with
  | swap first second => exact ⟨first.2, second.2⟩
  | copy names => exact names.2
  | label named => exact named
  | jumpTo named => exact named
  | _ => trivial

theorem parse_text {s : Statement} (readable : s.Readable) : parse s.text = .ok s := by
  cases s with
  | label name => exact (Reads.label readable).parse_append
  | jumpTo name => exact (Reads.jumpTo readable).parse_append
  | instruction i =>
    cases i with
    | push value => exact (Reads.push value).parse_append
    | pop => exact Reads.pop.parse_keyword
    | write => exact Reads.write.parse_keyword
    | read => exact Reads.read.parse_keyword
    | swap a b =>
      have first := Position.names_toString readable.1
      have second := Position.names_toString readable.2
      exact (Reads.swap first second).parse_append
    | copy n => exact (Reads.copy (Position.names_toString readable)).parse_append
    | mark => exact readable.elim
    | jump target => exact readable.elim
    | jumpDynamic => exact Reads.jumpDynamic.parse_keyword
    | concat => exact Reads.concat.parse_keyword
    | replaceOne => exact Reads.replaceOne.parse_keyword

theorem readable_iff_exists_line {s : Statement} : s.Readable ↔ ∃ line, parse line = .ok s := by
  constructor
  · exact fun readable => ⟨s.text, parse_text readable⟩
  · rintro ⟨line, read⟩
    obtain ⟨k, -, reads⟩ := parse_eq_ok_iff.1 read
    exact reads.readable

def payload : Statement → String
  | instruction (.push value) => value
  | instruction _ => ""
  | label name => name
  | jumpTo name => name

theorem Reads.mem_payload {k : Keyword} {argument : String} {s : Statement} {c : Char}
    (reads : Reads k argument s) (member : c ∈ s.payload.toList) : c ∈ argument.toList := by
  cases reads with
  | push value =>
    rw [quote, String.toList_ofList]
    exact Text.Quoted.mem_encode.2 (.inr member)
  | label named => exact member
  | jumpTo named => exact member
  | _ => simp [payload] at member

theorem mem_of_mem_payload {line : String} {s : Statement} {c : Char} (read : parse line = .ok s)
    (member : c ∈ s.payload.toList) : c ∈ line.toList := by
  obtain ⟨k, -, reads⟩ := parse_eq_ok_iff.1 read
  have in_argument := reads.mem_payload member
  rw [splitWord, String.toList_ofList] at in_argument
  exact (List.dropWhile_sublist _).subset (List.mem_of_mem_drop in_argument)

theorem mem_written {k : Keyword} {argument : String} {c : Char} (letter : c.isUpper = false)
    (member : c ∈ (k.text ++ " " ++ argument).toList) : c = ' ' ∨ c ∈ argument.toList := by
  simp only [String.toList_append, List.mem_append] at member
  rcases member with (in_keyword | space) | in_argument
  · exact absurd in_keyword (not_mem_keyword letter)
  · exact .inl (List.mem_singleton.1 space)
  · exact .inr in_argument

theorem mem_instruction_text {i : Instruction} {c : Char} (letter : c.isUpper = false)
    (member : c ∈ i.text.toList) :
    c = ' ' ∨ ∃ operands, i.operands? = some operands ∧ c ∈ operands.toList := by
  unfold Instruction.text at member
  split at member
  · exact absurd member (not_mem_keyword letter)
  · next operands found =>
    rcases mem_written letter member with space | in_operands
    · exact .inl space
    · exact .inr ⟨operands, found, in_operands⟩

/-- Everything else in the line is a letter, a digit or one of three signs. -/
theorem mem_payload_of_mem_text {s : Statement} {c : Char} (letter : c.isUpper = false)
    (digit : c.isDigit = false) (signs : c ∉ [' ', '\'', '#']) (member : c ∈ s.text.toList) :
    c ∈ s.payload.toList := by
  have not_space : c ≠ ' ' := by
    rintro rfl
    simp at signs
  cases s with
  | label name => exact (mem_written letter member).resolve_left not_space
  | jumpTo name => exact (mem_written letter member).resolve_left not_space
  | instruction i =>
    obtain ⟨operands, found, in_operands⟩ :=
      (mem_instruction_text letter member).resolve_left not_space
    cases i with
    | push value =>
      cases found
      rw [quote, String.toList_ofList] at in_operands
      rcases Text.Quoted.mem_encode.1 in_operands with rfl | in_value
      · simp at signs
      · exact in_value
    | swap a b =>
      cases found
      simp only [String.toList_append, List.mem_append] at in_operands
      rcases in_operands with (in_first | space) | in_second
      · exact absurd in_first (Text.Decimal.not_mem_toString digit)
      · exact absurd (List.mem_singleton.1 space) not_space
      · exact absurd in_second (Text.Decimal.not_mem_toString digit)
    | copy n =>
      cases found
      exact absurd in_operands (Text.Decimal.not_mem_toString digit)
    | jump target =>
      cases found
      rw [String.toList_append, List.mem_append] at in_operands
      rcases in_operands with hash | in_target
      · have same : c = '#' := List.mem_singleton.1 hash
        simp [same] at signs
      · exact absurd in_target (Text.Decimal.not_mem_toString digit)
    | _ => cases found

theorem getLast?_quote (value : String) : (quote value).toList.getLast? = some '\'' := by
  rw [quote, String.toList_ofList, Text.Quoted.encode, ← List.cons_append, List.getLast?_concat]

theorem getLast?_text_instruction (i : Instruction) :
    (text (.instruction i)).toList.getLast? ≠ some '\r' := by
  intro ended
  have member :=
    mem_payload_of_mem_text (by decide) (by decide) (by decide) (List.mem_of_getLast? ended)
  cases i with
  | push value =>
    have quoted : (Keyword.push.text ++ " " ++ quote value).toList.getLast? = some '\'' := by
      rw [String.toList_append, List.getLast?_append, getLast?_quote, Option.some_or]
    cases quoted.symm.trans ended
  | _ => simp [payload] at member

end Statement
end StringStack
