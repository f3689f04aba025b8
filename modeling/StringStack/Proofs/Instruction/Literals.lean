import StringStack.Instruction.Statement
import StringStack.Proofs.Text.Quoted

namespace StringStack

open Text.Quoted

theorem unquote_eq_ok_iff {text value : String} :
    unquote text = .ok value ↔ text = quote value := by
  unfold unquote
  constructor
  · intro read
    split at read
    · next characters decoded =>
      cases read
      rw [quote, String.toList_ofList, encode_of_decode decoded, String.ofList_toList]
    · cases read
    · cases read
  · rintro rfl
    rw [quote, String.toList_ofList, decode_encode]
    simp

theorem unquote_quote (value : String) :
    unquote (quote value) = .ok value := unquote_eq_ok_iff.2 rfl

theorem quote_injective {v w : String} (same : quote v = quote w) : v = w := by
  have read := unquote_quote v
  rw [same, unquote_quote] at read
  cases read
  rfl

section Refusals

variable {text : String}

theorem unquote_of_not_enclosed (openEnded : ¬ Enclosed text.toList) :
    unquote text = .error (.unquotedLiteral text) := by
  rw [unquote, decode_of_not_enclosed openEnded]

theorem unquote_of_odd (enclosed : Enclosed text.toList) (odd : ¬ EvenRuns (inner text.toList)) :
    unquote text = .error (.unescapedQuote text) := by
  rw [unquote, enclosed.decode_of_odd odd]

theorem exists_unquote (enclosed : Enclosed text.toList) (even : EvenRuns (inner text.toList)) :
    ∃ value, unquote text = .ok value := by
  obtain ⟨characters, read⟩ := enclosed.exists_decode even
  exact ⟨String.ofList characters, by rw [unquote, read]⟩

end Refusals

/-- Reading a text gives a value exactly if the text is what the value is written as. The texts that
can be read have two quotes around them and in between only runs of quotes of even length; every
other text is refused, and named in the refusal as a whole. -/
theorem literals_stand_for_values (text value : String) :
    (unquote text = .ok value ↔ quote value = text) ∧
    ((∃ v, unquote text = .ok v) ↔ Enclosed text.toList ∧ EvenRuns (inner text.toList)) ∧
    (unquote text = .error (.unquotedLiteral text) ↔ ¬ Enclosed text.toList) ∧
    (unquote text = .error (.unescapedQuote text) ↔
      Enclosed text.toList ∧ ¬ EvenRuns (inner text.toList)) := by
  refine ⟨unquote_eq_ok_iff.trans eq_comm, ?_⟩
  by_cases enclosed : Enclosed text.toList
  · by_cases even : EvenRuns (inner text.toList)
    · obtain ⟨v, read⟩ := exists_unquote enclosed even
      simp [read, enclosed, even]
    · simp [unquote_of_odd enclosed even, enclosed, even]
  · simp [unquote_of_not_enclosed enclosed, enclosed]

end StringStack
