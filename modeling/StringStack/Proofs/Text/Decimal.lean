import Mathlib.Algebra.Group.Nat.Defs
import StringStack.Text.Decimal

namespace StringStack.Text.Decimal

/-- A run of ASCII digits and its value; there may be zeros in front. -/
structure Numeral (text : List Char) (value : Nat) : Prop where
  filled : text ≠ []
  digits : ∀ c ∈ text, c.isDigit = true
  value_eq : Nat.ofDigitChars 10 text 0 = value

theorem natural?_eq_some_iff {text : List Char} {n : Nat} :
    natural? text = some n ↔ Numeral text n := by
  unfold natural?
  constructor
  · intro read
    split at read
    · next run =>
      cases read
      exact ⟨run.1, List.all_eq_true.1 run.2, rfl⟩
    · cases read
  · rintro ⟨filled, digits, rfl⟩
    rw [if_pos ⟨filled, List.all_eq_true.2 digits⟩]

theorem Numeral.not_mem {text : List Char} {n : Nat} {c : Char} (numeral : Numeral text n)
    (other : c.isDigit = false) : c ∉ text := by
  intro member
  rw [numeral.digits c member] at other
  cases other

theorem numeral_toString (n : Nat) : Numeral (toString n).toList n := by
  rw [Nat.toString_eq_ofList_toDigits, String.toList_ofList]
  refine ⟨Nat.toDigits_ne_nil, fun c member => ?_, Nat.ofDigitChars_ten_toDigits⟩
  exact Nat.isDigit_of_mem_toDigits (by decide) (by decide) member

theorem toString_injective {m n : Nat} (same : toString m = toString n) : m = n := by
  have value := (numeral_toString m).value_eq
  rwa [same, (numeral_toString n).value_eq, eq_comm] at value

theorem not_mem_toString {n : Nat} {c : Char} (other : c.isDigit = false) :
    c ∉ (toString n).toList :=
  (numeral_toString n).not_mem other

inductive IsWord : List Char → Nat → Prop where
  | plain {digits : List Char} {n : Nat} : Numeral digits n → n < 2 ^ 64 → IsWord digits n
  | signed {digits : List Char} {n : Nat} : Numeral digits n → n < 2 ^ 64 → IsWord ('+' :: digits) n

/-- After digits that go on from this value, the first character that is no digit or takes the value
too high. -/
inductive Stops (value : Nat) : List Char → Fault → Prop where
  | invalidDigit {run rest : List Char} {c : Char} : (∀ d ∈ run, d.isDigit = true) →
      Nat.ofDigitChars 10 run value < 2 ^ 64 → c.isDigit = false →
        Stops value (run ++ c :: rest) .invalidDigit
  | tooLarge {run rest : List Char} {c : Char} : (∀ d ∈ run, d.isDigit = true) →
      Nat.ofDigitChars 10 run value < 2 ^ 64 → c.isDigit = true →
        2 ^ 64 ≤ Nat.ofDigitChars 10 (run ++ [c]) value → Stops value (run ++ c :: rest) .tooLarge

inductive NoWord : List Char → Fault → Prop where
  | empty : NoWord [] .empty
  | sign : NoWord ['+'] .invalidDigit
  | plain {text : List Char} {fault : Fault} :
      text.head? ≠ some '+' → Stops 0 text fault → NoWord text fault
  | signed {text : List Char} {fault : Fault} : Stops 0 text fault → NoWord ('+' :: text) fault

theorem le_ofDigitChars (text : List Char) (value : Nat) :
    value ≤ Nat.ofDigitChars 10 text value := by
  rw [Nat.ofDigitChars_eq_ofDigitChars_zero]
  have scaled : value ≤ 10 ^ text.length * value :=
    Nat.le_mul_of_pos_left value (Nat.pow_pos (by decide))
  omega

section Reading

variable {value n : Nat} {text : List Char} {fault : Fault}

theorem not_stops_nil : ¬ Stops value [] fault := by
  intro stops
  generalize whole : ([] : List Char) = text at stops
  cases stops with
  | @invalidDigit run => cases run <;> cases whole
  | @tooLarge run => cases run <;> cases whole

theorem stops_cons_iff {c : Char} {rest : List Char} (small : value < 2 ^ 64) :
    Stops value (c :: rest) fault ↔
      (c.isDigit = false ∧ fault = .invalidDigit) ∨
      c.isDigit = true ∧
        ((2 ^ 64 ≤ 10 * value + (c.toNat - '0'.toNat) ∧ fault = .tooLarge) ∨
          10 * value + (c.toNat - '0'.toNat) < 2 ^ 64 ∧
          Stops (10 * value + (c.toNat - '0'.toNat)) rest fault) := by
  constructor
  · intro stops
    generalize whole : c :: rest = text at stops
    cases stops with
    | @invalidDigit run rest' c' digits bounded other =>
      cases run with
      | nil =>
        cases whole
        exact .inl ⟨other, rfl⟩
      | cons d run =>
        cases whole
        obtain ⟨digit, digits⟩ := List.forall_mem_cons.1 digits
        rw [Nat.ofDigitChars_cons] at bounded
        exact .inr ⟨digit, .inr ⟨Nat.lt_of_le_of_lt (le_ofDigitChars run _) bounded,
          .invalidDigit digits bounded other⟩⟩
    | @tooLarge run rest' c' digits bounded digit' large =>
      cases run with
      | nil =>
        cases whole
        exact .inr ⟨digit', .inl ⟨large, rfl⟩⟩
      | cons d run =>
        cases whole
        obtain ⟨digit, digits⟩ := List.forall_mem_cons.1 digits
        rw [Nat.ofDigitChars_cons] at bounded
        rw [List.cons_append, Nat.ofDigitChars_cons] at large
        exact .inr ⟨digit, .inr ⟨Nat.lt_of_le_of_lt (le_ofDigitChars run _) bounded,
          .tooLarge digits bounded digit' large⟩⟩
  · rintro (⟨other, rfl⟩ | ⟨digit, ⟨large, rfl⟩ | ⟨-, stops⟩⟩)
    · exact @Stops.invalidDigit value [] rest c nofun small other
    · exact @Stops.tooLarge value [] rest c nofun small digit large
    · cases stops with
      | @invalidDigit run rest d digits bounded other =>
        exact @Stops.invalidDigit value (c :: run) rest d
          (List.forall_mem_cons.2 ⟨digit, digits⟩) bounded other
      | @tooLarge run rest d digits bounded digit' large =>
        exact @Stops.tooLarge value (c :: run) rest d
          (List.forall_mem_cons.2 ⟨digit, digits⟩) bounded digit' large

theorem readDigits_eq_ok_iff (small : value < 2 ^ 64) :
    readDigits value text = .ok n ↔
      (∀ c ∈ text, c.isDigit = true) ∧ Nat.ofDigitChars 10 text value = n ∧ n < 2 ^ 64 := by
  have limit : wordLimit = 2 ^ 64 := rfl
  induction text generalizing value with
  | nil =>
    rw [readDigits, Except.ok.injEq, Nat.ofDigitChars_nil]
    constructor
    · rintro rfl
      exact ⟨nofun, rfl, small⟩
    · exact fun read => read.2.1
  | cons c rest ih =>
    rw [readDigits, List.forall_mem_cons, Nat.ofDigitChars_cons, limit]
    by_cases digit : c.isDigit = true
    · rw [if_pos digit]
      by_cases inside : 10 * value + (c.toNat - '0'.toNat) < 2 ^ 64
      · simp only [if_pos inside, ih inside, digit, true_and]
      · simp only [if_neg inside]
        have grown := le_ofDigitChars rest (10 * value + (c.toNat - '0'.toNat))
        refine iff_of_false nofun ?_
        rintro ⟨-, rfl, bounded⟩
        omega
    · rw [if_neg digit]
      exact iff_of_false nofun fun read => digit read.1.1

theorem readDigits_eq_error_iff (small : value < 2 ^ 64) :
    readDigits value text = .error fault ↔ Stops value text fault := by
  have limit : wordLimit = 2 ^ 64 := rfl
  induction text generalizing value with
  | nil => exact iff_of_false nofun not_stops_nil
  | cons c rest ih =>
    rw [readDigits, limit, stops_cons_iff small]
    generalize 10 * value + (c.toNat - '0'.toNat) = extended
    by_cases digit : c.isDigit = true
    · rw [if_pos digit]
      by_cases inside : extended < 2 ^ 64
      · rw [if_pos inside]
        refine (ih inside).trans ?_
        simp only [digit, Nat.not_le.2 inside, inside, Bool.true_eq_false, false_and, false_or,
          true_and]
      · rw [if_neg inside, Except.error.injEq]
        simp only [digit, inside, Nat.not_lt.1 inside, Bool.true_eq_false, false_and, false_or,
          or_false, true_and]
        exact eq_comm
    · rw [if_neg digit]
      simp only [Bool.not_eq_true] at digit
      simp only [digit, Bool.false_eq_true, false_and, or_false, true_and, Except.error.injEq]
      exact eq_comm

theorem readDigits_eq_ok_iff_numeral (filled : text ≠ []) :
    readDigits 0 text = .ok n ↔ Numeral text n ∧ n < 2 ^ 64 := by
  rw [readDigits_eq_ok_iff (by decide)]
  constructor
  · rintro ⟨digits, value, bounded⟩
    exact ⟨⟨filled, digits, value⟩, bounded⟩
  · rintro ⟨⟨-, digits, value⟩, bounded⟩
    exact ⟨digits, value, bounded⟩

theorem word_of_ne_plus {c : Char} (other : c ≠ '+') (rest : List Char) :
    word (c :: rest) = readDigits 0 (c :: rest) := by
  unfold word
  split
  · next none => cases none
  · next sign => exact absurd (List.cons.inj sign).1 other
  · next sign => exact absurd (List.cons.inj sign).1 other
  · rfl

theorem word_eq_ok_iff : word text = .ok n ↔ IsWord text n := by
  cases text with
  | nil =>
    refine iff_of_false nofun ?_
    rintro (⟨numeral, -⟩ | _)
    exact numeral.filled rfl
  | cons c rest =>
    by_cases plus : c = '+'
    · subst plus
      have unsigned : IsWord ('+' :: rest) n ↔ Numeral rest n ∧ n < 2 ^ 64 := by
        constructor
        · rintro (⟨numeral, -⟩ | ⟨numeral, bounded⟩)
          · exact absurd List.mem_cons_self (numeral.not_mem (c := '+') (by decide))
          · exact ⟨numeral, bounded⟩
        · rintro ⟨numeral, bounded⟩
          exact .signed numeral bounded
      rw [unsigned]
      cases rest with
      | nil => exact iff_of_false nofun fun read => read.1.filled rfl
      | cons d rest => exact readDigits_eq_ok_iff_numeral (List.cons_ne_nil d rest)
    · rw [word_of_ne_plus plus, readDigits_eq_ok_iff_numeral (List.cons_ne_nil c rest)]
      constructor
      · rintro ⟨numeral, bounded⟩
        exact .plain numeral bounded
      · rintro (⟨numeral, bounded⟩ | _)
        · exact ⟨numeral, bounded⟩
        · exact absurd rfl plus

theorem word_eq_error_iff : word text = .error fault ↔ NoWord text fault := by
  have zero : 0 < 2 ^ 64 := by decide
  cases text with
  | nil =>
    constructor
    · rintro ⟨⟩
      exact .empty
    · rintro (_ | _ | ⟨-, stops⟩ | _)
      · rfl
      · exact absurd stops not_stops_nil
  | cons c rest =>
    by_cases plus : c = '+'
    · subst plus
      cases rest with
      | nil =>
        constructor
        · rintro ⟨⟩
          exact .sign
        · rintro (_ | _ | ⟨other, -⟩ | stops)
          · rfl
          · exact absurd rfl other
          · exact absurd stops not_stops_nil
      | cons d rest =>
        have read : readDigits 0 (d :: rest) = .error fault ↔ _ := readDigits_eq_error_iff zero
        constructor
        · exact fun failed => .signed (read.1 failed)
        · rintro (_ | _ | ⟨other, -⟩ | stops)
          · exact absurd rfl other
          · exact read.2 stops
    · rw [word_of_ne_plus plus, readDigits_eq_error_iff zero]
      constructor
      · intro stops
        exact .plain (by simpa using plus) stops
      · rintro (_ | _ | ⟨-, stops⟩ | _)
        · exact absurd rfl plus
        · exact stops
        · exact absurd rfl plus

end Reading

end StringStack.Text.Decimal
