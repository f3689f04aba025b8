import Mathlib.Algebra.Group.Nat.Defs
import Mathlib.Data.List.Forall2
import StringStack.Instruction.Statement
import StringStack.Proofs.Text.Decimal

/-! Written positions. A position is a run of digits and counts from one, so the numeral of an
offset is the next one above it. Positions are read from the left, and the first that is none
decides what is wrong with all of them. -/
namespace StringStack.Position

open Text.Decimal

def Names (part : List Char) (n : Nat) : Prop := Numeral part (n + 1) ∧ n + 1 < 2 ^ 64

theorem ofText_eq_offset_iff {part : List Char} {n : Nat} :
    Part.ofText part = .offset n ↔ Names part n := by
  have limit : wordLimit = 2 ^ 64 := rfl
  rw [Names, ← natural?_eq_some_iff, ← limit]
  unfold Part.ofText
  constructor
  · intro read
    split at read
    · cases read
    · cases read
    · next found =>
      split at read
      · next small =>
        cases read
        exact ⟨found, small⟩
      · cases read
  · rintro ⟨found, small⟩
    rw [found]
    exact if_pos small

theorem ofText_eq_zero_iff {part : List Char} : Part.ofText part = .zero ↔ Numeral part 0 := by
  rw [← natural?_eq_some_iff]
  unfold Part.ofText
  constructor
  · intro read
    split at read
    · cases read
    · next found => exact found
    · split at read
      · cases read
      · cases read
  · intro found
    rw [found]

theorem ofOffset_of_lt {n : Nat} (small : n + 1 < wordLimit) :
    ofOffset n = n + 1 := Nat.mod_eq_of_lt small

/-- Words wrap around, and so a position has one offset only, the last one included. -/
theorem ofOffset_injective {a b : Nat} (first : a < wordLimit) (second : b < wordLimit)
    (same : ofOffset a = ofOffset b) : a = b := by
  have limit : wordLimit = 2 ^ 64 := rfl
  rw [ofOffset, ofOffset, limit] at same
  omega

theorem ofOffset?_eq_some_iff {n k : Nat} :
    ofOffset? n = some k ↔ n + 1 < wordLimit ∧ ofOffset n = k := by
  unfold ofOffset?
  split
  · next small => rw [Option.some.injEq, ofOffset_of_lt small, and_iff_right small]
  · next large => exact iff_of_false nofun fun both => large both.1

theorem names_toString {n : Nat} (small : n + 1 < wordLimit) :
    Names (toString (ofOffset n)).toList n := by
  rw [ofOffset_of_lt small]
  exact ⟨numeral_toString (n + 1), small⟩

theorem Names.not_mem_space {part : List Char} {n : Nat} (names : Names part n) : ' ' ∉ part :=
  names.1.not_mem (by decide)

section Offsets

variable {count : Nat} {part : List Char} {rest parts : List (List Char)} {ns : List Nat}

theorem offsets_cons_eq_ok_iff : offsets (count + 1) (part :: rest) = .ok ns ↔
    ∃ n others, Names part n ∧ offsets count rest = .ok others ∧ ns = n :: others := by
  simp only [← ofText_eq_offset_iff]
  rw [offsets]
  cases Part.ofText part with
  | malformed => simp
  | zero => simp
  | offset n =>
    cases offsets count rest with
    | error fault => simp
    | ok others => simp [eq_comm]

theorem offsets_cons_eq_zero_iff : offsets (count + 1) (part :: rest) = .error .zero ↔
    Numeral part 0 ∨ (∃ n, Names part n) ∧ offsets count rest = .error .zero := by
  simp only [← ofText_eq_offset_iff, ← ofText_eq_zero_iff]
  rw [offsets]
  cases Part.ofText part with
  | malformed => simp
  | zero => simp
  | offset n =>
    cases offsets count rest with
    | error fault => simp
    | ok others => simp

theorem offsets_eq_ok_iff :
    offsets count parts = .ok ns ↔ ns.length = count ∧ List.Forall₂ Names parts ns := by
  induction count generalizing parts ns with
  | zero =>
    cases parts with
    | nil => cases ns <;> simp [offsets]
    | cons part rest => cases ns <;> simp [offsets]
  | succ count ih =>
    cases parts with
    | nil => cases ns <;> simp [offsets]
    | cons part rest =>
      rw [offsets_cons_eq_ok_iff]
      cases ns with
      | nil => simp
      | cons n ns =>
        rw [List.forall₂_cons, List.length_cons, Nat.add_right_cancel_iff]
        constructor
        · rintro ⟨_, _, names, read, ⟨⟩⟩
          obtain ⟨size, named⟩ := ih.1 read
          exact ⟨size, names, named⟩
        · rintro ⟨size, names, named⟩
          exact ⟨n, ns, names, ih.2 ⟨size, named⟩, rfl⟩

/-- Among the first parts, as many as are asked for, there is a zero, and before it stand positions
only. -/
def ZeroFirst (count : Nat) (parts : List (List Char)) : Prop :=
  ∃ (good : List (List Char)) (zero : List Char) (rest : List (List Char)),
    parts = good ++ zero :: rest ∧ good.length < count ∧
      (∀ part ∈ good, ∃ n, Names part n) ∧ Numeral zero 0

theorem zeroFirst_cons_iff : ZeroFirst (count + 1) (part :: rest) ↔
    Numeral part 0 ∨ (∃ n, Names part n) ∧ ZeroFirst count rest := by
  constructor
  · rintro ⟨good, zero, others, whole, early, named, isZero⟩
    cases good with
    | nil =>
      cases whole
      exact .inl isZero
    | cons first good =>
      cases whole
      obtain ⟨first, named⟩ := List.forall_mem_cons.1 named
      exact .inr ⟨first, good, zero, others, rfl, Nat.lt_of_succ_lt_succ early, named, isZero⟩
  · rintro (isZero | ⟨first, good, zero, others, rfl, early, named, isZero⟩)
    · exact ⟨[], part, rest, rfl, Nat.succ_pos count, nofun, isZero⟩
    · exact ⟨part :: good, zero, others, rfl, Nat.succ_lt_succ early,
        List.forall_mem_cons.2 ⟨first, named⟩, isZero⟩

theorem offsets_eq_zero_iff : offsets count parts = .error .zero ↔ ZeroFirst count parts := by
  induction count generalizing parts with
  | zero =>
    have none : ¬ ZeroFirst 0 parts := by
      rintro ⟨good, _, _, _, early, _⟩
      exact Nat.not_lt_zero good.length early
    cases parts with
    | nil => exact iff_of_false nofun none
    | cons part rest => exact iff_of_false nofun none
  | succ count ih =>
    cases parts with
    | nil =>
      refine iff_of_false nofun ?_
      rintro ⟨good, zero, rest, whole, _⟩
      cases good <;> cases whole
    | cons part rest => rw [offsets_cons_eq_zero_iff, zeroFirst_cons_iff, ih]

end Offsets

theorem exists_forall₂_iff {parts : List (List Char)} :
    (∃ ns, List.Forall₂ Names parts ns) ↔ ∀ part ∈ parts, ∃ n, Names part n := by
  induction parts with
  | nil => exact iff_of_true ⟨[], .nil⟩ nofun
  | cons part rest ih =>
    rw [List.forall_mem_cons, ← ih]
    constructor
    · rintro ⟨_, named⟩
      cases named with
      | cons first others => exact ⟨⟨_, first⟩, _, others⟩
    · rintro ⟨⟨n, first⟩, ns, others⟩
      exact ⟨n :: ns, .cons first others⟩

section Arguments

variable {k : Keyword} {count : Nat} {argument : String} {ns : List Nat}

theorem parse_eq_ok_iff : parse k count argument = .ok ns ↔
    ns.length = count ∧ List.Forall₂ Names (argument.toList.splitOn ' ') ns := by
  rw [← offsets_eq_ok_iff]
  unfold parse
  cases offsets count (argument.toList.splitOn ' ') with
  | error fault => exact iff_of_false nofun nofun
  | ok ms => simp [Except.mapError]

theorem parse_of_zeroFirst (zeroFirst : ZeroFirst count (argument.toList.splitOn ' ')) :
    parse k count argument = .error (.zeroIndex k) := by
  rw [parse, offsets_eq_zero_iff.2 zeroFirst]
  rfl

theorem parse_of_invalid (zeroFirst : ¬ ZeroFirst count (argument.toList.splitOn ' '))
    (unread : ∀ ns, parse k count argument ≠ .ok ns) :
    parse k count argument = .error (.invalidIndices k count argument) := by
  unfold parse at unread ⊢
  cases result : offsets count (argument.toList.splitOn ' ') with
  | ok ns => exact absurd (by rw [result]; rfl) (unread ns)
  | error fault =>
    cases fault with
    | invalid => rfl
    | zero => exact absurd (offsets_eq_zero_iff.1 result) zeroFirst

theorem parse_eq_zeroIndex_iff :
    parse k count argument = .error (.zeroIndex k) ↔
      ZeroFirst count (argument.toList.splitOn ' ') := by
  refine ⟨fun refused => not_not.1 fun zeroFirst => ?_, parse_of_zeroFirst⟩
  have unread : ∀ ns, parse k count argument ≠ .ok ns := by
    intro ns read
    cases read.symm.trans refused
  cases (parse_of_invalid zeroFirst unread).symm.trans refused

theorem exists_parse_eq_ok_iff : (∃ ns, parse k count argument = .ok ns) ↔
    (argument.toList.splitOn ' ').length = count ∧
    ∀ part ∈ argument.toList.splitOn ' ', ∃ n, Names part n := by
  simp only [parse_eq_ok_iff, ← exists_forall₂_iff]
  constructor
  · rintro ⟨ns, size, named⟩
    exact ⟨named.length_eq.trans size, ns, named⟩
  · rintro ⟨size, ns, named⟩
    exact ⟨ns, named.length_eq.symm.trans size, named⟩

theorem parse_eq_invalidIndices_iff :
    parse k count argument = .error (.invalidIndices k count argument) ↔
    ¬ ZeroFirst count (argument.toList.splitOn ' ') ∧ ∀ ns, parse k count argument ≠ .ok ns := by
  constructor
  · intro refused
    refine ⟨fun zeroFirst => ?_, fun ns read => ?_⟩
    · cases (parse_of_zeroFirst zeroFirst).symm.trans refused
    · cases read.symm.trans refused
  · rintro ⟨zeroFirst, unread⟩
    exact parse_of_invalid zeroFirst unread

theorem forall₂_names_splitOn_iff {text : List Char} (filled : ns ≠ []) :
    List.Forall₂ Names (text.splitOn ' ') ns ↔
      ∃ parts, text = [' '].intercalate parts ∧ List.Forall₂ Names parts ns := by
  constructor
  · intro named
    exact ⟨_, (List.intercalate_splitOn ' ').symm, named⟩
  · rintro ⟨parts, rfl, named⟩
    have clean : List.Forall₂ (fun part n => ' ' ∉ part ∧ Names part n) parts ns :=
      named.imp fun _ _ names => ⟨names.not_mem_space, names⟩
    have some : parts ≠ [] := by
      rintro rfl
      cases named
      exact filled rfl
    rwa [List.splitOn_intercalate ' ' ((List.forall₂_and_left _ _).1 clean).1 some]

theorem parse_one_iff {n : Nat} : parse k 1 argument = .ok [n] ↔ Names argument.toList n := by
  rw [parse_eq_ok_iff, forall₂_names_splitOn_iff (List.cons_ne_nil n [])]
  constructor
  · rintro ⟨-, parts, whole, named⟩
    obtain ⟨part, _, names, ⟨⟩, rfl⟩ := List.forall₂_cons_right_iff.1 named
    rwa [whole, List.intercalate_singleton]
  · intro names
    exact ⟨rfl, [argument.toList], List.intercalate_singleton.symm, .cons names .nil⟩

theorem parse_two_iff {a b : Nat} : parse k 2 argument = .ok [a, b] ↔
    ∃ p q : String, argument = p ++ " " ++ q ∧ Names p.toList a ∧ Names q.toList b := by
  rw [parse_eq_ok_iff, forall₂_names_splitOn_iff (List.cons_ne_nil a [b])]
  constructor
  · rintro ⟨-, parts, whole, named⟩
    obtain ⟨p, _, first, more, rfl⟩ := List.forall₂_cons_right_iff.1 named
    obtain ⟨q, _, second, ⟨⟩, rfl⟩ := List.forall₂_cons_right_iff.1 more
    refine ⟨String.ofList p, String.ofList q, String.toList_injective ?_, ?_, ?_⟩
    · simpa using whole
    · rwa [String.toList_ofList]
    · rwa [String.toList_ofList]
  · rintro ⟨p, q, rfl, first, second⟩
    exact ⟨rfl, [p.toList, q.toList], by simp, .cons first (.cons second .nil)⟩

end Arguments

end StringStack.Position
