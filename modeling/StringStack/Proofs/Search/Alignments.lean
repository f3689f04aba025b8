import StringStack.Proofs.Search.BoyerMoore

/-! Alignments of a pattern by the index of the text that its end is laid at. The symbols that match
there are counted from the end, and their number decides the move to the next alignment, together
with the symbol of the text in front of them. No alignment in between is an occurrence, and it does
not matter whether a search comes to this one. -/
namespace StringStack.Search

variable {α : Type}

theorem length_takeWhile_of_getElem? {p : α → Bool} {symbols : List α} {n : Nat} {c : α}
    (before : ∀ i, i < n → ∃ d, symbols[i]? = some d ∧ p d = true) (there : symbols[n]? = some c)
    (fails : ¬ p c = true) : (symbols.takeWhile p).length = n := by
  induction symbols generalizing n with
  | nil => cases there
  | cons d rest ih =>
    cases n with
    | zero =>
      cases there
      rw [List.takeWhile_cons_of_neg fails]
      rfl
    | succ n =>
      obtain ⟨_, ⟨⟩, passes⟩ := before 0 (Nat.succ_pos n)
      have others := ih (fun i early => before (i + 1) (Nat.succ_lt_succ early)) there
      rw [List.takeWhile_cons_of_pos passes, List.length_cons, others]

/-- The symbols that are compared, from the end of the pattern on. -/
def comparedPairs (pattern text : List α) (last : Nat) : List (α × α) :=
  pattern.reverse.zip (text.take (last + 1)).reverse

theorem getElem?_comparedPairs {pattern text : List α} {last i : Nat}
    (aligned : pattern.length ≤ last + 1) (inside : last < text.length)
    (within : i < pattern.length) {expected actual : α} (left : pattern[i]? = some expected)
    (right : text[last + 1 - pattern.length + i]? = some actual) :
    (comparedPairs pattern text last)[pattern.length - 1 - i]? = some (expected, actual) := by
  have length : (text.take (last + 1)).length = last + 1 := List.length_take_of_le inside
  have here : pattern.length - 1 - (pattern.length - 1 - i) = i := by omega
  have place : last + 1 - 1 - (pattern.length - 1 - i) = last + 1 - pattern.length + i := by omega
  apply List.getElem?_zip_eq_some.2
  constructor
  · rw [List.getElem?_reverse (by omega), here]
    exact left
  · rw [List.getElem?_reverse (by omega), length, place, List.getElem?_take, if_pos (by omega)]
    exact right

variable [DecidableEq α]

def matchedSymbols (pattern text : List α) (last : Nat) : Nat :=
  ((comparedPairs pattern text last).takeWhile fun pair => pair.1 = pair.2).length

/-- The larger of the two shifts for that many matched symbols, if the text and the table have an
entry there. -/
def moveAt? (pattern text : List α) (last : Nat) : Option Nat := do
  let matched := matchedSymbols pattern text last
  let mismatch := pattern.length - 1 - matched
  let bad ← text[last - matched]?
  let good ← (goodSuffix pattern)[matched]?
  some (max good (mismatch + 1 - ((stopSymbols pattern).lookup bad).getD 0))

section Alignment

variable {pattern text : List α} {last : Nat} (aligned : pattern.length ≤ last + 1)
  (inside : last < text.length)
include aligned inside

theorem DiffersAt.matchedSymbols_eq {place : Nat}
    (stop : DiffersAt pattern text (last + 1 - pattern.length) place) :
    matchedSymbols pattern text last = pattern.length - 1 - place := by
  have bound := stop.inside
  have reached : last + 1 - pattern.length + place < text.length := by omega
  have left := List.getElem?_eq_getElem bound
  have right := List.getElem?_eq_getElem reached
  refine length_takeWhile_of_getElem? (fun i early => ?_)
    (getElem?_comparedPairs aligned inside bound left right) ?_
  · have within : pattern.length - 1 - i < pattern.length := by omega
    have index : pattern.length - 1 - (pattern.length - 1 - i) = i := by omega
    have symbol := List.getElem?_eq_getElem within
    have same := stop.agrees (pattern.length - 1 - i) (by omega) within
    have pair := getElem?_comparedPairs aligned inside within symbol (same.symm.trans symbol)
    rw [index] at pair
    exact ⟨_, pair, decide_eq_true rfl⟩
  · intro equal
    have equal : pattern[place] = text[last + 1 - pattern.length + place] := of_decide_eq_true equal
    apply stop.differs
    rw [left, right, equal]

theorem DiffersAt.moveAt?_eq {place : Fin (Automaton.ofPattern pattern).pattern.size} {bad : α}
    (stop : DiffersAt pattern text (last + 1 - pattern.length) place)
    (symbol : text[last + 1 - pattern.length + place]? = some bad) :
    moveAt? pattern text last = some ((Automaton.ofPattern pattern).shift place bad) := by
  have bound := stop.inside
  have covers := size_goodSuffix pattern
  have index : last - (pattern.length - 1 - place) = last + 1 - pattern.length + place := by omega
  have back : pattern.length - 1 - (pattern.length - 1 - place) = place := by omega
  have listed : pattern.length - 1 - place < (goodSuffix pattern).size := by omega
  simp only [moveAt?, stop.matchedSymbols_eq aligned inside, index, back, symbol,
    Array.getElem?_eq_getElem listed, Option.bind_eq_bind, Option.bind_some]
  rfl

theorem exists_mismatch? (mismatched : ¬ OccursAt pattern text (last + 1 - pattern.length)) :
    ∃ fits place bad,
      (Automaton.ofPattern pattern).mismatch? text.toArray (last + 1 - pattern.length) fits
        (Automaton.ofPattern pattern).pattern.size (Nat.le_refl _) = some place ∧
      text[last + 1 - pattern.length + place]? = some bad ∧
      DiffersAt pattern text (last + 1 - pattern.length) place := by
  have size := Automaton.size_ofPattern pattern
  have fits : last + 1 - pattern.length + (Automaton.ofPattern pattern).pattern.size ≤
      text.toArray.size := by
    rw [size, List.size_toArray]
    omega
  cases found : (Automaton.ofPattern pattern).mismatch? text.toArray _ fits _ (Nat.le_refl _) with
  | none => exact absurd (Automaton.occursAt_of_mismatch?_none found) mismatched
  | some place =>
    have stop := Automaton.differsAt_of_mismatch?_some found
    have bound := stop.inside
    have reached : last + 1 - pattern.length + place < text.length := by omega
    exact ⟨fits, place, _, found, List.getElem?_eq_getElem reached, stop⟩

end Alignment

theorem DiffersAt.not_occursAt_of_lt {pattern text : List α} {last next : Nat}
    {place : Fin (Automaton.ofPattern pattern).pattern.size} {bad : α}
    (aligned : pattern.length ≤ last + 1)
    (stop : DiffersAt pattern text (last + 1 - pattern.length) place)
    (symbol : text[last + 1 - pattern.length + place]? = some bad) (later : last < next)
    (early : next < last + (Automaton.ofPattern pattern).shift place bad) :
    ¬ OccursAt pattern text (next + 1 - pattern.length) := by
  intro occurs
  have moved : next + 1 - pattern.length = last + 1 - pattern.length + (next - last) := by omega
  rw [moved] at occurs
  have far := Automaton.shift_le_of_occursAt stop symbol (by omega) occurs
  omega

/-- From an alignment at which the pattern does not match there is a move by one place at least and
by the whole pattern at most, which is the one a search makes at its first mismatch there. It passes
over no alignment at which the pattern matches. -/
theorem move_passes_no_occurrence (pattern text : List α) {last : Nat}
    (aligned : pattern.length ≤ last + 1) (inside : last < text.length)
    (mismatched : (text.drop (last + 1 - pattern.length)).take pattern.length ≠ pattern) :
    matchedSymbols pattern text last < pattern.length ∧
    ∃ move, moveAt? pattern text last = some move ∧ 1 ≤ move ∧ move ≤ pattern.length ∧
      (∀ next, last < next → next < last + move →
        (text.drop (next + 1 - pattern.length)).take pattern.length ≠ pattern) ∧
      ∃ fits place bad,
        (Automaton.ofPattern pattern).mismatch? text.toArray (last + 1 - pattern.length) fits
          (Automaton.ofPattern pattern).pattern.size (Nat.le_refl _) = some place ∧
        text[last + 1 - pattern.length + place]? = some bad ∧
        (Automaton.ofPattern pattern).shift place bad = move := by
  obtain ⟨fits, place, bad, found, symbol, stop⟩ :=
    exists_mismatch? aligned inside (mt occursAt_iff_slice.1 mismatched)
  refine ⟨?_, _, stop.moveAt?_eq aligned inside symbol, Automaton.shift_pos _ place bad,
    Automaton.shift_le_length pattern place bad, fun next later early => ?_, fits, place, bad,
    found, symbol, rfl⟩
  · have bound := stop.inside
    rw [stop.matchedSymbols_eq aligned inside]
    omega
  · exact mt occursAt_iff_slice.2 (stop.not_occursAt_of_lt aligned symbol later early)

theorem move_to_next_occurrence :
    let pattern := ['a', 'b', 'b', 'a', 'b']
    let text := ['a', 'a', 'b', 'a', 'b', 'b', 'a', 'b']
    pattern.length ≤ 4 + 1 ∧ 4 < text.length ∧
      (text.drop (4 + 1 - pattern.length)).take pattern.length ≠ pattern ∧
      moveAt? pattern text 4 = some 3 ∧
      ∀ next, 4 < next → next < 4 + 3 →
        (text.drop (next + 1 - pattern.length)).take pattern.length ≠ pattern := by
  intro pattern text
  have aligned : pattern.length ≤ 4 + 1 := by decide
  have inside : 4 < text.length := by decide
  have mismatched : (text.drop (4 + 1 - pattern.length)).take pattern.length ≠ pattern := by decide
  obtain ⟨-, move, made, -, -, passed, -⟩ :=
    move_passes_no_occurrence pattern text aligned inside mismatched
  have three : moveAt? pattern text 4 = some 3 := by decide +kernel
  cases three.symm.trans made
  exact ⟨aligned, inside, mismatched, three, passed⟩

end StringStack.Search
