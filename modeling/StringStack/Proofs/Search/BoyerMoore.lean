import StringStack.Search.BoyerMoore
import StringStack.Proofs.Search.Shifts

namespace StringStack.Search

variable {α : Type} [DecidableEq α]

namespace Automaton

theorem mismatch?_none {a : Automaton α} {text : Array α} {start : Nat}
    {fits : start + a.pattern.size ≤ text.size} {n : Nat} {h : n ≤ a.pattern.size}
    (all : a.mismatch? text start fits n h = none) (i : Nat) (inside : i < n) :
    a.pattern[i]? = text[start + i]? := by
  induction n with
  | zero => exact absurd inside (Nat.not_lt_zero i)
  | succ n ih =>
    simp only [mismatch?] at all
    split at all
    · next same =>
      rcases Nat.lt_or_eq_of_le (Nat.le_of_lt_succ inside) with lower | rfl
      · exact ih all lower
      · rw [Array.getElem?_eq_getElem (by omega), Array.getElem?_eq_getElem (by omega), same]
    · cases all

theorem mismatch?_some {a : Automaton α} {text : Array α} {start : Nat}
    {fits : start + a.pattern.size ≤ text.size} {n : Nat} {h : n ≤ a.pattern.size}
    {place : Fin a.pattern.size} (found : a.mismatch? text start fits n h = some place)
    (above : ∀ i, n ≤ i → i < a.pattern.size → a.pattern[i]? = text[start + i]?) :
    DiffersAt a.pattern.toList text.toList start place := by
  induction n with
  | zero => cases found
  | succ n ih =>
    simp only [mismatch?] at found
    split at found
    · next same =>
      refine ih found fun i low high => ?_
      rcases Nat.lt_or_eq_of_le low with higher | rfl
      · exact above i higher high
      · rw [Array.getElem?_eq_getElem high, Array.getElem?_eq_getElem (by omega), same]
    · next differs =>
      cases found
      refine ⟨h, ?_, fun i low high => by simpa using above i low (by simpa using high)⟩
      simp only [Array.getElem?_toList]
      rw [Array.getElem?_eq_getElem h, Array.getElem?_eq_getElem (by omega)]
      exact fun equal => differs (Option.some.inj equal)

theorem size_ofPattern (pattern : List α) : (ofPattern pattern).pattern.size = pattern.length := by
  simp [ofPattern]

theorem shift_le_of_occursAt {pattern text : List α} {start d : Nat}
    {place : Fin (ofPattern pattern).pattern.size} {bad : α}
    (stop : DiffersAt pattern text start place) (symbol : text[start + place]? = some bad)
    (positive : 0 < d) (found : OccursAt pattern text (start + d)) :
    (ofPattern pattern).shift place bad ≤ d := by
  have inside := stop.inside
  have size := size_ofPattern pattern
  have covers := size_goodSuffix pattern
  refine Nat.max_le.2 ⟨?_, stopShift_le_of_occursAt stop symbol positive found⟩
  exact goodSuffix_le pattern _ (by omega) d positive (realigns_of_occursAt stop found)

theorem shift_le_length (pattern : List α) (place : Fin (ofPattern pattern).pattern.size)
    (bad : α) :
    (ofPattern pattern).shift place bad ≤ pattern.length := by
  have inside := place.isLt
  have size := size_ofPattern pattern
  have covers := size_goodSuffix pattern
  obtain ⟨-, short, -⟩ := goodSuffix_realigns pattern (by omega)
    ((ofPattern pattern).pattern.size - 1 - place) (by omega)
  exact Nat.max_le.2 ⟨short, by omega⟩

section Comparison

variable {pattern : List α} {text : Array α} {start : Nat}
  {fits : start + (ofPattern pattern).pattern.size ≤ text.size}

theorem occursAt_of_mismatch?_none
    (all : (ofPattern pattern).mismatch? text start fits _ (Nat.le_refl _) = none) :
    OccursAt pattern text.toList start := by
  apply occursAt_iff_getElem?.2
  intro i inside
  have same := mismatch?_none all i (by rwa [size_ofPattern])
  simpa [ofPattern] using same.symm

theorem differsAt_of_mismatch?_some {place : Fin (ofPattern pattern).pattern.size}
    (found : (ofPattern pattern).mismatch? text start fits _ (Nat.le_refl _) = some place) :
    DiffersAt pattern text.toList start place := by
  have stop := mismatch?_some found fun i low high => absurd high (Nat.not_lt.2 low)
  simpa [ofPattern] using stop

end Comparison

theorem findFrom_isFirst (pattern : List α) (text : Array α) (start : Nat)
    (passed : ∀ j, j < start → ¬ OccursAt pattern text.toList j) :
    IsFirst pattern text.toList ((ofPattern pattern).findFrom text start) := by
  fun_induction findFrom (ofPattern pattern) text start with
  | case1 start fits all => exact isFirst_some_iff.2 ⟨occursAt_of_mismatch?_none all, passed⟩
  | case2 start fits place found _ ih =>
    have stop := differsAt_of_mismatch?_some found
    refine ih fun j before occurs => ?_
    rcases Nat.lt_trichotomy j start with earlier | rfl | later
    · exact passed j earlier occurs
    · exact stop.not_occursAt occurs
    · have symbol : text.toList[start + place]? = some text[start + place] := by simp
      obtain ⟨d, rfl⟩ := Nat.exists_eq_add_of_le (Nat.le_of_lt later)
      have reached := shift_le_of_occursAt stop symbol (by omega) occurs
      omega
  | case3 start beyond =>
    have size := size_ofPattern pattern
    intro j inside occurs
    have length := occurs.length_le
    simp only [Array.length_toList] at length inside
    exact passed j (by omega) occurs

theorem find_isFirst (pattern text : List α) :
    IsFirst pattern text ((ofPattern pattern).find text) :=
  findFrom_isFirst pattern text.toArray 0 fun j impossible => absurd impossible (Nat.not_lt_zero j)

/- The same scan with nothing taken for granted: every access to the pattern, the text or a table is
checked, and the number of alignments is bounded. Nothing comes out when an access fails or the
turns run out. -/

def mismatchChecked (a : Automaton α) (text : Array α) (start : Nat) : Nat → Option (Option Nat)
  | 0 => some none
  | n + 1 => do
    let expected ← a.pattern[n]?
    let actual ← text[start + n]?
    if expected = actual then mismatchChecked a text start n else some (some n)

def findChecked (a : Automaton α) (text : Array α) : (turns start : Nat) → Option (Option Nat)
  | 0, _ => none
  | turns + 1, start =>
    if start + a.pattern.size ≤ text.size then do
      match ← mismatchChecked a text start a.pattern.size with
      | none => some (some start)
      | some place =>
        let bad ← text[start + place]?
        let move ← a.goodSuffix[a.pattern.size - 1 - place]?
        findChecked a text turns (start + max move (place + 1 - (a.stopSymbols.lookup bad).getD 0))
    else some none

theorem mismatchChecked_eq (a : Automaton α) (text : Array α) (start : Nat)
    (fits : start + a.pattern.size ≤ text.size) (n : Nat) (h : n ≤ a.pattern.size) :
    a.mismatchChecked text start n = some ((a.mismatch? text start fits n h).map Fin.val) := by
  induction n with
  | zero => rfl
  | succ n ih =>
    have inside : n < a.pattern.size := h
    have reached : start + n < text.size := by omega
    simp only [mismatchChecked, mismatch?, Array.getElem?_eq_getElem inside,
      Array.getElem?_eq_getElem reached, Option.bind_eq_bind, Option.bind_some]
    split
    · exact ih (by omega)
    · rfl

theorem findChecked_eq (a : Automaton α) (text : Array α) (turns start : Nat)
    (some_left : 0 < turns) (enough : text.size < turns + start) :
    a.findChecked text turns start = some (a.findFrom text start) := by
  fun_induction findFrom a text start generalizing turns with
  | case1 start fits all =>
    obtain ⟨turns, rfl⟩ := Nat.exists_eq_add_one_of_ne_zero (Nat.ne_of_gt some_left)
    simp [findChecked, fits, mismatchChecked_eq, all]
  | case2 start fits place found positive ih =>
    obtain ⟨turns, rfl⟩ := Nat.exists_eq_add_one_of_ne_zero (Nat.ne_of_gt some_left)
    have inside := place.isLt
    have covers := a.covers
    have reached : start + place < text.size := by omega
    have listed : a.pattern.size - 1 - place < a.goodSuffix.size := by omega
    simp only [findChecked, if_pos fits, mismatchChecked_eq a text start fits _ (Nat.le_refl _),
      found, Option.map_some, Option.bind_eq_bind, Option.bind_some,
      Array.getElem?_eq_getElem reached, Array.getElem?_eq_getElem listed]
    exact ih turns (by omega) (by omega)
  | case3 start beyond =>
    obtain ⟨turns, rfl⟩ := Nat.exists_eq_add_one_of_ne_zero (Nat.ne_of_gt some_left)
    simp [findChecked, beyond]

end Automaton

theorem isFirst_boyerMoore (pattern text : List α) :
    IsFirst pattern text (boyerMoore pattern text) :=
  Automaton.find_isFirst pattern text

theorem boyerMoore_eq_naive (pattern text : List α) :
    boyerMoore pattern text = naive pattern text :=
  (isFirst_boyerMoore pattern text).unique (isFirst_naive pattern text)

/-- An automaton finds the first slice of the text that equals its pattern, and comes to its answer
within as many turns as the text has symbols and one, with every access in range. -/
theorem automaton_finds_first (pattern text : List α) :
    (∀ k, (Automaton.ofPattern pattern).find text = some k ↔
      k + pattern.length ≤ text.length ∧ (text.drop k).take pattern.length = pattern ∧
        ∀ j, j < k → (text.drop j).take pattern.length ≠ pattern) ∧
    ((Automaton.ofPattern pattern).find text = none ↔
      ∀ k, k + pattern.length ≤ text.length → (text.drop k).take pattern.length ≠ pattern) ∧
    (Automaton.ofPattern pattern).find text = naive pattern text ∧
    (pattern = [] → (Automaton.ofPattern pattern).find text = some 0) ∧
    (text.length < pattern.length → (Automaton.ofPattern pattern).find text = none) ∧
    (Automaton.ofPattern pattern).findChecked text.toArray (text.length + 1) 0 =
      some ((Automaton.ofPattern pattern).find text) := by
  have first := Automaton.find_isFirst pattern text
  have found := fun k => (eq_iff_isFirst (q := some k) first).trans isFirst_some_iff_slice
  have absent := (eq_iff_isFirst first).trans isFirst_none_iff_slice
  refine ⟨found, absent, first.unique (isFirst_naive pattern text), ?_, ?_, ?_⟩
  · rintro rfl
    exact (found 0).2 ⟨by simp, rfl, fun j impossible => absurd impossible (Nat.not_lt_zero j)⟩
  · exact fun longer => absent.2 fun k fits => by omega
  · exact Automaton.findChecked_eq _ _ _ _ (Nat.succ_pos _) (by simp)

end StringStack.Search
