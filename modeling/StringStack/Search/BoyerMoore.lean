import StringStack.Search.Shifts

namespace StringStack.Search

structure Automaton (α : Type) where
  pattern : Array α
  goodSuffix : Array Nat
  stopSymbols : List (α × Nat)
  covers : goodSuffix.size = pattern.size + 1
  advances : 0 < pattern.size → ∀ i (h : i < goodSuffix.size), 0 < goodSuffix[i]

namespace Automaton

variable {α : Type} [DecidableEq α]

def ofPattern (pattern : List α) : Automaton α where
  pattern := pattern.toArray
  goodSuffix := Search.goodSuffix pattern
  stopSymbols := Search.stopSymbols pattern
  covers := by simp [size_goodSuffix]
  advances := fun filled i h => goodSuffix_pos pattern (by simpa using filled) i h

/-- The last place among the first `n` of the pattern that differs from the text at `start`. -/
def mismatch? (a : Automaton α) (text : Array α) (start : Nat)
    (fits : start + a.pattern.size ≤ text.size) :
    (n : Nat) → n ≤ a.pattern.size → Option (Fin a.pattern.size)
  | 0, _ => none
  | n + 1, _ =>
    if a.pattern[n] = text[start + n] then mismatch? a text start fits n (by omega)
    else some ⟨n, by omega⟩

def shift (a : Automaton α) (place : Fin a.pattern.size) (bad : α) : Nat :=
  have := a.covers
  max a.goodSuffix[a.pattern.size - 1 - place] (place + 1 - (a.stopSymbols.lookup bad).getD 0)

theorem shift_pos (a : Automaton α) (place : Fin a.pattern.size) (bad : α) :
    0 < a.shift place bad := by
  have inside := a.covers
  have := a.advances (by have := place.isLt; omega) (a.pattern.size - 1 - place) (by omega)
  exact Nat.lt_of_lt_of_le this (Nat.le_max_left _ _)

def findFrom (a : Automaton α) (text : Array α) (start : Nat) : Option Nat :=
  if fits : start + a.pattern.size ≤ text.size then
    match a.mismatch? text start fits a.pattern.size (Nat.le_refl _) with
    | none => some start
    | some place =>
      have := a.shift_pos place text[start + place]
      findFrom a text (start + a.shift place text[start + place])
  else none
termination_by text.size + 1 - start

def find (a : Automaton α) (text : List α) : Option Nat := a.findFrom text.toArray 0

end Automaton

def boyerMoore {α : Type} [DecidableEq α] (pattern text : List α) : Option Nat :=
  (Automaton.ofPattern pattern).find text

end StringStack.Search
