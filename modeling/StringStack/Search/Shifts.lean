import StringStack.Search.Borders

/-! How far a pattern may move on after a mismatch. The good-suffix shift depends on how many
symbols at the end of the pattern matched; the stop-symbol shift on the symbol of the text that did
not. -/
namespace StringStack.Search

variable {α : Type} [DecidableEq α]

def period (pattern : List α) : Nat := pattern.length - (prefixBorders pattern).getLastD 0

/-- A suffix border of length `b` at index `i` lets `b` matched symbols line up with the pattern
again `i + 1 - b` places further on. -/
def tighten (table : Array Nat) (entry : Nat × Nat) : Array Nat :=
  table.modify entry.1 (min (entry.2 + 1 - entry.1))

def goodSuffix (pattern : List α) : Array Nat :=
  (suffixBorders pattern).zipIdx.foldl tighten
    (Array.replicate (pattern.length + 1) (period pattern))

def recordStop (table : List (α × Nat)) (entry : α × Nat) : List (α × Nat) :=
  entry :: table.filter fun e => e.1 ≠ entry.1

/-- For each symbol of the pattern, its last place counted from one; the end of the pattern is left
out. -/
def stopSymbols (pattern : List α) : List (α × Nat) :=
  (pattern.dropLast.zipIdx 1).foldl recordStop []

theorem size_foldl_tighten (entries : List (Nat × Nat)) (table : Array Nat) :
    (entries.foldl tighten table).size = table.size := by
  induction entries generalizing table with
  | nil => rfl
  | cons e es ih => simp [ih, tighten]

theorem size_goodSuffix (pattern : List α) : (goodSuffix pattern).size = pattern.length + 1 := by
  simp [goodSuffix, size_foldl_tighten]

theorem getElem?_prefixBorders_last (pattern : List α) (filled : 0 < pattern.length) :
    (prefixBorders pattern)[pattern.length - 1]? = some ((prefixBorders pattern).getLastD 0) := by
  have whole := length_prefixBorders pattern
  have inside : pattern.length - 1 < (prefixBorders pattern).length := by omega
  simp [List.getLastD_eq_getLast?, List.getLast?_eq_getElem?, whole,
    List.getElem?_eq_getElem inside]

theorem period_pos (pattern : List α) (filled : 0 < pattern.length) : 0 < period pattern := by
  obtain ⟨inside, last⟩ := List.getElem?_eq_some_iff.1 (getElem?_prefixBorders_last pattern filled)
  have small := prefixBorders_le pattern (pattern.length - 1) inside
  unfold period
  omega

theorem foldl_tighten_pos (entries : List (Nat × Nat)) (table : Array Nat)
    (late : ∀ e ∈ entries, e.1 ≤ e.2) (positive : ∀ i (h : i < table.size), 0 < table[i]) (i : Nat)
    (h : i < (entries.foldl tighten table).size) : 0 < (entries.foldl tighten table)[i] := by
  induction entries generalizing table with
  | nil => exact positive i h
  | cons e es ih =>
    refine ih (tighten table e) (fun x hx => late x (List.mem_cons_of_mem _ hx)) ?_ h
    intro j hj
    have old := positive j (by simpa [tighten] using hj)
    have := late e List.mem_cons_self
    simp only [tighten, Array.getElem_modify]
    split <;> omega

theorem goodSuffix_pos (pattern : List α) (filled : 0 < pattern.length) (i : Nat)
    (h : i < (goodSuffix pattern).size) : 0 < (goodSuffix pattern)[i] := by
  refine foldl_tighten_pos _ _ ?_ ?_ i h
  · intro e he
    obtain ⟨k, found⟩ := List.mem_iff_getElem?.1 he
    simp only [List.getElem?_zipIdx, Option.map_eq_some_iff] at found
    obtain ⟨b, hb, rfl⟩ := found
    obtain ⟨hk, rfl⟩ := List.getElem?_eq_some_iff.1 hb
    simpa using suffixBorders_le pattern k hk
  · intro j _
    simpa using period_pos pattern filled

end StringStack.Search
