/-! A border of a sequence is a proper prefix of it that is also its suffix. The table of a sequence
holds the length of the longest border of each of its prefixes. A border of a longer prefix widens
a border of the one before, so the candidates for the next entry are found in the table itself. -/
namespace StringStack.Search

variable {α : Type} [DecidableEq α]

structure BorderTable (s : Array α) where
  lengths : Array Nat
  fits : lengths.size ≤ s.size
  bounded : ∀ i (h : i < lengths.size), lengths[i] ≤ i

namespace BorderTable

variable {s : Array α}

def empty : BorderTable s := ⟨#[], Nat.zero_le _, fun _ h => absurd h (Nat.not_lt_zero _)⟩

/-- The longest border that ends in `c`, among those that widen the border of length `k` or one of
its own borders. -/
def widen (table : BorderTable s) (c : α) : (k : Nat) → k < table.lengths.size → Nat
  | 0, inside =>
    have := table.fits
    if s[0] = c then 1 else 0
  | k + 1, inside =>
    have := table.fits
    if s[k + 1] = c then k + 2
    else
      have := table.bounded k (by omega)
      widen table c table.lengths[k] (by omega)
termination_by k => k
decreasing_by exact Nat.lt_succ_of_le this

theorem widen_le (table : BorderTable s) (c : α) (k : Nat) (inside : k < table.lengths.size) :
    table.widen c k inside ≤ table.lengths.size := by
  fun_induction widen table c k inside <;> omega

def next (table : BorderTable s) (room : table.lengths.size < s.size) : Nat :=
  if h : table.lengths.size = 0 then 0
  else
    have := table.bounded (table.lengths.size - 1) (by omega)
    table.widen s[table.lengths.size] table.lengths[table.lengths.size - 1] (by omega)

theorem next_le (table : BorderTable s) (room : table.lengths.size < s.size) :
    table.next room ≤ table.lengths.size := by
  unfold next
  split
  · exact Nat.zero_le _
  · exact widen_le ..

def extend (table : BorderTable s) (room : table.lengths.size < s.size) : BorderTable s where
  lengths := table.lengths.push (table.next room)
  fits := by simp only [Array.size_push]; omega
  bounded := by
    intro i h
    simp only [Array.getElem_push]
    split
    · next old => exact table.bounded i old
    · next new =>
      simp only [Array.size_push] at h
      have := table.next_le room
      omega

def complete (table : BorderTable s) : BorderTable s :=
  if room : table.lengths.size < s.size then complete (table.extend room) else table
termination_by s.size - table.lengths.size
decreasing_by simp only [extend, Array.size_push]; omega

theorem complete_size (table : BorderTable s) : table.complete.lengths.size = s.size := by
  fun_induction complete table with
  | case1 table room ih => exact ih
  | case2 table full => exact Nat.le_antisymm table.fits (Nat.not_lt.1 full)

end BorderTable

def prefixBorders (s : List α) : List Nat :=
  (BorderTable.complete (.empty (s := s.toArray))).lengths.toList

def suffixBorders (s : List α) : List Nat := prefixBorders s.reverse

theorem length_prefixBorders (s : List α) : (prefixBorders s).length = s.length := by
  simp [prefixBorders, BorderTable.complete_size]

theorem length_suffixBorders (s : List α) : (suffixBorders s).length = s.length := by
  simp [suffixBorders, length_prefixBorders]

theorem prefixBorders_le (s : List α) (i : Nat) (h : i < (prefixBorders s).length) :
    (prefixBorders s)[i] ≤ i := by
  simp only [prefixBorders, Array.getElem_toList]
  exact BorderTable.bounded _ i (by simpa [prefixBorders] using h)

theorem suffixBorders_le (s : List α) (i : Nat) (h : i < (suffixBorders s).length) :
    (suffixBorders s)[i] ≤ i :=
  prefixBorders_le s.reverse i h

end StringStack.Search
