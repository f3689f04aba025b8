import Mathlib.Order.Bounds.Defs
import StringStack.Search.Borders

namespace StringStack.Search

variable {α : Type}

/-- The first `k` symbols of `s` are also the last `k` of its first `n`, which are more. -/
def Border (s : List α) (n k : Nat) : Prop := k < n ∧ ∀ i, i < k → s[i]? = s[n - k + i]?

def LongestBorder (s : List α) (n k : Nat) : Prop := Border s n k ∧ ∀ j, Border s n j → j ≤ k

theorem border_zero (s : List α) {n : Nat} (filled : 0 < n) : Border s n 0 :=
  ⟨filled, fun _ impossible => absurd impossible (Nat.not_lt_zero _)⟩

theorem border_succ_iff {s : List α} {n k : Nat} :
    Border s (n + 1) (k + 1) ↔ Border s n k ∧ s[k]? = s[n]? := by
  constructor
  · rintro ⟨shorter, same⟩
    refine ⟨⟨by omega, fun i inside => ?_⟩, ?_⟩
    · have pair := same i (by omega)
      have index : n + 1 - (k + 1) + i = n - k + i := by omega
      rwa [index] at pair
    · have pair := same k (by omega)
      have index : n + 1 - (k + 1) + k = n := by omega
      rwa [index] at pair
  · rintro ⟨⟨shorter, same⟩, next⟩
    refine ⟨by omega, fun i inside => ?_⟩
    have index : n + 1 - (k + 1) + i = n - k + i := by omega
    rw [index]
    rcases Nat.lt_or_eq_of_le (Nat.le_of_lt_succ inside) with old | rfl
    · exact same i old
    · rwa [Nat.sub_add_cancel (Nat.le_of_lt shorter)]

theorem Border.of_longer {s : List α} {n k j : Nat} (wide : Border s n k) (narrow : Border s n j)
    (less : j < k) : Border s k j := by
  have below := wide.1
  refine ⟨less, fun i inside => ?_⟩
  have left := narrow.2 i inside
  have right := wide.2 (k - j + i) (by omega)
  rw [left, right]
  congr 1
  omega

theorem Border.trans {s : List α} {n k j : Nat} (wide : Border s n k) (narrow : Border s k j) :
    Border s n j := by
  have below := wide.1
  have less := narrow.1
  refine ⟨by omega, fun i inside => ?_⟩
  rw [narrow.2 i inside, wide.2 (k - j + i) (by omega)]
  congr 1
  omega

theorem LongestBorder.widened {s : List α} {n k : Nat} (candidate : Border s n k)
    (next : s[k]? = s[n]?) (last : ∀ j, Border s n j → s[j]? = s[n]? → j ≤ k) :
    LongestBorder s (n + 1) (k + 1) := by
  refine ⟨border_succ_iff.2 ⟨candidate, next⟩, fun j wider => ?_⟩
  cases j with
  | zero => exact Nat.zero_le _
  | succ j =>
    obtain ⟨border, equal⟩ := border_succ_iff.1 wider
    exact Nat.succ_le_succ (last j border equal)

theorem LongestBorder.none_widened {s : List α} {n : Nat}
    (stuck : ∀ j, Border s n j → s[j]? ≠ s[n]?) : LongestBorder s (n + 1) 0 := by
  refine ⟨border_zero s (Nat.succ_pos n), fun j wider => ?_⟩
  cases j with
  | zero => exact Nat.le_refl _
  | succ j =>
    obtain ⟨border, equal⟩ := border_succ_iff.1 wider
    exact absurd equal (stuck j border)

theorem LongestBorder.isGreatest_iff {s : List α} {n k : Nat} :
    LongestBorder s n k ↔ IsGreatest {j | Border s n j} k := Iff.rfl

theorem LongestBorder.unique {s : List α} {n k j : Nat} (first : LongestBorder s n k)
    (second : LongestBorder s n j) : k = j :=
  Nat.le_antisymm (second.2 k first.1) (first.2 j second.1)

theorem border_iff_take {s : List α} {i k : Nat} :
    Border s (i + 1) k ↔ k ≤ i ∧ s.take k = (s.take (i + 1)).drop (i + 1 - k) := by
  constructor
  · rintro ⟨shorter, same⟩
    refine ⟨Nat.le_of_lt_succ shorter, List.ext_getElem? fun j => ?_⟩
    rw [List.getElem?_take, List.getElem?_drop, List.getElem?_take]
    by_cases early : j < k
    · have within : i + 1 - k + j < i + 1 := by omega
      rw [if_pos early, if_pos within]
      exact same j early
    · have beyond : ¬ i + 1 - k + j < i + 1 := by omega
      rw [if_neg early, if_neg beyond]
  · rintro ⟨short, slices⟩
    refine ⟨Nat.lt_succ_of_le short, fun j early => ?_⟩
    have within : i + 1 - k + j < i + 1 := by omega
    have pair := congrArg (fun slice => slice[j]?) slices
    simpa only [List.getElem?_take, List.getElem?_drop, if_pos early, if_pos within] using pair

theorem border_reverse_iff_drop {s : List α} {i k : Nat} (inside : i < s.length) :
    Border s.reverse (i + 1) k ↔
      k ≤ i ∧ s.drop (s.length - k) = (s.drop (s.length - 1 - i)).take k := by
  refine border_iff_take.trans (and_congr_right fun short => ?_)
  have start : s.length - (i + 1) = s.length - 1 - i := by omega
  have kept : (s.drop (s.length - 1 - i)).length - (i + 1 - k) = k := by
    rw [List.length_drop]
    omega
  rw [List.take_reverse, List.take_reverse, List.drop_reverse, List.reverse_inj, start, kept]

variable [DecidableEq α]

namespace BorderTable

variable {s : Array α}

def Exact (table : BorderTable s) : Prop :=
  ∀ i (h : i < table.lengths.size), LongestBorder s.toList (i + 1) table.lengths[i]

theorem widen_longest {table : BorderTable s} (exact : table.Exact) {c : α}
    (next : s.toList[table.lengths.size]? = some c) (k : Nat) (inside : k < table.lengths.size)
    (candidate : Border s.toList table.lengths.size k)
    (last : ∀ j, Border s.toList table.lengths.size j → s.toList[j]? = some c → j ≤ k) :
    LongestBorder s.toList (table.lengths.size + 1) (table.widen c k inside) := by
  have symbol : ∀ j (h : j < s.size), s.toList[j]? = some s[j] := fun j h => by
    rw [Array.getElem?_toList, Array.getElem?_eq_getElem h]
  fun_induction widen table c k inside with
  | case1 inside fits same =>
    refine .widened candidate ?_ fun j border equal => last j border (equal.trans next)
    rw [next, symbol 0 (by omega), same]
  | case2 inside fits differs =>
    refine .none_widened fun j border equal => ?_
    have equal := equal.trans next
    obtain rfl : j = 0 := Nat.le_zero.1 (last j border equal)
    rw [symbol 0 (by omega)] at equal
    exact differs (Option.some.inj equal)
  | case3 k inside fits same =>
    refine .widened candidate ?_ fun j border equal => last j border (equal.trans next)
    rw [next, symbol (k + 1) (by omega), same]
  | case4 k inside fits differs _ _ ih =>
    have inner := exact k (by omega)
    refine ih (candidate.trans inner.1) fun j border equal => ?_
    rcases Nat.lt_or_eq_of_le (last j border equal) with less | rfl
    · exact inner.2 j (candidate.of_longer border less)
    · rw [symbol (k + 1) (by omega)] at equal
      exact absurd (Option.some.inj equal) differs

theorem next_longest {table : BorderTable s} (exact : table.Exact)
    (room : table.lengths.size < s.size) :
    LongestBorder s.toList (table.lengths.size + 1) (table.next room) := by
  unfold next
  split
  · next first =>
    rw [first]
    exact ⟨border_zero _ (by omega), fun j border => Nat.le_of_lt_succ border.1⟩
  · next later =>
    have previous := exact (table.lengths.size - 1) (by omega)
    rw [Nat.sub_add_cancel (by omega)] at previous
    refine widen_longest exact ?_ _ _ previous.1 fun j border _ => previous.2 j border
    rw [Array.getElem?_toList, Array.getElem?_eq_getElem room]

theorem extend_exact {table : BorderTable s} (exact : table.Exact)
    (room : table.lengths.size < s.size) : (table.extend room).Exact := by
  intro i inside
  simp only [extend, Array.size_push] at inside
  simp only [extend, Array.getElem_push]
  split
  · next old => exact exact i old
  · next new =>
    obtain rfl : i = table.lengths.size := by omega
    exact next_longest exact room

theorem complete_exact {table : BorderTable s} (exact : table.Exact) : table.complete.Exact := by
  fun_induction complete table with
  | case1 table room ih => exact ih (extend_exact exact room)
  | case2 table full => exact exact

end BorderTable

theorem prefixBorders_longest (s : List α) (i : Nat) (inside : i < (prefixBorders s).length) :
    LongestBorder s (i + 1) (prefixBorders s)[i] := by
  have start : (BorderTable.empty (s := s.toArray)).Exact :=
    fun i impossible => absurd impossible (Nat.not_lt_zero i)
  simp only [prefixBorders, Array.getElem_toList]
  exact BorderTable.complete_exact start i (by simpa [prefixBorders] using inside)

theorem suffixBorders_longest (s : List α) (i : Nat) (inside : i < (suffixBorders s).length) :
    LongestBorder s.reverse (i + 1) (suffixBorders s)[i] :=
  prefixBorders_longest s.reverse i inside

theorem getElem?_prefixBorders_eq_some_iff {s : List α} {i k : Nat} :
    (prefixBorders s)[i]? = some k ↔ i < s.length ∧ LongestBorder s (i + 1) k := by
  have whole := length_prefixBorders s
  constructor
  · intro entry
    obtain ⟨inside, rfl⟩ := List.getElem?_eq_some_iff.1 entry
    exact ⟨by omega, prefixBorders_longest s i inside⟩
  · rintro ⟨inside, longest⟩
    have listed : i < (prefixBorders s).length := by omega
    rw [List.getElem?_eq_getElem listed, (prefixBorders_longest s i listed).unique longest]

theorem getElem?_suffixBorders_eq_some_iff {s : List α} {i k : Nat} :
    (suffixBorders s)[i]? = some k ↔ i < s.length ∧ LongestBorder s.reverse (i + 1) k := by
  rw [suffixBorders, getElem?_prefixBorders_eq_some_iff, List.length_reverse]

/- The same table with nothing taken for granted: every access to the sequence or to the table is
checked, and the number of borders that are tried is bounded. Nothing comes out when an access fails
or the turns run out. -/

namespace BorderTable

def widenChecked (s : Array α) (lengths : Array Nat) (c : α) : (turns k : Nat) → Option Nat
  | 0, _ => none
  | turns + 1, k => do
    let symbol ← s[k]?
    if symbol = c then some (k + 1)
    else
      match k with
      | 0 => some 0
      | k + 1 => widenChecked s lengths c turns (← lengths[k]?)

def nextChecked (s : Array α) (lengths : Array Nat) : Option Nat :=
  if lengths.size = 0 then some 0
  else do
    let symbol ← s[lengths.size]?
    let previous ← lengths[lengths.size - 1]?
    widenChecked s lengths symbol (previous + 1) previous

def completeChecked (s : Array α) : (entries : Nat) → Array Nat → Option (Array Nat)
  | 0, lengths => some lengths
  | entries + 1, lengths => do
    let next ← nextChecked s lengths
    completeChecked s entries (lengths.push next)

variable {s : Array α}

theorem widenChecked_eq (table : BorderTable s) (c : α) (k : Nat) (inside : k < table.lengths.size)
    (turns : Nat) (enough : k < turns) :
    widenChecked s table.lengths c turns k = some (table.widen c k inside) := by
  have within := table.fits
  induction turns generalizing k with
  | zero => exact absurd enough (Nat.not_lt_zero k)
  | succ turns ih =>
    have reached : k < s.size := by omega
    cases k with
    | zero =>
      simp only [widenChecked, widen, Array.getElem?_eq_getElem reached, Option.bind_eq_bind,
        Option.bind_some]
      split
      · rfl
      · rfl
    | succ k =>
      have listed : k < table.lengths.size := by omega
      have shorter := table.bounded k listed
      simp only [widenChecked, widen, Array.getElem?_eq_getElem reached,
        Array.getElem?_eq_getElem listed, Option.bind_eq_bind, Option.bind_some]
      split
      · rfl
      · exact ih _ (by omega) (by omega)

theorem nextChecked_eq (table : BorderTable s) (room : table.lengths.size < s.size) :
    nextChecked s table.lengths = some (table.next room) := by
  unfold nextChecked next
  split
  · rfl
  · next later =>
    have listed : table.lengths.size - 1 < table.lengths.size := by omega
    rw [Array.getElem?_eq_getElem room, Array.getElem?_eq_getElem listed]
    exact widenChecked_eq table _ _ _ _ (Nat.lt_succ_self _)

theorem completeChecked_eq (table : BorderTable s) :
    completeChecked s (s.size - table.lengths.size) table.lengths =
      some table.complete.lengths := by
  fun_induction complete table with
  | case1 table room ih =>
    have left : s.size - table.lengths.size = s.size - (table.extend room).lengths.size + 1 := by
      simp only [extend, Array.size_push]
      omega
    rw [left, completeChecked, nextChecked_eq table room]
    exact ih
  | case2 table full =>
    have none_left : s.size - table.lengths.size = 0 := Nat.sub_eq_zero_of_le (Nat.not_lt.1 full)
    rw [none_left, completeChecked]

end BorderTable

/-- The entry at index `i` is the greatest length, `i` at most, at which the first symbols of the
sequence are the last ones of its prefix up to there. In the table for suffixes it is the greatest
length at which the last symbols of the sequence are the first ones of its suffix that starts as far
from the end. The table comes out with every access in range, and each search through the borders
ends within one turn more than the entry before counts. -/
theorem border_tables_exact (s : List α) :
    (prefixBorders s).length = s.length ∧ (suffixBorders s).length = s.length ∧
    (∀ i k, (prefixBorders s)[i]? = some k ↔ i < s.length ∧
      IsGreatest {j | j ≤ i ∧ s.take j = (s.take (i + 1)).drop (i + 1 - j)} k) ∧
    (∀ i k, (suffixBorders s)[i]? = some k ↔ i < s.length ∧
      IsGreatest {j | j ≤ i ∧ s.drop (s.length - j) = (s.drop (s.length - 1 - i)).take j} k) ∧
    BorderTable.completeChecked s.toArray s.length #[] = some (prefixBorders s).toArray := by
  refine ⟨length_prefixBorders s, length_suffixBorders s, fun i k => ?_, fun i k => ?_, ?_⟩
  · have slices :
      {j | Border s (i + 1) j} = {j | j ≤ i ∧ s.take j = (s.take (i + 1)).drop (i + 1 - j)} :=
      Set.ext fun j => border_iff_take
    rw [getElem?_prefixBorders_eq_some_iff, LongestBorder.isGreatest_iff, slices]
  · rw [getElem?_suffixBorders_eq_some_iff]
    refine and_congr_right fun inside => ?_
    have slices : {j | Border s.reverse (i + 1) j} =
        {j | j ≤ i ∧ s.drop (s.length - j) = (s.drop (s.length - 1 - i)).take j} :=
      Set.ext fun j => border_reverse_iff_drop inside
    rw [LongestBorder.isGreatest_iff, slices]
  · exact BorderTable.completeChecked_eq (BorderTable.empty (s := s.toArray))

example : prefixBorders ['a', 'b', 'a', 'c', 'a', 'b', 'a', 'b'] = [0, 0, 1, 0, 1, 2, 3, 2] := by
  decide +kernel

end StringStack.Search
