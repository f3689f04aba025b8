import Mathlib.Data.List.Induction
import Mathlib.Order.Bounds.Defs
import StringStack.Search.Shifts
import StringStack.Proofs.Search.Occurrence
import StringStack.Proofs.Search.Borders

namespace StringStack.Search

variable {α : Type}

/-- Moved on by `d`, the pattern agrees with its last `matched` symbols wherever it covers them. -/
def Realigns (pattern : List α) (matched d : Nat) : Prop :=
  ∀ i, pattern.length - matched ≤ i → i < pattern.length → d ≤ i → pattern[i - d]? = pattern[i]?

theorem Realigns.of_more {pattern : List α} {matched more d : Nat} (h : Realigns pattern more d)
    (fewer : matched ≤ more) : Realigns pattern matched d :=
  fun i low high reach => h i (by omega) high reach

theorem realigns_iff_reverse {pattern : List α} {matched d : Nat}
    (fits : matched ≤ pattern.length) :
    Realigns pattern matched d ↔
      ∀ j, j < matched → j + d < pattern.length →
      pattern.reverse[j]? = pattern.reverse[j + d]? := by
  constructor
  · intro h j inside reach
    have pair := h (pattern.length - 1 - j) (by omega) (by omega) (by omega)
    rw [List.getElem?_reverse (by omega), List.getElem?_reverse reach, ← pair]
    congr 1
    omega
  · intro h i low high reach
    have pair := h (pattern.length - 1 - i) (by omega) (by omega)
    rw [List.getElem?_reverse (by omega), List.getElem?_reverse (by omega)] at pair
    have there : pattern.length - 1 - (pattern.length - 1 - i) = i := by omega
    have moved : pattern.length - 1 - (pattern.length - 1 - i + d) = i - d := by omega
    rw [there, moved] at pair
    exact pair.symm

theorem realigns_of_border {pattern : List α} {n b : Nat} (border : Border pattern.reverse n b)
    (fits : n ≤ pattern.length) : Realigns pattern b (n - b) := by
  have less := border.1
  refine (realigns_iff_reverse (by omega)).2 fun j inside reach => ?_
  rw [border.2 j inside, Nat.add_comm j]

theorem border_of_realigns {pattern : List α} {matched d : Nat} (h : Realigns pattern matched d)
    (positive : 0 < d) (fits : matched + d ≤ pattern.length) :
    Border pattern.reverse (matched + d) matched := by
  refine ⟨by omega, fun j inside => ?_⟩
  rw [(realigns_iff_reverse (by omega)).1 h j inside (by omega)]
  congr 1
  omega

/-- Compared from its end, the pattern at `start` agrees with the text down to `place` and differs
there. -/
structure DiffersAt (pattern text : List α) (start place : Nat) : Prop where
  inside : place < pattern.length
  differs : pattern[place]? ≠ text[start + place]?
  agrees : ∀ i, place < i → i < pattern.length → pattern[i]? = text[start + i]?

theorem DiffersAt.not_occursAt {pattern text : List α} {start place : Nat}
    (stop : DiffersAt pattern text start place) : ¬ OccursAt pattern text start :=
  fun found => stop.differs (occursAt_iff_getElem?.1 found place stop.inside).symm

theorem OccursAt.getElem?_moved {pattern text : List α} {start d i : Nat}
    (found : OccursAt pattern text (start + d)) (reach : d ≤ i) (inside : i < pattern.length) :
    text[start + i]? = pattern[i - d]? := by
  have same := occursAt_iff_getElem?.1 found (i - d) (by omega)
  have place : start + d + (i - d) = start + i := by omega
  rwa [place] at same

theorem realigns_of_occursAt {pattern text : List α} {start place d : Nat}
    (stop : DiffersAt pattern text start place) (found : OccursAt pattern text (start + d)) :
    Realigns pattern (pattern.length - 1 - place) d := by
  have inside := stop.inside
  intro i low high reach
  rw [← found.getElem?_moved reach high, stop.agrees i (by omega) high]

variable [DecidableEq α]

theorem longest_getLastD (pattern : List α) (filled : 0 < pattern.length) :
    LongestBorder pattern pattern.length ((prefixBorders pattern).getLastD 0) := by
  have last := getElem?_prefixBorders_last pattern filled
  obtain ⟨-, longest⟩ := getElem?_prefixBorders_eq_some_iff.1 last
  rwa [Nat.sub_add_cancel filled] at longest

theorem period_le_length (pattern : List α) : period pattern ≤ pattern.length := Nat.sub_le _ _

theorem realigns_period (pattern : List α) (filled : 0 < pattern.length) (matched : Nat) :
    Realigns pattern matched (period pattern) := by
  have border := (longest_getLastD pattern filled).1
  intro i _ high reach
  unfold period at reach ⊢
  have less := border.1
  rw [border.2 _ (by omega)]
  congr 1
  omega

theorem period_le_of_realigns {pattern : List α} {matched d : Nat} (h : Realigns pattern matched d)
    (positive : 0 < d) (off : pattern.length ≤ matched + d) : period pattern ≤ d := by
  by_cases far : pattern.length ≤ d
  · exact Nat.le_trans (period_le_length pattern) far
  · have border : Border pattern pattern.length (pattern.length - d) := by
      refine ⟨by omega, fun i inside => ?_⟩
      have pair := h (i + d) (by omega) (by omega) (by omega)
      rw [Nat.add_sub_cancel] at pair
      rw [pair]
      congr 1
      omega
    have longest := (longest_getLastD pattern (by omega)).2 _ border
    unfold period
    omega

/-- The moves that the suffix borders of length `matched` offer. -/
def borderMoves (pattern : List α) (matched : Nat) : List Nat :=
  ((suffixBorders pattern).zipIdx.filter fun e => e.1 = matched).map fun e => e.2 + 1 - matched

theorem getElem?_foldl_tighten (entries : List (Nat × Nat)) (table : Array Nat) (k : Nat) :
    (entries.foldl tighten table)[k]? = table[k]?.map fun first =>
      ((entries.filter fun e => e.1 = k).map fun e => e.2 + 1 - k).foldl min first := by
  induction entries generalizing table with
  | nil => simp
  | cons e es ih =>
    rw [List.foldl_cons, ih, tighten, Array.getElem?_modify]
    by_cases same : e.1 = k
    · simp [same, Option.map_map, Function.comp_def, Nat.min_comm]
    · simp [same]

theorem goodSuffix_eq_min? (pattern : List α) (matched : Nat)
    (h : matched < (goodSuffix pattern).size) :
    (period pattern :: borderMoves pattern matched).min? = some (goodSuffix pattern)[matched] := by
  have fits : matched < pattern.length + 1 := by simpa [size_goodSuffix] using h
  rw [← Array.getElem?_eq_getElem h, goodSuffix, getElem?_foldl_tighten, List.min?_cons']
  simp [borderMoves, fits]

theorem mem_borderMoves {pattern : List α} {matched d : Nat} :
    d ∈ borderMoves pattern matched ↔ ∃ i, i < pattern.length ∧ d = i + 1 - matched ∧
      LongestBorder pattern.reverse (i + 1) matched := by
  constructor
  · intro member
    obtain ⟨⟨b, i⟩, entry, rfl⟩ := List.mem_map.1 member
    obtain ⟨listed, same⟩ := List.mem_filter.1 entry
    obtain rfl : b = matched := by simpa using same
    have found := List.mem_zipIdx_iff_getElem?.1 listed
    obtain ⟨inside, longest⟩ := getElem?_suffixBorders_eq_some_iff.1 found
    exact ⟨i, inside, rfl, longest⟩
  · rintro ⟨i, inside, rfl, longest⟩
    have found := getElem?_suffixBorders_eq_some_iff.2 ⟨inside, longest⟩
    have listed := List.mk_mem_zipIdx_iff_getElem?.2 found
    exact List.mem_map.2 ⟨(matched, i), List.mem_filter.2 ⟨listed, by simp⟩, rfl⟩

theorem goodSuffix_realigns (pattern : List α) (filled : 0 < pattern.length) (matched : Nat)
    (h : matched < (goodSuffix pattern).size) :
    0 < (goodSuffix pattern)[matched] ∧ (goodSuffix pattern)[matched] ≤ pattern.length ∧
      Realigns pattern matched (goodSuffix pattern)[matched] := by
  obtain ⟨member, -⟩ := List.min?_eq_some_iff.1 (goodSuffix_eq_min? pattern matched h)
  rcases List.mem_cons.1 member with periodic | moved
  · rw [periodic]
    exact ⟨period_pos pattern filled, period_le_length pattern,
      realigns_period pattern filled matched⟩
  · obtain ⟨i, inside, move, longest⟩ := mem_borderMoves.1 moved
    have less := longest.1.1
    rw [move]
    exact ⟨by omega, by omega, realigns_of_border longest.1 inside⟩

theorem goodSuffix_le (pattern : List α) (matched : Nat) (h : matched < (goodSuffix pattern).size)
    (d : Nat) (positive : 0 < d) (realigns : Realigns pattern matched d) :
    (goodSuffix pattern)[matched] ≤ d := by
  obtain ⟨-, least⟩ := List.min?_eq_some_iff.1 (goodSuffix_eq_min? pattern matched h)
  induction d using Nat.strongRecOn with
  | ind d ih =>
    by_cases off : pattern.length ≤ matched + d
    · exact Nat.le_trans (least _ List.mem_cons_self) (period_le_of_realigns realigns positive off)
    · have index : matched + d - 1 < (suffixBorders pattern).length := by
        have := length_suffixBorders pattern
        omega
      have longest := suffixBorders_longest pattern (matched + d - 1) index
      have next : matched + d - 1 + 1 = matched + d := by omega
      rw [next] at longest
      have border := border_of_realigns realigns positive (by omega)
      rcases Nat.lt_or_eq_of_le (longest.2 matched border) with wider | same
      · have less := longest.1.1
        have nearer := (realigns_of_border longest.1 (by omega)).of_more (Nat.le_of_lt wider)
        exact Nat.le_trans (ih _ (by omega) (by omega) nearer) (by omega)
      · rw [← same] at longest
        refine least d (List.mem_cons_of_mem _ (mem_borderMoves.2 ⟨matched + d - 1, ?_⟩))
        rw [next]
        exact ⟨by omega, by omega, longest⟩

/-- For each number of matched symbols the table has the least move that realigns the pattern. A
move by the whole pattern always does, so no entry is longer. -/
theorem goodSuffix_exact (pattern : List α) (filled : pattern ≠ []) :
    (goodSuffix pattern).size = pattern.length + 1 ∧
      ∀ matched ≤ pattern.length, ∃ d, (goodSuffix pattern)[matched]? = some d ∧
        IsLeast {move | 1 ≤ move ∧ Realigns pattern matched move} d ∧ d ≤ pattern.length := by
  refine ⟨size_goodSuffix pattern, fun matched fits => ?_⟩
  have inside : matched < (goodSuffix pattern).size := by
    rw [size_goodSuffix]
    omega
  obtain ⟨positive, short, realigns⟩ :=
    goodSuffix_realigns pattern (List.length_pos_iff.2 filled) matched inside
  refine ⟨_, Array.getElem?_eq_getElem inside, ⟨⟨positive, realigns⟩, ?_⟩, short⟩
  rintro move ⟨positive, realigns⟩
  exact goodSuffix_le pattern matched inside move positive realigns

theorem goodSuffix_exact_aabbab :
    let pattern := ['a', 'a', 'b', 'b', 'a', 'b']
    pattern ≠ [] ∧ (goodSuffix pattern)[2]? = some 3 ∧
      IsLeast {move | 1 ≤ move ∧ Realigns pattern 2 move} 3 := by
  intro pattern
  have filled : pattern ≠ [] := List.cons_ne_nil _ _
  obtain ⟨d, found, least, -⟩ := (goodSuffix_exact pattern filled).2 2 (by decide)
  have entry : (goodSuffix pattern)[2]? = some 3 := by decide +kernel
  rw [entry] at found
  cases found
  exact ⟨filled, entry, least⟩

theorem lookup_filter_ne {c x : α} (other : c ≠ x) (table : List (α × Nat)) :
    (table.filter fun e => e.1 ≠ x).lookup c = table.lookup c := by
  induction table with
  | nil => rfl
  | cons entry rest ih =>
    obtain ⟨y, i⟩ := entry
    by_cases dropped : y = x
    · rw [List.filter_cons_of_neg (by simp [dropped]), ih, List.lookup_cons, dropped,
        beq_false_of_ne other]
    · rw [List.filter_cons_of_pos (by simp [dropped]), List.lookup_cons, List.lookup_cons, ih]

theorem lookup_recordStop (table : List (α × Nat)) (x c : α) (i : Nat) :
    (recordStop table (x, i)).lookup c = if c = x then some i else table.lookup c := by
  rw [recordStop, List.lookup_cons]
  by_cases same : c = x
  · simp [same]
  · rw [if_neg same, beq_false_of_ne same, lookup_filter_ne same]

theorem lt_lookup_of_getElem? (symbols : List α) (c : α) (i : Nat) (h : symbols[i]? = some c) :
    ∃ v, ((symbols.zipIdx 1).foldl recordStop []).lookup c = some v ∧ i < v := by
  induction symbols using List.reverseRecOn generalizing i with
  | nil => simp at h
  | append_singleton xs x ih =>
    have inside := (List.getElem?_eq_some_iff.1 h).1
    rw [List.zipIdx_append, List.foldl_append, List.zipIdx_singleton, List.foldl_cons,
      List.foldl_nil, lookup_recordStop]
    rw [List.length_append, List.length_singleton] at inside
    split
    · exact ⟨_, rfl, by omega⟩
    · next other =>
      rcases Nat.lt_or_eq_of_le (Nat.le_of_lt_succ inside) with old | rfl
      · exact ih i (by rwa [List.getElem?_append_left old] at h)
      · rw [List.getElem?_concat_length] at h
        exact absurd (Option.some.inj h).symm other

theorem getElem?_ne_of_stopSymbols_le {pattern : List α} {c : α} {i : Nat}
    (after : ((stopSymbols pattern).lookup c).getD 0 ≤ i) (before : i + 1 < pattern.length) :
    pattern[i]? ≠ some c := by
  intro met
  have listed : pattern.dropLast[i]? = some c := by
    rw [List.getElem?_dropLast, if_pos (by omega), met]
  obtain ⟨v, recorded, later⟩ := lt_lookup_of_getElem? _ c i listed
  rw [stopSymbols, recorded, Option.getD_some] at after
  omega

theorem stopShift_le_of_occursAt {pattern text : List α} {start place d : Nat} {bad : α}
    (stop : DiffersAt pattern text start place) (symbol : text[start + place]? = some bad)
    (positive : 0 < d) (found : OccursAt pattern text (start + d)) :
    place + 1 - ((stopSymbols pattern).lookup bad).getD 0 ≤ d := by
  have inside := stop.inside
  by_cases reach : d ≤ place
  · have covered : ¬ ((stopSymbols pattern).lookup bad).getD 0 ≤ place - d := fun after =>
      getElem?_ne_of_stopSymbols_le after (by omega) (found.getElem?_moved reach inside ▸ symbol)
    omega
  · omega

end StringStack.Search
