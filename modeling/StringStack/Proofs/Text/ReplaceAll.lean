import StringStack.Proofs.Text.Replacement

/-! Replacing all occurrences. One pass from left to right steps over each occurrence of the pattern
that it meets. To replace the first occurrence again and again comes to the same, one occurrence at
a time, if the replacement is inert: no new occurrence can begin in it or before it. -/
namespace StringStack.Text

open Search

section Sequences

variable {α : Type} {pattern replacement before after : List α} {k j : Nat}

/-- The replacement can have no part in an occurrence of the pattern. What stands on both sides of
it is kept apart by it, or an occurrence is too short to need both. -/
structure Inert (pattern replacement : List α) : Prop where
  filled : pattern ≠ []
  apart : ∀ c ∈ replacement, c ∉ pattern
  gap : replacement ≠ [] ∨ pattern.length = 1

theorem Inert.not_covered (inert : Inert pattern replacement)
    (occurs : OccursAt pattern (before ++ replacement ++ after) k) (from_k : k ≤ j)
    (inside : j < k + pattern.length) (begun : before.length ≤ j) :
    before.length + replacement.length ≤ j := by
  by_contra short
  have within : j - before.length < replacement.length := by omega
  have there : (before ++ replacement ++ after)[j]? = some replacement[j - before.length] := by
    rw [List.append_assoc, List.getElem?_append_right begun, List.getElem?_append_left within,
      List.getElem?_eq_getElem within]
  exact inert.apart _ (List.getElem_mem within) (occurs.mem_of_getElem? from_k inside there)

theorem Inert.le_of_occursAt (inert : Inert pattern replacement)
    (occurs : OccursAt pattern (before ++ replacement ++ after) k)
    (sooner : k < (before ++ replacement).length) :
    k + pattern.length ≤ before.length := by
  have some_pattern := List.length_pos_iff.2 inert.filled
  rw [List.length_append] at sooner
  by_contra beyond
  rcases Nat.lt_or_ge k before.length with first | later
  · -- The occurrence goes on behind `before`, so it has more than one symbol and covers the first
    -- of the replacement.
    have covered := inert.not_covered occurs (Nat.le_of_lt first) (by omega) (Nat.le_refl _)
    rcases inert.gap with some_replacement | single
    · have := List.length_pos_iff.2 some_replacement
      omega
    · omega
  · have covered := inert.not_covered occurs (Nat.le_refl k) (by omega) later
    omega

theorem Inert.absent (inert : Inert pattern replacement)
    (earliest : ∀ k, k < before.length → ¬ OccursAt pattern (before ++ pattern ++ after) k)
    (k : Nat) (sooner : k < (before ++ replacement).length) :
    ¬ OccursAt pattern (before ++ replacement ++ after) k := by
  intro occurs
  have some_pattern := List.length_pos_iff.2 inert.filled
  have within := inert.le_of_occursAt occurs sooner
  rw [List.append_assoc, occursAt_append_iff within] at occurs
  have first : k < before.length := by omega
  refine earliest k first ?_
  rw [List.append_assoc, occursAt_append_iff within]
  exact occurs

variable [DecidableEq α]

/-- What a pass from left to right meets: `none` for an occurrence of the pattern, which it steps
over, and a symbol where there is none. -/
def pass (pattern : List α) : List α → List (Option α)
  | [] => []
  | c :: rest =>
    if pattern ≠ [] ∧ pattern.isPrefixOf (c :: rest) then
      none :: pass pattern ((c :: rest).drop pattern.length)
    else some c :: pass pattern rest
termination_by text => text.length
decreasing_by
  · next found =>
    have := List.length_pos_iff.2 found.1
    simp only [List.length_drop, List.length_cons]
    omega
  · simp

theorem pass_append_of_absent {front rest : List α}
    (absent : ∀ k, k < front.length → ¬ OccursAt pattern (front ++ rest) k) :
    pass pattern (front ++ rest) = front.map some ++ pass pattern rest := by
  induction front with
  | nil => rfl
  | cons c front ih =>
    have here : ¬ (pattern ≠ [] ∧ pattern.isPrefixOf (c :: (front ++ rest)) = true) := by
      rintro ⟨-, found⟩
      exact absent 0 (Nat.zero_lt_succ _) (List.isPrefixOf_iff_prefix.1 found)
    have later : pass pattern (front ++ rest) = front.map some ++ pass pattern rest :=
      ih fun k inside => absent (k + 1) (Nat.succ_lt_succ inside)
    rw [List.cons_append, pass, if_neg here, later, List.map_cons, List.cons_append]

theorem pass_append_pattern (filled : pattern ≠ []) (rest : List α) :
    pass pattern (pattern ++ rest) = none :: pass pattern rest := by
  cases pattern with
  | nil => exact absurd rfl filled
  | cons c tail =>
    have found : (c :: tail).isPrefixOf (c :: (tail ++ rest)) = true :=
      List.isPrefixOf_iff_prefix.2 (List.prefix_append (c :: tail) rest)
    have behind : (c :: (tail ++ rest)).drop (c :: tail).length = rest := List.drop_left
    rw [List.cons_append, pass, if_pos ⟨filled, found⟩, behind]

theorem pass_of_absent {text : List α} (absent : ∀ k, k ≤ text.length → ¬ OccursAt pattern text k) :
    pass pattern text = text.map some := by
  have whole := @pass_append_of_absent _ pattern _ text []
  rw [List.append_nil, pass, List.append_nil] at whole
  exact whole fun k inside => absent k (Nat.le_of_lt inside)

theorem pass_first (filled : pattern ≠ [])
    (earliest : ∀ k, k < before.length → ¬ OccursAt pattern (before ++ pattern ++ after) k) :
    pass pattern (before ++ pattern ++ after) = before.map some ++ none :: pass pattern after := by
  rw [List.append_assoc] at earliest ⊢
  rw [pass_append_of_absent earliest, pass_append_pattern filled]

theorem Inert.pass_replaced (inert : Inert pattern replacement)
    (earliest : ∀ k, k < before.length → ¬ OccursAt pattern (before ++ pattern ++ after) k) :
    pass pattern (before ++ replacement ++ after) =
      (before ++ replacement).map some ++ pass pattern after :=
  pass_append_of_absent (inert.absent earliest)

end Sequences

def fill (replacement : List Char) (met : List (Option Char)) : List Char :=
  met.flatMap fun place => place.elim replacement fun c => [c]

theorem fill_map_some (replacement characters : List Char) :
    fill replacement (characters.map some) = characters := by
  induction characters with
  | nil => rfl
  | cons c rest ih => exact congrArg (c :: ·) ih

theorem fill_cons_none (replacement : List Char) (met : List (Option Char)) :
    fill replacement (none :: met) = replacement ++ fill replacement met := List.flatMap_cons

theorem fill_append (replacement : List Char) (met more : List (Option Char)) :
    fill replacement (met ++ more) =
      fill replacement met ++ fill replacement more := List.flatMap_append

/-- How often the pattern occurs in the text from left to right, overlaps not counted. -/
def occurrences (pattern text : String) : Nat := (pass pattern.toList text.toList).count none

def replaceAll (text pattern replacement : String) : String :=
  String.ofList (fill replacement.toList (pass pattern.toList text.toList))

section Strings

variable {text pattern replacement replaced : String}

theorem count_none_map_some (characters : List Char) : (characters.map some).count none = 0 :=
  List.count_eq_zero.2 (by simp)

theorem replaceAll_of_none (absent : replaceFirst text pattern replacement = none) :
    replaceAll text pattern replacement = text ∧ occurrences pattern text = 0 := by
  rw [replaceFirst, Option.map_eq_none_iff] at absent
  have nowhere := absent ▸ isFirst_naive_toList pattern text
  rw [replaceAll, occurrences, pass_of_absent nowhere, fill_map_some, count_none_map_some,
    String.ofList_toList]
  exact ⟨rfl, rfl⟩

theorem replaceAll_of_some (inert : Inert pattern.toList replacement.toList)
    (first : replaceFirst text pattern replacement = some replaced) :
    replaceAll replaced pattern replacement = replaceAll text pattern replacement ∧
      occurrences pattern text = occurrences pattern replaced + 1 := by
  obtain ⟨before, after, rfl, rfl, least⟩ := replaceFirst_eq_some_iff.1 first
  have earliest : ∀ k, k < before.toList.length →
      ¬ OccursAt pattern.toList (before.toList ++ pattern.toList ++ after.toList) k := by
    rw [← String.toList_append, ← String.toList_append, String.length_toList]
    exact forall_not_occursAt_iff.2 least
  have met := pass_first inert.filled earliest
  have replaced := inert.pass_replaced earliest
  rw [replaceAll, replaceAll, occurrences, occurrences]
  simp only [String.toList_append, met, replaced]
  constructor
  · rw [fill_append, fill_append, fill_map_some, fill_map_some, fill_cons_none, List.append_assoc]
  · rw [List.count_append, List.count_append, List.count_cons_self, count_none_map_some,
      count_none_map_some]
    omega

end Strings

end StringStack.Text
