import StringStack.Text.Bytes
import StringStack.Proofs.Search.Engine

namespace StringStack.Text

open Search

/-- The text with its first occurrence of the pattern replaced, if the pattern occurs. -/
def replaceFirst (text pattern replacement : String) : Option String :=
  (naive pattern.toList text.toList).map fun k =>
    String.ofList (text.toList.take k) ++ replacement ++
      String.ofList (text.toList.drop (k + pattern.length))

theorem isFirst_naive_toList (pattern text : String) :
    IsFirst pattern.toList text.toList (naive pattern.toList text.toList) := isFirst_naive _ _

theorem exists_append_of_occursAt {pattern text : String} {k : Nat}
    (found : OccursAt pattern.toList text.toList k) :
    text = String.ofList (text.toList.take k) ++ pattern ++
      String.ofList (text.toList.drop (k + pattern.length)) := by
  obtain ⟨rest, behind⟩ := found
  have after : text.toList.drop (k + pattern.length) = rest := by
    rw [← List.drop_drop, ← behind, ← String.length_toList, List.drop_left]
  rw [after, ← String.toList_inj, String.toList_append, String.toList_append, String.toList_ofList,
    String.toList_ofList, List.append_assoc, behind, List.take_append_drop]

theorem occursAt_append (before pattern after : String) :
    OccursAt pattern.toList (before ++ pattern ++ after).toList before.length := by
  rw [OccursAt, String.toList_append, String.toList_append, List.append_assoc,
    ← String.length_toList, List.drop_left]
  exact List.prefix_append _ _

theorem take_append (before pattern after : String) :
    String.ofList ((before ++ pattern ++ after).toList.take before.length) = before := by
  rw [String.append_assoc, String.toList_append, ← String.length_toList, List.take_left,
    String.ofList_toList]

theorem drop_append (before pattern after : String) :
    String.ofList ((before ++ pattern ++ after).toList.drop (before.length + pattern.length)) =
      after := by
  rw [String.toList_append, ← String.length_append, ← String.length_toList, List.drop_left,
    String.ofList_toList]

theorem forall_not_occursAt_iff {pattern text : String} {n : Nat} :
    (∀ k, k < n → ¬ OccursAt pattern.toList text.toList k) ↔
      ∀ sooner rest, text = sooner ++ pattern ++ rest → n ≤ sooner.length := by
  constructor
  · rintro earliest sooner rest rfl
    have notEarlier : ¬ sooner.length < n :=
      fun less => earliest _ less (occursAt_append sooner pattern rest)
    exact Nat.not_lt.1 notEarlier
  · intro least k less found
    have shorter := least _ _ (exists_append_of_occursAt found)
    rw [String.length_ofList, List.length_take] at shorter
    omega

theorem naive_toList_eq_some_iff {pattern text : String} {n : Nat} :
    naive pattern.toList text.toList = some n ↔
      ∃ before after, text = before ++ pattern ++ after ∧ before.length = n ∧
        ∀ sooner rest, text = sooner ++ pattern ++ rest → before.length ≤ sooner.length := by
  constructor
  · intro answer
    obtain ⟨inside, found, earliest⟩ := answer ▸ isFirst_naive_toList pattern text
    have length : (String.ofList (text.toList.take n)).length = n := by
      rw [String.length_ofList, List.length_take_of_le inside]
    refine ⟨_, _, exists_append_of_occursAt found, length, ?_⟩
    rw [length]
    exact forall_not_occursAt_iff.1 earliest
  · rintro ⟨before, after, rfl, rfl, least⟩
    have first : IsFirst pattern.toList (before ++ pattern ++ after).toList (some before.length) :=
      isFirst_some_iff.2 ⟨occursAt_append before pattern after, forall_not_occursAt_iff.2 least⟩
    exact (isFirst_naive_toList _ _).unique first

theorem replaceFirst_eq_some_iff {text pattern replacement replaced : String} :
    replaceFirst text pattern replacement = some replaced ↔
      ∃ before after, text = before ++ pattern ++ after ∧
      replaced = before ++ replacement ++ after ∧
        ∀ sooner rest, text = sooner ++ pattern ++ rest → before.length ≤ sooner.length := by
  rw [replaceFirst, Option.map_eq_some_iff]
  simp only [naive_toList_eq_some_iff]
  constructor
  · rintro ⟨_, ⟨before, after, rfl, rfl, least⟩, rfl⟩
    refine ⟨before, after, rfl, ?_, least⟩
    rw [take_append, drop_append]
  · rintro ⟨before, after, rfl, rfl, least⟩
    refine ⟨_, ⟨before, after, rfl, rfl, least⟩, ?_⟩
    rw [take_append, drop_append]

theorem replaceFirst_eq_none_iff {text pattern replacement : String} :
    replaceFirst text pattern replacement = none ↔
      ∀ before after, text ≠ before ++ pattern ++ after := by
  rw [replaceFirst, Option.map_eq_none_iff]
  constructor
  · rintro answer before after rfl
    have absent := answer ▸ isFirst_naive_toList pattern (before ++ pattern ++ after)
    have inside : before.length ≤ (before ++ pattern ++ after).toList.length := by
      rw [String.length_toList, String.length_append, String.length_append, Nat.add_assoc]
      exact Nat.le_add_right _ _
    exact absent before.length inside (occursAt_append before pattern after)
  · intro absent
    refine (isFirst_naive_toList pattern text).unique (q := none) fun k _ found => ?_
    exact absent _ _ (exists_append_of_occursAt found)

theorem splice_offsetOf (text : String) (k : Nat) (pattern replacement : String) :
    splice text (Engine.offsetOf text k) pattern replacement =
      String.ofList (text.toList.take k) ++ replacement ++
        String.ofList (text.toList.drop (k + pattern.length)) := by
  have parts := splitBytes_append (text.toList.take k) (text.toList.drop k)
  rw [List.take_append_drop] at parts
  simp only [splice, Engine.offsetOf, parts, List.drop_drop, String.ofList_append,
    String.ofList_toList]

theorem map_splice_find (engine : Engine) (text pattern replacement : String) :
    (engine.find pattern text).map (fun offset => splice text offset pattern replacement) =
      replaceFirst text pattern replacement := by
  rw [Engine.find_eq_offsetOf, Option.map_map, replaceFirst]
  congr
  funext k
  exact splice_offsetOf text k pattern replacement

end StringStack.Text
