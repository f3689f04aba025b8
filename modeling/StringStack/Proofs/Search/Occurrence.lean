import StringStack.Search.Engine

namespace StringStack.Search

variable {α : Type}

def OccursAt (pattern text : List α) (k : Nat) : Prop := pattern <+: text.drop k

/-- What a search has to answer: the least offset of an occurrence, or none if there is none. -/
def IsFirst (pattern text : List α) : Option Nat → Prop
  | none => ∀ k, k ≤ text.length → ¬ OccursAt pattern text k
  | some k => k ≤ text.length ∧ OccursAt pattern text k ∧ ∀ j, j < k → ¬ OccursAt pattern text j

theorem occursAt_iff_getElem? {pattern text : List α} {k : Nat} :
    OccursAt pattern text k ↔ ∀ i, i < pattern.length → text[k + i]? = pattern[i]? := by
  unfold OccursAt
  rw [List.prefix_iff_getElem?]
  constructor
  · intro found i inside
    simpa [List.getElem?_eq_getElem inside] using found i inside
  · intro same i inside
    simpa [List.getElem?_eq_getElem inside] using same i inside

theorem occursAt_iff_slice {pattern text : List α} {k : Nat} :
    OccursAt pattern text k ↔ (text.drop k).take pattern.length = pattern := by
  unfold OccursAt
  rw [List.prefix_iff_eq_take]
  exact eq_comm

theorem OccursAt.length_le {pattern text : List α} {k : Nat} (found : OccursAt pattern text k) :
    pattern.length ≤ text.length - k := by
  rw [← List.length_drop]
  exact List.IsPrefix.length_le found

theorem occursAt_nil (text : List α) (k : Nat) : OccursAt [] text k := List.nil_prefix

theorem OccursAt.mem_of_getElem? {pattern text : List α} {k j : Nat} {c : α}
    (occurs : OccursAt pattern text k) (from_k : k ≤ j) (inside : j < k + pattern.length)
    (there : text[j]? = some c) : c ∈ pattern := by
  have same := occursAt_iff_getElem?.1 occurs (j - k) (by omega)
  rw [Nat.add_sub_cancel' from_k, there] at same
  exact List.mem_of_getElem? same.symm

theorem occursAt_append_iff {pattern front : List α} {k : Nat}
    (within : k + pattern.length ≤ front.length) (rest : List α) :
    OccursAt pattern (front ++ rest) k ↔ OccursAt pattern front k := by
  rw [occursAt_iff_getElem?, occursAt_iff_getElem?]
  refine forall_congr' fun i => imp_congr_right fun inside => ?_
  rw [List.getElem?_append_left (by omega)]

theorem IsFirst.unique {pattern text : List α} {r q : Option Nat} (hr : IsFirst pattern text r)
    (hq : IsFirst pattern text q) : r = q := by
  cases r with
  | none =>
    cases q with
    | none => rfl
    | some k => exact absurd hq.2.1 (hr k hq.1)
  | some k =>
    cases q with
    | none => exact absurd hr.2.1 (hq k hr.1)
    | some j =>
      have noLater : ¬ j < k := fun h => hr.2.2 j h hq.2.1
      have noSooner : ¬ k < j := fun h => hq.2.2 k h hr.2.1
      exact congrArg some (by omega)

theorem eq_iff_isFirst {pattern text : List α} {r q : Option Nat} (hr : IsFirst pattern text r) :
    r = q ↔ IsFirst pattern text q :=
  ⟨fun same => same ▸ hr, fun hq => hr.unique hq⟩

theorem isFirst_some_iff {pattern text : List α} {k : Nat} :
    IsFirst pattern text (some k) ↔
      OccursAt pattern text k ∧ ∀ j, j < k → ¬ OccursAt pattern text j := by
  refine ⟨fun first => first.2, fun ⟨found, earliest⟩ => ⟨?_, found, earliest⟩⟩
  cases pattern with
  | nil =>
    have notLater : ¬ 0 < k := fun later => earliest 0 later (occursAt_nil text 0)
    omega
  | cons c rest =>
    have length := found.length_le
    rw [List.length_cons] at length
    omega

theorem isFirst_some_iff_slice {pattern text : List α} {k : Nat} :
    IsFirst pattern text (some k) ↔
      k + pattern.length ≤ text.length ∧ (text.drop k).take pattern.length = pattern ∧
        ∀ j, j < k → (text.drop j).take pattern.length ≠ pattern := by
  simp only [IsFirst, ne_eq, ← occursAt_iff_slice]
  constructor
  · rintro ⟨inside, occurs, earliest⟩
    have length := occurs.length_le
    exact ⟨by omega, occurs, earliest⟩
  · rintro ⟨fits, occurs, earliest⟩
    exact ⟨by omega, occurs, earliest⟩

theorem isFirst_none_iff_slice {pattern text : List α} :
    IsFirst pattern text none ↔
      ∀ k, k + pattern.length ≤ text.length → (text.drop k).take pattern.length ≠ pattern := by
  simp only [IsFirst, ne_eq, ← occursAt_iff_slice]
  constructor
  · exact fun absent k fits => absent k (by omega)
  · intro absent k inside occurs
    have length := occurs.length_le
    exact absent k (by omega) occurs

variable [DecidableEq α]

theorem isFirst_scan (pattern before rest : List α)
    (passed : ∀ j, j < before.length → ¬ OccursAt pattern (before ++ rest) j) :
    IsFirst pattern (before ++ rest) (scan pattern before.length rest) := by
  have hit : pattern.isPrefixOf rest = true ↔ OccursAt pattern (before ++ rest) before.length := by
    rw [OccursAt, List.drop_left, List.isPrefixOf_iff_prefix]
  induction rest generalizing before with
  | nil =>
    unfold scan
    split
    · next found => exact ⟨by simp, hit.1 found, passed⟩
    · next missed =>
      have passedHere := Nat.forall_lt_succ_right.2 ⟨passed, mt hit.2 missed⟩
      exact fun k inside => passedHere k (by simpa using Nat.lt_succ_of_le inside)
  | cons c rest ih =>
    unfold scan
    split
    · next found => exact ⟨by simp, hit.1 found, passed⟩
    · next missed =>
      have passedHere := Nat.forall_lt_succ_right.2 ⟨passed, mt hit.2 missed⟩
      have moved := ih (before ++ [c])
      simp only [List.append_assoc, List.singleton_append, List.length_append,
        List.length_singleton] at moved
      refine moved passedHere ?_
      rw [OccursAt, List.isPrefixOf_iff_prefix, List.append_cons, ← List.length_singleton (a := c),
        ← List.length_append, List.drop_left]

theorem isFirst_naive (pattern text : List α) : IsFirst pattern text (naive pattern text) :=
  isFirst_scan pattern [] text fun _ impossible => absurd impossible (Nat.not_lt_zero _)

end StringStack.Search
