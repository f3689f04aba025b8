import StringStack.Search.Engine
import StringStack.Proofs.Search.BoyerMoore
import StringStack.Proofs.Search.RabinKarp
import StringStack.Proofs.Text.Bytes

namespace StringStack.Engine

open Search Text

theorem findBytes_eq_naive (engine : Engine) (pattern text : List UInt8) :
    engine.findBytes pattern text = Search.naive pattern text := by
  cases engine with
  | boyerMoore => exact boyerMoore_eq_naive pattern text
  | rabinKarp => exact rabinKarp_eq_naive pattern text
  | naive => rfl

theorem find_eq (a b : Engine) (pattern text : String) :
    a.find pattern text = b.find pattern text := by
  simp only [find, findBytes_eq_naive]

def offsetOf (text : String) (k : Nat) : Nat := (String.ofList (text.toList.take k)).utf8ByteSize

theorem drop_bytes_offsetOf (text : String) (k : Nat) :
    (bytes text).drop (offsetOf text k) = bytes (String.ofList (text.toList.drop k)) := by
  have parts : text = String.ofList (text.toList.take k) ++ String.ofList (text.toList.drop k) := by
    rw [← String.ofList_append, List.take_append_drop, String.ofList_toList]
  have whole := congrArg bytes parts
  rw [bytes_append] at whole
  rw [whole, offsetOf, ← length_bytes, List.drop_left]

theorem occursAt_bytes_offsetOf {pattern text : String} {k : Nat} :
    OccursAt (bytes pattern) (bytes text) (offsetOf text k) ↔
      OccursAt pattern.toList text.toList k := by
  rw [OccursAt, OccursAt, drop_bytes_offsetOf, bytes_prefix_iff, String.toList_ofList]

/-- A text that is not empty occurs in the bytes of another one at the places of characters only. -/
theorem exists_offsetOf_of_occursAt_bytes {pattern text : String} {n : Nat} (filled : pattern ≠ "")
    (found : OccursAt (bytes pattern) (bytes text) n) :
    ∃ k, k ≤ text.toList.length ∧ n = offsetOf text k := by
  obtain ⟨before, after, rfl, place, -⟩ := exists_append_of_bytes_prefix filled found
  refine ⟨before.toList.length, by simp, ?_⟩
  rw [place, offsetOf, String.toList_append, List.take_left, String.ofList_toList]

theorem offsetOf_mono (text : String) {j k : Nat} (below : j ≤ k) :
    offsetOf text j ≤ offsetOf text k := by
  obtain ⟨rest, longer⟩ := List.take_prefix_take_left (l := text.toList) below
  rw [offsetOf, offsetOf, ← longer, String.ofList_append, String.utf8ByteSize_append]
  exact Nat.le_add_right _ _

theorem isFirst_bytes {pattern text : String} {r : Option Nat}
    (first : IsFirst pattern.toList text.toList r) :
    IsFirst (bytes pattern) (bytes text) (r.map (offsetOf text)) := by
  by_cases empty : pattern = ""
  · subst empty
    obtain rfl : r = some 0 := first.unique (q := some 0) ⟨by simp, by simp [OccursAt], by simp⟩
    exact ⟨by simp [offsetOf], by simp [OccursAt, bytes], by simp [offsetOf]⟩
  · cases r with
    | none =>
      intro n _ found
      obtain ⟨k, inside, rfl⟩ := exists_offsetOf_of_occursAt_bytes empty found
      exact first k inside (occursAt_bytes_offsetOf.1 found)
    | some k =>
      obtain ⟨found, earliest⟩ := isFirst_some_iff.1 first
      refine isFirst_some_iff.2 ⟨occursAt_bytes_offsetOf.2 found, fun n sooner also => ?_⟩
      obtain ⟨j, -, rfl⟩ := exists_offsetOf_of_occursAt_bytes empty also
      have notBelow : ¬ k ≤ j := fun below => Nat.not_lt.2 (offsetOf_mono text below) sooner
      exact earliest j (Nat.not_le.1 notBelow) (occursAt_bytes_offsetOf.1 also)

theorem find_eq_offsetOf (engine : Engine) (pattern text : String) :
    engine.find pattern text = (Search.naive pattern.toList text.toList).map (offsetOf text) := by
  have first := isFirst_bytes (isFirst_naive pattern.toList text.toList)
  rw [find, findBytes_eq_naive]
  exact (isFirst_naive _ _).unique first

end StringStack.Engine
