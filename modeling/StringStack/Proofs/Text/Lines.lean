import Mathlib.Data.List.TakeWhile
import StringStack.Text.Lines

namespace StringStack.Text

section Sequences

variable {α : Type} [DecidableEq α] {lf cr : α}

theorem nextLine?_terminated (cr : α) {line : List α} (clean : lf ∉ line) (rest : List α) :
    nextLine? lf cr (line ++ lf :: rest) = some (dropFinal cr line, rest) := by
  have inside : ∀ c ∈ line, decide (c ≠ lf) = true := by
    intro c member
    exact decide_eq_true fun same => clean (same ▸ member)
  have taken : (line ++ lf :: rest).takeWhile (· ≠ lf) = line := by
    rw [List.takeWhile_append_of_pos inside]
    simp
  have dropped : (line ++ lf :: rest).dropWhile (· ≠ lf) = lf :: rest := by
    rw [List.dropWhile_append_of_pos inside]
    simp
  rw [nextLine?, if_neg (by simp), dropped, taken]

theorem linesOf_terminated (cr : α) {line : List α} (clean : lf ∉ line) :
    linesOf lf cr (line ++ [lf]) = [dropFinal cr line] := by
  rw [linesOf_of_nextLine? (nextLine?_terminated cr clean []), linesOf_nil]

/-- After a line feed, lines are read as from the start. The induction is on the length of what is
before it. -/
theorem linesOf_append_terminated (cr : α) (front rest : List α) :
    linesOf lf cr (front ++ lf :: rest) = linesOf lf cr (front ++ [lf]) ++ linesOf lf cr rest := by
  by_cases broken : lf ∈ front
  · obtain ⟨line, more, rfl, clean⟩ := List.eq_append_cons_of_mem broken
    have whole := nextLine?_terminated cr clean (more ++ lf :: rest)
    have part := nextLine?_terminated cr clean (more ++ [lf])
    rw [List.append_assoc, List.append_assoc, List.cons_append, List.cons_append,
      linesOf_of_nextLine? whole, linesOf_of_nextLine? part, linesOf_append_terminated cr more rest,
      List.cons_append]
  · rw [linesOf_of_nextLine? (nextLine?_terminated cr broken rest), linesOf_terminated cr broken,
      List.singleton_append]
termination_by front.length

theorem linesOf_flatMap_eq (cr : α) (lines : List (List α)) :
    linesOf lf cr (lines.flatMap fun line => line ++ [lf]) =
      lines.flatMap fun line => linesOf lf cr (line ++ [lf]) := by
  induction lines with
  | nil => exact linesOf_nil lf cr
  | cons line lines ih =>
    rw [List.flatMap_cons, List.append_assoc, List.singleton_append, linesOf_append_terminated, ih,
      List.flatMap_cons]

theorem linesOf_flatMap (cr : α) {lines : List (List α)} (clean : ∀ line ∈ lines, lf ∉ line) :
    linesOf lf cr (lines.flatMap fun line => line ++ [lf]) = lines.map (dropFinal cr) := by
  have each : ∀ line ∈ lines, linesOf lf cr (line ++ [lf]) = [dropFinal cr line] :=
    fun line member => linesOf_terminated cr (clean line member)
  rw [linesOf_flatMap_eq, List.map_eq_flatMap, List.flatMap_def, List.flatMap_def,
    List.map_congr_left each]

theorem not_mem_dropFinal {line : List α} (clean : lf ∉ line) : lf ∉ dropFinal cr line := by
  unfold dropFinal
  split
  · exact fun member => clean (List.dropLast_subset line member)
  · exact clean

theorem not_mem_of_nextLine? {text line rest : List α}
    (cut : nextLine? lf cr text = some (line, rest)) : lf ∉ line := by
  unfold nextLine? at cut
  split at cut
  · cases cut
  · split at cut
    · next ended =>
      cases cut
      intro member
      have passed := List.dropWhile_eq_nil_iff.1 ended lf member
      simp at passed
    · cases cut
      refine not_mem_dropFinal fun member => ?_
      have passed := List.mem_takeWhile_imp member
      simp at passed

theorem not_mem_of_mem_linesOf {text line : List α} (member : line ∈ linesOf lf cr text) :
    lf ∉ line := by
  fun_induction linesOf lf cr text with
  | case1 text ended => exact absurd member List.not_mem_nil
  | case2 text first rest cut _ ih =>
    rcases List.mem_cons.1 member with rfl | later
    · exact not_mem_of_nextLine? cut
    · exact ih later

theorem dropFinal_of_getLast?_ne {line : List α} (other : line.getLast? ≠ some cr) :
    dropFinal cr line = line := if_neg other

theorem dropFinal_append (front : List α) {line : List α} (filled : line ≠ []) :
    dropFinal cr (front ++ line) = front ++ dropFinal cr line := by
  have last : (front ++ line).getLast? = line.getLast? := by
    rw [List.getLast?_append, List.getLast?_eq_some_getLast filled, Option.some_or]
  unfold dropFinal
  rw [last]
  split
  · exact List.dropLast_append_of_ne_nil filled
  · rfl

theorem dropFinal_ne_self {line : List α} (ended : line.getLast? = some cr) :
    dropFinal cr line ≠ line := by
  obtain ⟨front, rfl⟩ := List.getLast?_eq_some_iff.1 ended
  rw [dropFinal, if_pos ended, List.dropLast_concat]
  simp

theorem linesOf_flatMap_eq_self_iff {written : List (List α)} :
    linesOf lf cr (written.flatMap fun line => line ++ [lf]) = written ↔
      ∀ line ∈ written, lf ∉ line ∧ line.getLast? ≠ some cr := by
  constructor
  · intro same
    have clean : ∀ line ∈ written, lf ∉ line := by
      intro line member
      rw [← same] at member
      exact not_mem_of_mem_linesOf member
    rw [linesOf_flatMap cr clean] at same
    intro line member
    refine ⟨clean line member, fun ended => dropFinal_ne_self ended ?_⟩
    exact List.map_inj_left.1 (same.trans (List.map_id written).symm) line member
  · intro safe
    rw [linesOf_flatMap cr fun line member => (safe line member).1]
    refine (List.map_congr_left fun line member => ?_).trans (List.map_id written)
    exact dropFinal_of_getLast?_ne (safe line member).2

end Sequences

theorem not_mem_of_mem_lines {source line : String} (member : line ∈ lines source) :
    '\n' ∉ line.toList := by
  obtain ⟨characters, listed, rfl⟩ := List.mem_map.1 member
  rw [String.toList_ofList]
  exact not_mem_of_mem_linesOf listed

theorem toList_join_terminated (written : List String) :
    (String.join (written.map fun line => line ++ "\n")).toList =
      (written.map String.toList).flatMap fun line => line ++ ['\n'] := by
  simp [String.toList_join, List.flatMap_map]

theorem lines_join {written : List String} (clean : ∀ line ∈ written, '\n' ∉ line.toList) :
    lines (String.join (written.map fun line => line ++ "\n")) =
      written.map fun line => String.ofList (dropFinal '\r' line.toList) := by
  have clean_characters : ∀ line ∈ written.map String.toList, '\n' ∉ line := by
    simpa using clean
  have read := linesOf_flatMap '\r' clean_characters
  rw [lines, toList_join_terminated, read, List.map_map, List.map_map]
  rfl

theorem mem_lines_join {written : List String} {line : String} (member : line ∈ written)
    (clean : '\n' ∉ line.toList) (unended : line.toList.getLast? ≠ some '\r') :
    line ∈ lines (String.join (written.map fun line => line ++ "\n")) := by
  have alone : line.toList ∈ linesOf '\n' '\r' (line.toList ++ ['\n']) := by
    rw [linesOf_terminated '\r' clean, dropFinal_of_getLast?_ne unended]
    exact List.mem_singleton_self _
  rw [lines, toList_join_terminated, linesOf_flatMap_eq]
  refine List.mem_map.2 ⟨line.toList, ?_, String.ofList_toList⟩
  exact List.mem_flatMap.2 ⟨line.toList, List.mem_map_of_mem member, alone⟩

end StringStack.Text
