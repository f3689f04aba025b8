import StringStack.Proofs.Text.Lines
import StringStack.Proofs.Text.Bytes

namespace StringStack.Text

section Sequences

variable {α : Type}

/-- Segments are cut after each line feed. What is left after the last one is a segment too, unless
it is empty. -/
inductive Segments (lf : α) : List α → List (List α) → Prop where
  | nil : Segments lf [] []
  | rest {text : List α} : text ≠ [] → lf ∉ text → Segments lf text [text]
  | cons {line rest : List α} {segments : List (List α)} : lf ∉ line → Segments lf rest segments →
      Segments lf (line ++ lf :: rest) ((line ++ [lf]) :: segments)

variable {lf : α} {text segment : List α} {segments : List (List α)}

theorem Segments.flatten_eq (cut : Segments lf text segments) : segments.flatten = text := by
  induction cut with
  | nil => rfl
  | rest _ _ => exact List.flatten_singleton
  | cons _ _ ih => rw [List.flatten_cons, ih, List.append_assoc, List.singleton_append]

theorem exists_segments [DecidableEq α] (lf : α) (text : List α) :
    ∃ segments, Segments lf text segments := by
  by_cases broken : lf ∈ text
  · obtain ⟨line, more, rfl, clean⟩ := List.eq_append_cons_of_mem broken
    obtain ⟨segments, cut⟩ := exists_segments lf more
    exact ⟨_, .cons clean cut⟩
  · by_cases filled : text = []
    · exact ⟨[], filled ▸ .nil⟩
    · exact ⟨[text], .rest filled broken⟩
termination_by text.length

variable [DecidableEq α]

/-- A segment without its line feed and a carriage return directly before that. Without a line feed
it stays whole. -/
def content (lf cr : α) (segment : List α) : List α :=
  if segment.getLast? = some lf then dropFinal cr segment.dropLast else segment

theorem content_terminated (lf cr : α) (line : List α) :
    content lf cr (line ++ [lf]) = dropFinal cr line := by
  rw [content, if_pos List.getLast?_concat, List.dropLast_concat]

theorem content_of_not_mem (cr : α) (clean : lf ∉ text) : content lf cr text = text :=
  if_neg fun ended => clean (List.mem_of_getLast? ended)

theorem Segments.nextLine?_eq (cr : α) (cut : Segments lf text (segment :: segments)) :
    nextLine? lf cr text = some (content lf cr segment, segments.flatten) ∧
    Segments lf segments.flatten segments := by
  cases cut with
  | rest filled clean =>
    have passed : text.dropWhile (· ≠ lf) = [] :=
      List.dropWhile_eq_nil_iff.2 fun c member => decide_eq_true fun same => clean (same ▸ member)
    rw [nextLine?, if_neg filled, passed, content_of_not_mem cr clean]
    exact ⟨rfl, .nil⟩
  | cons clean more =>
    rw [nextLine?_terminated cr clean, content_terminated, more.flatten_eq]
    exact ⟨rfl, more⟩

theorem Segments.linesOf_eq (cr : α) (cut : Segments lf text segments) :
    linesOf lf cr text = segments.map (content lf cr) := by
  induction segments generalizing text with
  | nil =>
    cases cut
    exact linesOf_nil lf cr
  | cons segment segments ih =>
    obtain ⟨next, more⟩ := cut.nextLine?_eq cr
    rw [linesOf_of_nextLine? next, ih more, List.map_cons]

theorem exists_content_append (lf cr : α) (segment : List α) :
    ∃ ending ∈ [[], [lf], [cr, lf]], segment = content lf cr segment ++ ending := by
  unfold content
  split
  · next terminated =>
    obtain ⟨line, rfl⟩ := List.getLast?_eq_some_iff.1 terminated
    rw [List.dropLast_concat]
    unfold dropFinal
    split
    · next returned =>
      obtain ⟨front, rfl⟩ := List.getLast?_eq_some_iff.1 returned
      exact ⟨[cr, lf], by simp, by simp⟩
    · exact ⟨[lf], by simp, rfl⟩
  · exact ⟨[], by simp, (List.append_nil segment).symm⟩

end Sequences

section Bytes

theorem lineFeed : bytes (String.singleton '\n') = [10] := by decide

theorem carriageReturn : bytes (String.singleton '\r') = [13] := by decide

theorem dropLast_bytes {c : Char} {b : UInt8} {text : String}
    (single : bytes (String.singleton c) = [b]) (ended : text.toList.getLast? = some c) :
    (bytes text).dropLast = bytes (String.ofList text.toList.dropLast) := by
  obtain ⟨front, whole⟩ := List.getLast?_eq_some_iff.1 ended
  have parts : text = String.ofList front ++ String.singleton c := by
    rw [← String.toList_inj, whole]
    simp
  rw [whole, List.dropLast_concat, parts, bytes_append, single, List.dropLast_concat]

theorem dropFinal_bytes (text : String) :
    dropFinal 13 (bytes text) = bytes (String.ofList (dropFinal '\r' text.toList)) := by
  simp only [dropFinal, getLast?_bytes_eq_some_iff carriageReturn]
  split
  · next ended => exact dropLast_bytes carriageReturn ended
  · rw [String.ofList_toList]

theorem content_bytes (text : String) :
    content 10 13 (bytes text) = bytes (String.ofList (content '\n' '\r' text.toList)) := by
  simp only [content, getLast?_bytes_eq_some_iff lineFeed]
  split
  · next ended => rw [dropLast_bytes lineFeed ended, dropFinal_bytes, String.toList_ofList]
  · rw [String.ofList_toList]

theorem Segments.bytes {text : List Char} {segments : List (List Char)}
    (cut : Segments '\n' text segments) :
    Segments 10 (bytes (String.ofList text))
      (segments.map fun segment => bytes (String.ofList segment)) := by
  have clean {characters : List Char} (clean : '\n' ∉ characters) :
      10 ∉ Text.bytes (String.ofList characters) := by
    rwa [mem_bytes_iff lineFeed, String.toList_ofList]
  induction cut with
  | nil => exact .nil
  | rest filled unbroken =>
    refine .rest (mt bytes_eq_nil_iff.1 ?_) (clean unbroken)
    simpa using filled
  | @cons line rest segments unbroken _ ih =>
    have ended :
        Text.bytes (String.ofList (line ++ ['\n'])) = Text.bytes (String.ofList line) ++ [10] := by
      rw [String.ofList_append, bytes_append]
      exact congrArg _ lineFeed
    have whole : Text.bytes (String.ofList (line ++ '\n' :: rest)) =
        Text.bytes (String.ofList line) ++ 10 :: Text.bytes (String.ofList rest) := by
      rw [List.append_cons, String.ofList_append, bytes_append, ended, ← List.append_cons]
    rw [whole, List.map_cons, ended]
    exact .cons (clean unbroken) ih

theorem exists_bytes_iff_content {segment : List UInt8} :
    (∃ text, segment = bytes text) ↔ ∃ text, content 10 13 segment = bytes text := by
  constructor
  · rintro ⟨text, rfl⟩
    exact ⟨_, content_bytes text⟩
  · rintro ⟨text, inside⟩
    obtain ⟨ending, member, whole⟩ := exists_content_append 10 13 segment
    have readable : ∃ e, ending = bytes e := by
      simp only [List.mem_cons, List.not_mem_nil, or_false] at member
      rcases member with rfl | rfl | rfl
      · exact ⟨"", rfl⟩
      · exact ⟨"\n", rfl⟩
      · exact ⟨"\r\n", rfl⟩
    obtain ⟨e, rfl⟩ := readable
    exact ⟨text ++ e, by rw [whole, inside, bytes_append]⟩

end Bytes

end StringStack.Text
