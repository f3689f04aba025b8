import StringStack.Proofs.Machine.LineDevices
import StringStack.Proofs.Text.Segments

namespace StringStack

open Text

/-- What a read gives for the segment that it takes: the text of the line, or a failure if the
segment is no text. If there is no segment any more, it finds the end. -/
inductive Reading.Tells : Option (List UInt8) → Reading → Prop where
  | value {segment : List UInt8} {whole v : String} :
      segment = bytes whole → bytes v = content 10 13 segment →
      Tells (some segment) (.value v)
  | failed {segment : List UInt8} :
      (∀ whole, segment ≠ bytes whole) → Tells (some segment) (.failed .invalidUtf8)
  | ended : Tells none .ended

theorem Reading.tells_ofLine (segment : List UInt8) :
    Tells (some segment) (ofLine (content 10 13 segment)) := by
  by_cases readable : ∃ v, content 10 13 segment = bytes v
  · obtain ⟨v, inside⟩ := readable
    obtain ⟨whole, same⟩ := exists_bytes_iff_content.2 ⟨v, inside⟩
    rw [ofLine_eq_value_iff.2 inside]
    exact .value same inside.symm
  · have none : ofBytes? (content 10 13 segment) = none :=
      Option.eq_none_iff_forall_ne_some.2 fun v decoded =>
        readable ⟨v, (bytes_of_ofBytes? decoded).symm⟩
    rw [ofLine, none]
    exact .failed fun whole same => readable (exists_bytes_iff_content.1 ⟨whole, same⟩)

namespace LineInput

/-- The input after this many reads. -/
def after (input : LineInput) : Nat → LineInput
  | 0 => input
  | n + 1 => (input.after n).read.2

section Reads

variable {input : LineInput} {stream segment : List UInt8} {segments : List (List UInt8)}

theorem read_of_nil (cut : Segments 10 input.rest []) : input.read = (.ended, input) := by
  apply read_of_end
  rw [← cut.flatten_eq]
  rfl

theorem read_of_cons (cut : Segments 10 input.rest (segment :: segments)) :
    input.read = (Reading.ofLine (content 10 13 segment), ⟨segments.flatten⟩) :=
  read_of_line (cut.nextLine?_eq 13).1

theorem read_segments (cut : Segments 10 input.rest segments) :
    Segments 10 input.read.2.rest segments.tail := by
  cases segments with
  | nil =>
    rw [read_of_nil cut]
    exact cut
  | cons segment segments =>
    rw [read_of_cons cut]
    exact (cut.nextLine?_eq 13).2

theorem after_segments (cut : Segments 10 stream segments) (n : Nat) :
    Segments 10 (after ⟨stream⟩ n).rest (segments.drop n) := by
  induction n with
  | zero => exact cut
  | succ n ih =>
    rw [← List.tail_drop]
    exact read_segments ih

theorem read_after (cut : Segments 10 stream segments) (n : Nat) :
    (after ⟨stream⟩ n).read.1 = segments[n]?.elim .ended fun segment =>
      .ofLine (content 10 13 segment) := by
  have left := after_segments cut n
  rw [← List.head?_drop]
  cases ahead : segments.drop n with
  | nil =>
    rw [ahead] at left
    rw [read_of_nil left]
    rfl
  | cons segment more =>
    rw [ahead] at left
    rw [read_of_cons left]
    rfl

end Reads

theorem read_after_bytes (text : String) (n : Nat) :
    (after ⟨bytes text⟩ n).read.1 = (lines text)[n]?.elim .ended .value := by
  obtain ⟨segments, cut⟩ := exists_segments '\n' text.toList
  have inBytes := cut.bytes
  rw [String.ofList_toList] at inBytes
  rw [read_after inBytes, lines, cut.linesOf_eq '\r', List.map_map, List.getElem?_map,
    List.getElem?_map]
  cases segments[n]? with
  | none => rfl
  | some segment =>
    have line := content_bytes (String.ofList segment)
    rw [String.toList_ofList] at line
    exact Reading.ofLine_eq_value_iff.2 line

end LineInput

/-- Reads from a stream of bytes take its segments, one each: what a read gives is told by the
segment that it takes, and it leaves the segments that come after. If the stream is the bytes of a
text, the reads give the lines that a program in this text would be loaded from, and then the
end. -/
theorem line_input_follows_segments (stream : List UInt8) (text : String) :
    (∃ segments, Segments 10 stream segments ∧ ∀ n,
      (LineInput.after ⟨stream⟩ n).rest = (segments.drop n).flatten ∧
      Reading.Tells segments[n]? (LineInput.after ⟨stream⟩ n).read.1) ∧
    ∀ n, (LineInput.after ⟨bytes text⟩ n).read.1 = (lines text)[n]?.elim .ended .value := by
  refine ⟨?_, LineInput.read_after_bytes text⟩
  obtain ⟨segments, cut⟩ := exists_segments 10 stream
  refine ⟨segments, cut, fun n => ⟨?_, ?_⟩⟩
  · exact (LineInput.after_segments cut n).flatten_eq.symm
  · rw [LineInput.read_after cut]
    cases segments[n]? with
    | none => exact .ended
    | some segment => exact Reading.tells_ofLine segment

example : (List.range 4).map (fun n => (LineInput.after ⟨[97, 13, 10, 255, 10, 98, 13]⟩ n).read.1) =
    [.value "a", .failed .invalidUtf8, .value "b\r", .ended] := by decide +kernel

end StringStack
