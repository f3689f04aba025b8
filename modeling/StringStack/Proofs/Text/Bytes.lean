import Mathlib.Data.List.Infix
import StringStack.Text.Bytes

namespace StringStack.Text

theorem bytes_append (s t : String) : bytes (s ++ t) = bytes s ++ bytes t := by
  simp [bytes]

theorem length_bytes (s : String) : (bytes s).length = s.utf8ByteSize := by
  simp [bytes]

theorem bytes_eq_nil_iff {s : String} : bytes s = [] ↔ s = "" := by
  rw [← List.length_eq_zero_iff, length_bytes, String.utf8ByteSize_eq_zero_iff]

theorem toByteArray_eq (s : String) : s.toByteArray = ⟨(bytes s).toArray⟩ := by
  simp [bytes]

theorem bytes_prefix_iff {s t : String} : bytes s <+: bytes t ↔ s.toList <+: t.toList := by
  constructor
  · rintro ⟨rest, whole⟩
    apply List.isPrefix_of_utf8Encode_append_eq_utf8Encode ⟨rest.toArray⟩
    rw [String.utf8Encode_toList, String.utf8Encode_toList, toByteArray_eq, toByteArray_eq, ← whole]
    ext1
    simp
  · rintro ⟨rest, whole⟩
    have parts : t = s ++ String.ofList rest := by
      rw [← String.toList_inj, String.toList_append, String.toList_ofList, whole]
    rw [parts, bytes_append]
    exact List.prefix_append _ _

theorem isUTF8FirstByte_getElem_zero {s : String} (filled : 0 < (bytes s).length) :
    (bytes s)[0].IsUTF8FirstByte := by
  rw [length_bytes, ← String.size_toByteArray] at filled
  exact s.isValidUTF8.isUTF8FirstByte_getElem_zero filled

theorem isValid_of_getElem?_bytes {t : String} {k : Nat} {b : UInt8}
    (there : (bytes t)[k]? = some b) (first : b.IsUTF8FirstByte) :
    (String.Pos.Raw.mk k).IsValid t := by
  obtain ⟨inside, rfl⟩ := List.getElem?_eq_some_iff.1 there
  rw [length_bytes] at inside
  exact String.Pos.Raw.isValid_iff_isUTF8FirstByte.2 (.inr ⟨inside, first⟩)

theorem exists_append_of_bytes_prefix {s t : String} {k : Nat} (filled : s ≠ "")
    (found : bytes s <+: (bytes t).drop k) :
    ∃ before after, t = before ++ after ∧ k = before.utf8ByteSize ∧ s.toList <+: after.toList := by
  have boundary : (String.Pos.Raw.mk k).IsValid t := by
    have first : 0 < (bytes s).length := List.length_pos_iff.2 (mt bytes_eq_nil_iff.1 filled)
    have there := List.prefix_iff_getElem?.1 found 0 first
    rw [List.getElem?_drop] at there
    exact isValid_of_getElem?_bytes there (isUTF8FirstByte_getElem_zero first)
  obtain ⟨before, after, rfl, place⟩ := String.Pos.Raw.isValid_iff_exists_append.1 boundary
  have place : k = before.utf8ByteSize := congrArg String.Pos.Raw.byteIdx place
  refine ⟨before, after, rfl, place, bytes_prefix_iff.1 ?_⟩
  rwa [bytes_append, place, ← length_bytes, List.drop_left] at found

theorem bytes_injective {s t : String} (same : bytes s = bytes t) : s = t :=
  Option.some.inj ((ofBytes?_bytes s).symm.trans (same ▸ ofBytes?_bytes t))

theorem bytes_infix_iff {s t : String} (filled : s ≠ "") :
    bytes s <:+: bytes t ↔ s.toList <:+: t.toList := by
  constructor
  · rintro ⟨front, back, whole⟩
    have found : bytes s <+: (bytes t).drop front.length := by
      rw [← whole, List.append_assoc, List.drop_left]
      exact List.prefix_append _ _
    obtain ⟨before, after, rfl, -, starts⟩ := exists_append_of_bytes_prefix filled found
    rw [String.toList_append]
    exact starts.isInfix.trans (List.suffix_append _ _).isInfix
  · rintro ⟨front, back, whole⟩
    have parts : t = String.ofList front ++ s ++ String.ofList back := by
      rw [← String.toList_inj, String.toList_append, String.toList_append, String.toList_ofList,
        String.toList_ofList, whole]
    rw [parts, bytes_append, bytes_append]
    exact ⟨_, _, rfl⟩

theorem bytes_suffix_iff {s t : String} (filled : s ≠ "") :
    bytes s <:+ bytes t ↔ s.toList <:+ t.toList := by
  constructor
  · rintro ⟨front, whole⟩
    have found : bytes s <+: (bytes t).drop front.length := by
      rw [← whole, List.drop_left]
    obtain ⟨before, after, rfl, place, -⟩ := exists_append_of_bytes_prefix filled found
    rw [bytes_append] at whole
    have split := List.append_inj whole (place.trans (length_bytes before).symm)
    rw [bytes_injective split.2, String.toList_append]
    exact List.suffix_append _ _
  · rintro ⟨front, whole⟩
    have parts : t = String.ofList front ++ s := by
      rw [← String.toList_inj, String.toList_append, String.toList_ofList, whole]
    rw [parts, bytes_append]
    exact List.suffix_append _ _

section SingleByte

variable {c : Char} {b : UInt8} {text : String}

theorem mem_bytes_iff (single : bytes (String.singleton c) = [b]) :
    b ∈ bytes text ↔ c ∈ text.toList := by
  rw [← List.singleton_infix_iff, ← List.singleton_infix_iff, ← single, bytes_infix_iff (by simp)]
  simp

theorem getLast?_bytes_eq_some_iff (single : bytes (String.singleton c) = [b]) :
    (bytes text).getLast? = some b ↔ text.toList.getLast? = some c := by
  rw [← List.singleton_suffix_iff_getLast?_eq_some, ← List.singleton_suffix_iff_getLast?_eq_some,
    ← single, bytes_suffix_iff (by simp)]
  simp

end SingleByte

end StringStack.Text
