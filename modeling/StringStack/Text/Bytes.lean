/-! Texts as bytes. A text has exactly one byte form, and a byte list that is the form of some text
gives that text back. A part of a text can be replaced by its byte offset. -/
namespace StringStack.Text

def bytes (text : String) : List UInt8 := text.toByteArray.data.toList

def ofBytes? (bs : List UInt8) : Option String := String.fromUTF8? ⟨bs.toArray⟩

theorem ofBytes?_bytes (text : String) : ofBytes? (bytes text) = some text := by
  have valid : (⟨(bytes text).toArray⟩ : ByteArray) = text.toByteArray := by simp [bytes]
  simp only [ofBytes?, valid, String.fromUTF8?, text.isValidUTF8, dite_true]
  rfl

theorem bytes_of_ofBytes? {bs : List UInt8} {text : String} (decoded : ofBytes? bs = some text) :
    bytes text = bs := by
  simp only [ofBytes?, String.fromUTF8?] at decoded
  split at decoded
  · cases decoded
    simp [bytes, String.fromUTF8]
  · cases decoded

/-- The characters of the first `offset` bytes and those after them. -/
def splitBytes (offset : Nat) (text : List Char) : List Char × List Char :=
  go [] offset text
where
  go (before : List Char) : Nat → List Char → List Char × List Char
    | 0, rest => (before.reverse, rest)
    | _ + 1, [] => (before.reverse, [])
    | offset + 1, c :: rest => go (c :: before) (offset + 1 - c.utf8Size) rest

def splice (text : String) (offset : Nat) (pattern replacement : String) : String :=
  let parts := splitBytes offset text.toList
  String.ofList (parts.1 ++ replacement.toList ++ parts.2.drop pattern.length)

theorem splitBytes_append (before rest : List Char) :
    splitBytes (String.ofList before).utf8ByteSize (before ++ rest) = (before, rest) := by
  have split : ∀ taken : List Char,
      splitBytes.go taken (String.ofList before).utf8ByteSize (before ++ rest) =
        (taken.reverse ++ before, rest) := by
    induction before with
    | nil => intro taken; simp [splitBytes.go]
    | cons c cs ih =>
      intro taken
      obtain ⟨n, succ⟩ : ∃ n, c.utf8Size + (String.ofList cs).utf8ByteSize = n + 1 :=
        Nat.exists_eq_add_one_of_ne_zero (by have := c.utf8Size_pos; omega)
      have remaining : n + 1 - c.utf8Size = (String.ofList cs).utf8ByteSize := by omega
      simp [splitBytes.go, succ, remaining, ih]
  exact split []

end StringStack.Text
