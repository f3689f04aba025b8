/-! White space and lines. A line ends at a line feed, which does not belong to it; one carriage
return directly before that line feed is dropped too. What follows the last line feed is a line only
if it is not empty, and keeps its carriage returns. The rule is the same for characters and for
bytes. -/
namespace StringStack.Text

/-- The characters with the Unicode property White_Space. -/
def blankRanges : List (Nat × Nat) :=
  [(0x09, 0x0D), (0x20, 0x20), (0x85, 0x85), (0xA0, 0xA0), (0x1680, 0x1680), (0x2000, 0x200A),
    (0x2028, 0x2029), (0x202F, 0x202F), (0x205F, 0x205F), (0x3000, 0x3000)]

def isBlank (c : Char) : Bool :=
  blankRanges.any fun range => decide (range.1 ≤ c.toNat) && decide (c.toNat ≤ range.2)

def trim (text : List Char) : List Char :=
  ((text.dropWhile isBlank).reverse.dropWhile isBlank).reverse

variable {α : Type} [DecidableEq α]

def dropFinal (cr : α) (line : List α) : List α :=
  if line.getLast? = some cr then line.dropLast else line

def nextLine? (lf cr : α) (text : List α) : Option (List α × List α) :=
  if text = [] then none
  else
    match text.dropWhile (· ≠ lf) with
    | [] => some (text, [])
    | _ :: rest => some (dropFinal cr (text.takeWhile (· ≠ lf)), rest)

theorem nextLine?_rest_lt {lf cr : α} {text line rest : List α}
    (cut : nextLine? lf cr text = some (line, rest)) : rest.length < text.length := by
  have shorter := (List.dropWhile_sublist (l := text) (fun c => decide (c ≠ lf))).length_le
  simp only [nextLine?] at cut
  split at cut
  · cases cut
  · next filled =>
    split at cut
    · cases cut
      exact List.length_pos_iff.2 filled
    · next found =>
      cases cut
      rw [found] at shorter
      exact Nat.lt_of_succ_le shorter

def linesOf (lf cr : α) (text : List α) : List (List α) :=
  match cut : nextLine? lf cr text with
  | none => []
  | some (line, rest) =>
    have := nextLine?_rest_lt cut
    line :: linesOf lf cr rest
termination_by text.length

def lines (text : String) : List String := (linesOf '\n' '\r' text.toList).map String.ofList

theorem linesOf_nil (lf cr : α) : linesOf lf cr [] = [] := by
  rw [linesOf]
  rfl

theorem linesOf_of_nextLine? {lf cr : α} {text line rest : List α}
    (cut : nextLine? lf cr text = some (line, rest)) :
    linesOf lf cr text = line :: linesOf lf cr rest := by
  rw [linesOf]
  split
  · next ended => rw [cut] at ended; cases ended
  · next found => rw [cut] at found; cases found; rfl

end StringStack.Text
