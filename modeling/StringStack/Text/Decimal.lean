namespace StringStack.Text.Decimal

def wordLimit : Nat := UInt64.size

/-- The value of a run of ASCII digits, which must not be empty; it may have any number of
leading zeros and any size. -/
def natural? (text : List Char) : Option Nat :=
  if text ≠ [] ∧ text.all Char.isDigit then some (Nat.ofDigitChars 10 text 0) else none

inductive Fault where
  | empty
  | invalidDigit
  | tooLarge
  deriving DecidableEq, Repr

def Fault.message : Fault → String
  | empty => "cannot parse integer from empty string"
  | invalidDigit => "invalid digit found in string"
  | tooLarge => "number too large to fit in target type"

/-- Reads digits from the left and stops at the first one that is no digit or takes the value out
of the word range. -/
def readDigits (value : Nat) : List Char → Except Fault Nat
  | [] => .ok value
  | c :: rest =>
    if c.isDigit then
      let extended := 10 * value + (c.toNat - '0'.toNat)
      if extended < wordLimit then readDigits extended rest else .error .tooLarge
    else .error .invalidDigit

def word (text : List Char) : Except Fault Nat :=
  match text with
  | [] => .error .empty
  | ['+'] => .error .invalidDigit
  | '+' :: digits => readDigits 0 digits
  | digits => readDigits 0 digits

end StringStack.Text.Decimal
