namespace StringStack.Text.Quoted

def double : List Char → List Char
  | [] => []
  | c :: rest => if c = '\'' then '\'' :: '\'' :: double rest else c :: double rest

/-- Reads quotes in adjacent pairs; a quote without its partner has no reading. -/
def undouble : List Char → Option (List Char)
  | [] => some []
  | '\'' :: '\'' :: rest => (undouble rest).map ('\'' :: ·)
  | c :: rest => if c = '\'' then none else (undouble rest).map (c :: ·)

def encode (value : List Char) : List Char := '\'' :: (double value ++ ['\''])

inductive Fault where
  | notEnclosed
  | loneQuote
  deriving DecidableEq, Repr

def inside? : List Char → Option (List Char)
  | '\'' :: rest => if rest.getLast? = some '\'' then some rest.dropLast else none
  | _ => none

def decode (text : List Char) : Except Fault (List Char) :=
  match inside? text with
  | none => .error .notEnclosed
  | some inner =>
    match undouble inner with
    | none => .error .loneQuote
    | some value => .ok value

theorem undouble_double (value : List Char) : undouble (double value) = some value := by
  induction value with
  | nil => rfl
  | cons c rest ih =>
    by_cases quote : c = '\''
    · simp [double, undouble, quote, ih]
    · simp [double, undouble, quote, ih]

theorem inside?_encode (value : List Char) : inside? (encode value) = some (double value) := by
  simp [inside?, encode]

theorem decode_encode (value : List Char) : decode (encode value) = .ok value := by
  simp [decode, inside?_encode, undouble_double]

end StringStack.Text.Quoted
