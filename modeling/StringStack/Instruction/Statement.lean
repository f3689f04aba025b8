import StringStack.Text.Decimal
import StringStack.Instruction.Basic

namespace StringStack

inductive Statement where
  | instruction (i : Instruction)
  | label (name : String)
  | jumpTo (name : String)
  deriving DecidableEq, Repr

inductive SyntaxError where
  | unknownCommand (word : String)
  | unexpectedArgument (keyword : Keyword) (argument : String)
  | unquotedLiteral (argument : String)
  | unescapedQuote (argument : String)
  | invalidIndices (keyword : Keyword) (expected : Nat) (argument : String)
  | zeroIndex (keyword : Keyword)
  | emptyLabel
  deriving DecidableEq, Repr

def SyntaxError.message : SyntaxError → String
  | unknownCommand word => "Unknown command: `" ++ word ++ "`."
  | unexpectedArgument keyword argument =>
    "Command " ++ keyword.text ++ " does not take arguments, got `" ++ argument ++ "`."
  | unquotedLiteral argument =>
    "String literal must be enclosed in single quotes: `" ++ argument ++ "`."
  | unescapedQuote argument =>
    "String literal contains an unescaped single quote (use `''`): `" ++ argument ++ "`."
  | invalidIndices keyword expected argument =>
    "Command " ++ keyword.text ++ " expects " ++ toString expected ++
      " positive integer(s) separated by a space, got `" ++ argument ++ "`."
  | zeroIndex keyword => "Stack positions of " ++ keyword.text ++ " are 1-based, 0 is not allowed."
  | emptyLabel => "Command LABEL requires a non-empty name."

def unquote (text : String) : Except SyntaxError String :=
  match Text.Quoted.decode text.toList with
  | .ok value => .ok (String.ofList value)
  | .error .notEnclosed => .error (.unquotedLiteral text)
  | .error .loneQuote => .error (.unescapedQuote text)

namespace Position

inductive Part where
  | offset (n : Nat)
  | zero
  | malformed
  deriving DecidableEq, Repr

/-- A position is a word written in digits, and names the offset one below it. -/
def Part.ofText (text : List Char) : Part :=
  match Text.Decimal.natural? text with
  | none => malformed
  | some 0 => zero
  | some (n + 1) => if n + 1 < Text.Decimal.wordLimit then offset n else malformed

inductive Fault where
  | invalid
  | zero
  deriving DecidableEq, Repr

/-- Takes exactly `count` parts from the left and stops at the first that is no offset. -/
def offsets : (count : Nat) → List (List Char) → Except Fault (List Nat)
  | 0, [] => .ok []
  | 0, _ :: _ => .error .invalid
  | _ + 1, [] => .error .invalid
  | count + 1, part :: rest =>
    match Part.ofText part with
    | .malformed => .error .invalid
    | .zero => .error .zero
    | .offset n =>
      match offsets count rest with
      | .ok ns => .ok (n :: ns)
      | .error fault => .error fault

def Fault.toSyntaxError (keyword : Keyword) (count : Nat) (argument : String) : Fault → SyntaxError
  | invalid => .invalidIndices keyword count argument
  | zero => .zeroIndex keyword

def parse (keyword : Keyword) (count : Nat) (argument : String) : Except SyntaxError (List Nat) :=
  (offsets count (argument.toList.splitOn ' ')).mapError
    (Fault.toSyntaxError keyword count argument)

end Position

namespace Statement

/-- The word before the first space and everything after that space. -/
def splitWord (line : String) : String × String :=
  (String.ofList (line.toList.takeWhile (· ≠ ' ')),
    String.ofList ((line.toList.dropWhile (· ≠ ' ')).drop 1))

def bare (keyword : Keyword) (i : Instruction) (argument : String) : Except SyntaxError Statement :=
  if argument = "" then .ok (.instruction i) else .error (.unexpectedArgument keyword argument)

def ofKeyword (keyword : Keyword) (argument : String) : Except SyntaxError Statement :=
  match keyword with
  | .pop => bare .pop .pop argument
  | .write => bare .write .write argument
  | .read => bare .read .read argument
  | .concat => bare .concat .concat argument
  | .replaceOne => bare .replaceOne .replaceOne argument
  | .push => (unquote argument).map fun value => .instruction (.push value)
  | .swap =>
    match Position.parse .swap 2 argument with
    | .ok [a, b] => .ok (.instruction (.swap a b))
    | .ok _ => .error (.invalidIndices .swap 2 argument)
    | .error e => .error e
  | .copy =>
    match Position.parse .copy 1 argument with
    | .ok [n] => .ok (.instruction (.copy n))
    | .ok _ => .error (.invalidIndices .copy 1 argument)
    | .error e => .error e
  | .label => if argument = "" then .error .emptyLabel else .ok (.label argument)
  | .jump => if argument = "" then .ok (.instruction .jumpDynamic) else .ok (.jumpTo argument)

def parse (line : String) : Except SyntaxError Statement :=
  let (word, argument) := splitWord line
  match Keyword.ofText? word with
  | none => .error (.unknownCommand word)
  | some keyword => ofKeyword keyword argument

end Statement
end StringStack
