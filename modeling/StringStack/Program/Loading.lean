import StringStack.Text.Lines
import StringStack.Instruction.Statement
import StringStack.Program.Basic

/-! Loading a program. Comments are left out, every other line is one instruction; then each jump to
a name gets the index of its label. Errors name lines by their number in the whole text. -/
namespace StringStack

inductive LoadError where
  | badLine (line : Nat) (cause : SyntaxError)
  | duplicateLabel (line : Nat) (label : String) (existing : Nat)
  | undefinedLabel (line : Nat) (label : String)
  deriving DecidableEq, Repr

def LoadError.message : LoadError → String
  | badLine line cause => "Syntax error on line " ++ toString line ++ ": " ++ cause.message
  | duplicateLabel line label existing =>
    "Label `" ++ label ++ "` on line " ++ toString line ++ " is already defined (instruction " ++
      toString existing ++ ")."
  | undefinedLabel line label =>
    "Jump on line " ++ toString line ++ " refers to undefined label `" ++ label ++ "`."

namespace Program

def isComment (line : String) : Bool :=
  match line.toList with
  | [] => true
  | c :: _ => Text.isBlank c

/-- The lines that are no comments, each with its number in the whole text, counted from one. -/
def numbered (lines : List String) : List (String × Nat) :=
  (lines.zipIdx 1).filter fun entry => !isComment entry.1

/-- What is known of a program while its lines are read: the statements with their line numbers, and
the labels among them. -/
structure Draft where
  statements : Array (Statement × Nat)
  labels : LabelTable

namespace Draft

def empty : Draft := ⟨#[], .empty⟩

def add (draft : Draft) (entry : String × Nat) : Except LoadError Draft :=
  match Statement.parse entry.1 with
  | .error cause => .error (.badLine entry.2 cause)
  | .ok (.label name) =>
    match draft.labels.insert name draft.statements.size with
    | .error existing => .error (.duplicateLabel entry.2 name existing)
    | .ok labels => .ok ⟨draft.statements.push (.label name, entry.2), labels⟩
  | .ok statement => .ok { draft with statements := draft.statements.push (statement, entry.2) }

def resolve (labels : LabelTable) (entry : Statement × Nat) : Except LoadError Instruction :=
  match entry.1 with
  | .instruction i => .ok i
  | .label _ => .ok .mark
  | .jumpTo name =>
    match labels.get? name with
    | some target => .ok (.jump target)
    | none => .error (.undefinedLabel entry.2 name)

def finish (draft : Draft) : Except LoadError Program :=
  (draft.statements.mapM (resolve draft.labels)).map fun instructions =>
    ⟨instructions, draft.labels⟩

end Draft

def load (lines : List String) : Except LoadError Program :=
  ((numbered lines).foldlM Draft.add .empty).bind Draft.finish

def loadText (source : String) : Except LoadError Program := load (Text.lines source)

end Program
end StringStack
