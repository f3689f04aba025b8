import StringStack.Instruction.Basic
import StringStack.Program.Labels

/-! A program is a sequence of instructions with a table of labels. Its listing has one source line
for each instruction: a mark under the name of its label, a fixed jump under the name of the label
at its target. A mark or a target without a label is listed without a name, as a line that stands
for no statement of its own. -/
namespace StringStack

structure Program where
  instructions : Array Instruction
  labels : LabelTable
  deriving DecidableEq

namespace Program

def size (p : Program) : Nat := p.instructions.size

def isEmpty (p : Program) : Bool := p.instructions.isEmpty

def lineAt (labels : LabelTable) (index : Nat) : Instruction → String
  | .mark =>
    match labels.nameAt? index with
    | some name => "LABEL " ++ name
    | none => "LABEL"
  | .jump target =>
    match labels.nameAt? target with
    | some name => "JMP " ++ name
    | none => Instruction.text (.jump target)
  | i => i.text

def listingLines (p : Program) : List String :=
  p.instructions.toList.zipIdx.map fun (i, index) => lineAt p.labels index i

def listing (p : Program) : String :=
  String.join (p.listingLines.map fun line => line ++ "\n")

end Program
end StringStack
