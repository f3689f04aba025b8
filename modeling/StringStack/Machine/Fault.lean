import StringStack.Instruction.Basic

namespace StringStack

inductive DeviceFault where
  | invalidUtf8
  | noRoom
  | notFound
  | isDirectory
  | other (description : String)
  deriving DecidableEq, Repr

def DeviceFault.message : DeviceFault → String
  | invalidUtf8 => "stream did not contain valid UTF-8"
  | noRoom => "failed to write whole buffer"
  | notFound => "No such file or directory (os error 2)"
  | isDirectory => "Is a directory (os error 21)"
  | other description => description

inductive Fault where
  | stackUnderflow (offset size : Nat)
  | inputExhausted
  | inputFailed (cause : DeviceFault)
  | undefinedLabel (label : String)
  | pushFailed
  | instructionOutOfRange (target : Nat)
  | outputFailed (cause : DeviceFault)
  deriving DecidableEq, Repr

def Fault.message : Fault → String
  | stackUnderflow offset size =>
    "Stack underflow: no element at position " ++ toString offset ++
      " below the head (stack has " ++
      toString size ++ " elements)"
  | inputExhausted => "Input exhausted, there is nothing left to read"
  | inputFailed cause => "Reading input failed: " ++ cause.message
  | undefinedLabel label => "Undefined label `" ++ label ++ "`"
  | pushFailed => "Adding to a full stack"
  | instructionOutOfRange target =>
    "Value used as instruction index is too large: " ++ toString target
  | outputFailed cause => "Writing output failed: " ++ cause.message

inductive RunError where
  /-- One instruction failed; `completed` counts the instructions run before it. -/
  | instructionFailed (instruction : Instruction) (index completed : Nat) (cause : Fault)
  | tooLong (completed : Nat)
  deriving DecidableEq, Repr

def RunError.message : RunError → String
  | instructionFailed instruction index completed cause =>
    "Instruction " ++ toString index ++ " (" ++ instruction.text ++
      ") failed (instruction counter " ++ toString completed ++ "): " ++ cause.message
  | tooLong completed =>
    "The program ran for too long (" ++ toString completed ++ " instructions had been run)."

end StringStack
