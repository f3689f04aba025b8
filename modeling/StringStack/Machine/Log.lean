import StringStack.Machine.Run

namespace StringStack

inductive LogLevel where
  | debug
  | trace
  deriving DecidableEq, Repr

structure LogEntry where
  level : LogLevel
  message : String
  deriving DecidableEq, Repr

def LogEntry.line (e : LogEntry) : String :=
  match e.level with
  | .debug => "DEBUG " ++ e.message
  | .trace => "TRACE " ++ e.message

namespace Text

def escapeChar : Char → List Char
  | '"' => ['\\', '"']
  | '\\' => ['\\', '\\']
  | '\n' => ['\\', 'n']
  | '\r' => ['\\', 'r']
  | '\t' => ['\\', 't']
  | '\x00' => ['\\', '0']
  | c => [c]

def escaped (text : String) : String :=
  String.ofList ('"' :: (text.toList.flatMap escapeChar ++ ['"']))

end Text

namespace Log

/-- An instruction by the name of its kind, with its operands in brackets. -/
def describe : Instruction → String
  | .push v => "Push(" ++ Text.escaped v ++ ")"
  | .pop => "Pop"
  | .write => "Write"
  | .read => "Read"
  | .swap a b => "Swap(" ++ toString a ++ ", " ++ toString b ++ ")"
  | .copy n => "Copy(" ++ toString n ++ ")"
  | .mark => "Nop"
  | .jump target => "Jump(" ++ toString target ++ ")"
  | .jumpDynamic => "JumpDynamic"
  | .concat => "Concat"
  | .replaceOne => "ReplaceOne"

def optional : Option String → String
  | none => "None"
  | some text => "Some(" ++ text ++ ")"

def loaded (p : Program) : LogEntry :=
  ⟨.debug, "Loaded program with " ++ toString p.size ++ " instructions and " ++
    toString p.labels.size ++ " labels"⟩

variable {ι ω τ : Type}

def before (i : Instruction) (s : State ι ω τ) : LogEntry :=
  ⟨.trace, toString s.ip ++ ": " ++ i.text ++ " (stack " ++ toString s.memory.stack.size ++
    ", head " ++ optional (s.memory.stack.toList.head?.map Text.escaped) ++ ")"⟩

def branching (p : Program) (source target : Nat) : LogEntry :=
  ⟨.trace, "Branching " ++ toString source ++ "->" ++ toString target ++ " " ++
    optional (p.instructions[target]?.map describe)⟩

def finished (s : State ι ω τ) : LogEntry :=
  ⟨.debug, "Program finished after " ++ toString s.completed ++ " instructions, " ++
    toString s.memory.stack.size ++ " values left on the stack"⟩

variable [Source ι] [Sink ω] [Observer τ]

def ofSteps (settings : Settings) (p : Program) (entries : Array LogEntry) (budget : Nat)
    (s : State ι ω τ) : Array LogEntry :=
  match p.instructions[s.ip]? with
  | none => entries.push (finished s)
  | some i =>
    match budget with
    | 0 => entries
    | budget + 1 =>
      let entries := entries.push (before i s)
      match step settings p i s with
      | .moved .next next => ofSteps settings p entries budget next
      | .moved (.jump target) next =>
        ofSteps settings p (entries.push (branching p s.ip target)) budget next
      | .failed _ _ => entries

def ofRun (settings : Settings) (p : Program) (input : ι) (output : ω) (observed : τ) :
    Array LogEntry :=
  ofSteps settings p #[] settings.maxOps (.start input output observed)

end Log
end StringStack
