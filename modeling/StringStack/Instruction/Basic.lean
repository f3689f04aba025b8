import StringStack.Text.Decimal
import StringStack.Text.Quoted

/-! The instructions of the machine and the text they are written with. Offsets count down from the
head of the stack, which has offset zero; written positions count from one. -/
namespace StringStack

inductive Instruction where
  | push (value : String)
  | pop
  | write
  | read
  | swap (a b : Nat)
  | copy (n : Nat)
  /-- Does nothing when run; it is the place of a label. -/
  | mark
  | jump (target : Nat)
  /-- Takes the name of its target from the stack. -/
  | jumpDynamic
  | concat
  | replaceOne
  deriving DecidableEq, Repr

inductive Keyword where
  | push | pop | write | read | swap | copy | label | jump | concat | replaceOne
  deriving DecidableEq, Repr

namespace Keyword

def text : Keyword → String
  | push => "PUSH"
  | pop => "POP"
  | write => "WRITE"
  | read => "READ"
  | swap => "SWAP"
  | copy => "COPY"
  | label => "LABEL"
  | jump => "JMP"
  | concat => "CONCAT"
  | replaceOne => "REPLACEONE"

def all : List Keyword :=
  [push, pop, write, read, swap, copy, label, jump, concat, replaceOne]

def ofText? (word : String) : Option Keyword := all.find? fun k => k.text == word

theorem text_injective {k l : Keyword} (same : k.text = l.text) : k = l := by
  cases k <;> cases l <;> first | rfl | exact absurd same (by decide)

theorem ofText?_eq_some_iff {word : String} {k : Keyword} :
    ofText? word = some k ↔ k.text = word := by
  constructor
  · intro found
    simpa using List.find?_some found
  · rintro rfl
    cases k <;> rfl

end Keyword

def quote (value : String) : String := String.ofList (Text.Quoted.encode value.toList)

namespace Position

/-- The position of an offset, as words add: the last offset has no position, and shows as zero. -/
def ofOffset (n : Nat) : Nat := (n + 1) % Text.Decimal.wordLimit

def ofOffset? (n : Nat) : Option Nat :=
  if n + 1 < Text.Decimal.wordLimit then some (n + 1) else none

end Position

namespace Instruction

def keyword : Instruction → Keyword
  | push _ => .push
  | pop => .pop
  | write => .write
  | read => .read
  | swap _ _ => .swap
  | copy _ => .copy
  | mark => .label
  | jump _ => .jump
  | jumpDynamic => .jump
  | concat => .concat
  | replaceOne => .replaceOne

def operands? : Instruction → Option String
  | push value => some (quote value)
  | swap a b => some (toString (Position.ofOffset a) ++ " " ++ toString (Position.ofOffset b))
  | copy n => some (toString (Position.ofOffset n))
  | jump target => some ("#" ++ toString target)
  | _ => none

def text (i : Instruction) : String :=
  match i.operands? with
  | none => i.keyword.text
  | some operands => i.keyword.text ++ " " ++ operands

/-- The text where additions are checked. It ends in failure at the last offset. -/
def checkedText? (i : Instruction) : Option String :=
  match i with
  | swap a b => do
    let first ← Position.ofOffset? a
    let second ← Position.ofOffset? b
    return i.keyword.text ++ " " ++ (toString first ++ " " ++ toString second)
  | copy n => do
    let only ← Position.ofOffset? n
    return i.keyword.text ++ " " ++ toString only
  | _ => some i.text

end Instruction
end StringStack
