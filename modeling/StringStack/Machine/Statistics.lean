import StringStack.Machine.Event

/-! Counts over a run. The depth follows the stack through pushes and pops alone. -/
namespace StringStack

structure Statistics where
  /-- How often each keyword was run, failures included, for those that were. -/
  counts : List (Keyword × Nat) := []
  pushes : Nat := 0
  pops : Nat := 0
  maxDepth : Nat := 0
  jumpsTaken : Nat := 0
  depth : Nat := 0
  deriving DecidableEq, Repr

namespace Statistics

def bump (k : Keyword) : List (Keyword × Nat) → List (Keyword × Nat)
  | [] => [(k, 1)]
  | entry :: rest => if entry.1 = k then (k, entry.2 + 1) :: rest else entry :: bump k rest

def observe (s : Statistics) : Event → Statistics
  | .pushed _ =>
    { s with
      pushes := s.pushes + 1
      depth := s.depth + 1
      maxDepth := max s.maxDepth (s.depth + 1) }
  | .popped => { s with pops := s.pops + 1, depth := s.depth - 1 }
  | .executed _ i result =>
    let jumps := match result with
      | .ok (.jump _) => 1
      | _ => 0
    { s with counts := bump i.keyword s.counts, jumpsTaken := s.jumpsTaken + jumps }

/-- Counts from the most frequent keyword down; equal counts go by the text of the keyword. -/
def ranking (s : Statistics) : List (Keyword × Nat) :=
  s.counts.mergeSort fun a b =>
    decide (b.2 < a.2) || (decide (a.2 = b.2) && decide (a.1.text ≤ b.1.text))

end Statistics

instance : Observer Statistics := ⟨Statistics.observe⟩

end StringStack
