import StringStack.Text.Bytes
import StringStack.Search.BoyerMoore
import StringStack.Search.RabinKarp

namespace StringStack

namespace Search

variable {α : Type} [DecidableEq α]

def scan (pattern : List α) (offset : Nat) (text : List α) : Option Nat :=
  if pattern.isPrefixOf text then some offset
  else
    match text with
    | [] => none
    | _ :: rest => scan pattern (offset + 1) rest

def naive (pattern text : List α) : Option Nat := scan pattern 0 text

end Search

inductive Engine where
  | boyerMoore
  | rabinKarp
  | naive
  deriving DecidableEq, Repr, Inhabited

namespace Engine

def name : Engine → String
  | boyerMoore => "boyer-moore"
  | rabinKarp => "rabin-karp"
  | naive => "naive"

structure UnknownName where
  name : String
  deriving DecidableEq, Repr

def UnknownName.message (e : UnknownName) : String :=
  "Unknown search algorithm `" ++ e.name ++ "` (expected `boyer-moore`, `rabin-karp` or `naive`)"

/-- Reads a name or an abbreviation, in any mixture of upper and lower case ASCII letters. -/
def ofName (name : String) : Except UnknownName Engine :=
  match String.ofList (name.toList.map Char.toLower) with
  | "boyer-moore" | "bm" => .ok boyerMoore
  | "rabin-karp" | "rk" => .ok rabinKarp
  | "naive" => .ok naive
  | _ => .error ⟨name⟩

def findBytes : Engine → (pattern text : List UInt8) → Option Nat
  | boyerMoore => Search.boyerMoore
  | rabinKarp => Search.rabinKarp
  | naive => Search.naive

def find (engine : Engine) (pattern text : String) : Option Nat :=
  engine.findBytes (Text.bytes pattern) (Text.bytes text)

end Engine
end StringStack
