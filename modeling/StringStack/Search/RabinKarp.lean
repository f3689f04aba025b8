/-! Rabin-Karp search over bytes. Every window of the text has a fingerprint modulo `2 ^ 64`, which
the next window takes over with one byte going out and one coming in. A window with the
fingerprint of the pattern is compared with it. -/
namespace StringStack.Search

def fingerprint (window : List UInt8) : UInt64 :=
  window.foldl (fun h b => (h <<< 1) + b.toUInt64) 0

/-- What the first byte of a window adds to its fingerprint: nothing, once the window is wider than
the fingerprint. -/
def leadingWeight (width : Nat) (b : UInt8) : UInt64 :=
  if width - 1 < 64 then b.toUInt64 <<< (width - 1).toUInt64 else 0

def roll (width : Nat) (h : UInt64) (outgoing incoming : UInt8) : UInt64 :=
  ((h - leadingWeight width outgoing) <<< 1) + incoming.toUInt64

/-- Searches windows from the left. The text is given from the start of the window on, and again
from behind the window on. -/
def scanWindows (pattern : List UInt8) (width : Nat) (goal : UInt64) (offset : Nat) (h : UInt64) :
    (here ahead : List UInt8) → Option Nat
  | here, ahead =>
    if h == goal && pattern.isPrefixOf here then some offset
    else
      match here, ahead with
      | outgoing :: here, incoming :: ahead =>
        scanWindows pattern width goal (offset + 1) (roll width h outgoing incoming) here ahead
      | _, _ => none

def rabinKarp (pattern text : List UInt8) : Option Nat :=
  let width := pattern.length
  if width = 0 then some 0
  else if text.length < width then none
  else
    scanWindows pattern width (fingerprint pattern) 0 (fingerprint (text.take width)) text
      (text.drop width)

end StringStack.Search
