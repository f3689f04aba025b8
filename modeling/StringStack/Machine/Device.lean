import StringStack.Text.Bytes
import StringStack.Text.Lines
import StringStack.Machine.Fault

/-! Where values come from and where they go. A source gives its values one after another; a sink
may take a part of a value before it fails. -/
namespace StringStack

inductive Reading where
  | value (v : String)
  | ended
  | failed (cause : DeviceFault)
  deriving DecidableEq, Repr

class Source (ι : Type) where
  read : ι → Reading × ι

class Sink (ω : Type) where
  /-- The fault, if the value could not be written as a whole, and the sink afterwards. -/
  write : ω → String → Option DeviceFault × ω

instance : Source (List String) where
  read
    | [] => (.ended, [])
    | v :: rest => (.value v, rest)

/-- Bytes that are read line by line. A line that is not UTF-8 is passed over when it fails. -/
structure LineInput where
  rest : List UInt8
  deriving DecidableEq

namespace LineInput

def read (input : LineInput) : Reading × LineInput :=
  match Text.nextLine? 10 13 input.rest with
  | none => (.ended, input)
  | some (line, rest) =>
    match Text.ofBytes? line with
    | some v => (.value v, ⟨rest⟩)
    | none => (.failed .invalidUtf8, ⟨rest⟩)

end LineInput

instance : Source LineInput := ⟨LineInput.read⟩

structure Collected where
  values : Array String
  deriving DecidableEq

instance : Sink Collected where
  write out v := (none, ⟨out.values.push v⟩)

/-- Every value becomes a line of bytes. If there is a capacity, a line beyond it is cut off
there. -/
structure LineOutput where
  capacity : Option Nat
  written : Array UInt8
  deriving DecidableEq

namespace LineOutput

def line (v : String) : List UInt8 := Text.bytes v ++ [10]

def write (out : LineOutput) (v : String) : Option DeviceFault × LineOutput :=
  match out.capacity with
  | none => (none, { out with written := out.written ++ line v })
  | some n =>
    let free := n - out.written.size
    if (line v).length ≤ free then (none, { out with written := out.written ++ line v })
    else (some .noRoom, { out with written := out.written ++ (line v).take free })

end LineOutput

instance : Sink LineOutput := ⟨LineOutput.write⟩

end StringStack
