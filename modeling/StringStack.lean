import StringStack.Main
import StringStack.Machine.Log
import StringStack.Proofs.Text.Lines
import StringStack.Proofs.Text.Segments
import StringStack.Proofs.Text.Blank
import StringStack.Proofs.Text.Decimal
import StringStack.Proofs.Text.Quoted
import StringStack.Proofs.Text.Bytes
import StringStack.Proofs.Text.Replacement
import StringStack.Proofs.Text.ReplaceAll
import StringStack.Proofs.Instruction.Literals
import StringStack.Proofs.Instruction.Positions
import StringStack.Proofs.Instruction.Written
import StringStack.Proofs.FirstError
import StringStack.Proofs.Instruction.Grammar
import StringStack.Proofs.Instruction.Printed
import StringStack.Proofs.Program.Labels
import StringStack.Proofs.Program.Loading
import StringStack.Proofs.Program.Patching
import StringStack.Proofs.Program.Refusal
import StringStack.Proofs.Program.Targets
import StringStack.Proofs.Program.Listing
import StringStack.Proofs.Program.Relisting
import StringStack.Proofs.Program.Nameless
import StringStack.Proofs.Search.Occurrence
import StringStack.Proofs.Search.Borders
import StringStack.Proofs.Search.Shifts
import StringStack.Proofs.Search.BoyerMoore
import StringStack.Proofs.Search.Alignments
import StringStack.Proofs.Search.RabinKarp
import StringStack.Proofs.Search.Engine
import StringStack.Proofs.Search.Names
import StringStack.Proofs.Machine.EngineChoice
import StringStack.Proofs.Machine.ListMachine
import StringStack.Proofs.Machine.Refinement
import StringStack.Proofs.Machine.ReplaceOne
import StringStack.Proofs.Machine.Reaching
import StringStack.Proofs.Machine.InstructionPointer
import StringStack.Proofs.Machine.Log
import StringStack.Proofs.Machine.Course
import StringStack.Proofs.Machine.Transport
import StringStack.Proofs.Machine.Observers
import StringStack.Proofs.Machine.Frame
import StringStack.Proofs.Machine.Output
import StringStack.Proofs.Machine.OutputRoom
import StringStack.Proofs.Machine.InstructionLimit
import StringStack.Proofs.Machine.ReplaceLoop
import StringStack.Proofs.Machine.Traffic
import StringStack.Proofs.Machine.Path
import StringStack.Proofs.Machine.Input
import StringStack.Proofs.Machine.Statistics
import StringStack.Proofs.Machine.StackLimit
import StringStack.Proofs.Machine.DynamicJumps
import StringStack.Proofs.Machine.LineDevices
import StringStack.Proofs.Machine.LineReading
import StringStack.Proofs.Settings
import StringStack.Proofs.CommandLine.Execution
