import Mc6809.Command.Completion
import Mc6809.Main
import Mc6809.Proofs.Machine.InstructionSet
import Mc6809.Proofs.Program.StraightLine
import Mc6809.Simulator
import Mc6809.Proofs.Disassembly.RoundTrip
import Mc6809.Proofs.Drivers
import Mc6809.Proofs.Machine.Progress
import Mc6809.Proofs.Program.Placement
import Mc6809.Proofs.Machine.Reset
import Mc6809.Proofs.Program.Terminator
import Mc6809.Proofs.Assembler.Readback
import Mc6809.Proofs.Machine.RegisterInvariant
import Mc6809.Proofs.Machine.Halting
import Mc6809.Proofs.Assembler.Diagnostics
import Mc6809.Proofs.Assembler.Concatenation
import Mc6809.Proofs.Assembler.Rewriting
import Mc6809.Proofs.Machine.Footprint
import Mc6809.Proofs.Debugger.Continuation
import Mc6809.Proofs.Debugger.Listings
import Mc6809.Proofs.Debugger.Repetition
import Mc6809.Proofs.Debugger.StopReason
import Mc6809.Proofs.Literal.Verdict
import Mc6809.Proofs.Command.Acceptance
import Mc6809.Proofs.Command.TypedLength
import Mc6809.Proofs.Program.Listing
import Mc6809.Proofs.Debugger.Dumps
import Mc6809.Proofs.Machine.WordAccess
import Mc6809.Proofs.Simulator.History
import Mc6809.Proofs.Simulator.MemoryView
import Mc6809.Proofs.Program.Views
import Mc6809.Proofs.Machine.RegisterLine
