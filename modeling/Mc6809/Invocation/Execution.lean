/-
Running a program to its end or up to a step limit. The run is given a number
of instructions after which it is left unfinished, so that a program that
never ends can still be watched; what it has done until then is its answer.
-/
import Mc6809.Invocation.Request
import Mc6809.Output

namespace Mc6809

structure Execution where
  outputs : List Output
  count : Nat
  machine : Machine
  /-- Whether the processor halted or the step limit was reached. -/
  stopped : Bool

namespace RunRequest

/-- Whether the program just runs: nothing is asked for between instructions. -/
def isPlain (r : RunRequest) : Bool := r.maxSteps?.isNone && r.delay == 0 && !r.trace

/-- The spans that the instructions of a run are executed in. -/
def spans (r : RunRequest) : List Log.Span := if r.isPlain then [.run] else []

/-- Whether `count` instructions are as many as asked for. -/
def isExhausted (r : RunRequest) (count : Nat) : Bool := r.maxSteps?.any (· ≤ count)

/-- Runs on after `count` instructions, for at most `limit` more. -/
def execute (r : RunRequest) : (limit count : Nat) → Machine → Execution
  | limit, count, m =>
    if m.isHalted then ⟨[], count, m, true⟩
    else if r.isExhausted count then ⟨[.ofInvocation (.stepLimit count)], count, m, true⟩
    else
      match limit with
      | 0 => ⟨[], count, m, false⟩
      | limit + 1 =>
        let (records, trace, m) := m.stepRecorded r.spans
        let traced := if r.trace then [Output.line trace.text] else []
        let rest := r.execute limit (count + 1) m
        { rest with outputs := records.map .record ++ traced ++ rest.outputs }

end RunRequest

end Mc6809
