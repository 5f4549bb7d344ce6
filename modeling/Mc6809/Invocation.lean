/-
Carrying out a command line. Everything is done here but for the reading of
files and of what is typed, and for the writing; what is written comes as a
list of outputs, together with the exit code.

The exit code is 0 when the command was carried out, 1 when it failed and 2
when the command line was refused.
-/
import Mc6809.Debugger.Input
import Mc6809.Debugger.Session
import Mc6809.Invocation.Directory
import Mc6809.Invocation.Execution
import Mc6809.Listing

namespace Mc6809

/-- What comes of a command line. -/
structure Outcome where
  outputs : List Output
  exitCode : Nat

/-- What a user sees of a command. -/
structure Transcript where
  lines : List String
  /-- What standard error says of a command line that is refused. -/
  complaints : List String
  exitCode : Nat
  deriving Repr, DecidableEq

namespace Outcome

def failed (cause : Failure) : Outcome := ⟨[.ofInvocation (.failed cause)], 1⟩

/-- The outcome as a user sees it. -/
def transcript (o : Outcome) (layout : Log.Layout) : Transcript :=
  ⟨Output.shown layout o.outputs, Output.complaints o.outputs, o.exitCode⟩

/-- What was written before the rest. -/
def after (outputs : List Output) (rest : Outcome) : Outcome :=
  { rest with outputs := outputs ++ rest.outputs }

end Outcome

def sourceText (contents : Except FileError ByteArray) : Except Failure String :=
  match contents with
  | .error cause => .error (.unreadable cause)
  | .ok bytes =>
    match String.fromUTF8? bytes with
    | some text => .ok text
    | none => .error .notText

/-- Assembles the file at a path, whose contents are given. -/
def assembleFile (path : String) (contents : Except FileError ByteArray) :
    List Output × Except Failure Program :=
  let reading := Output.ofInvocation (.reading path)
  match sourceText contents with
  | .error cause => ([reading], .error cause)
  | .ok source =>
    let outputs := reading :: (assembleRecords source).map .record
    match assemble source with
    | .ok p => (outputs, .ok p)
    | .error e => (outputs ++ [.diagnosed e], .error (.unassembled path))

namespace Program

/-- What is written of an assembled program. -/
def listingOutputs (p : Program) : List Output :=
  (p.instructions.filter (!·.isKnown)).map (fun i => .ofInvocation (.unencodable i)) ++
    p.lines.map (fun line => .line line.row) ++
    [.ofInvocation (.assembled p.instructions.length p.size)]

/-- What is written before a program runs. -/
def startOutputs (p : Program) : List Output :=
  .ofInvocation .building :: p.compileRecords.map .record ++ [.ofInvocation .running]

end Program

namespace Machine

/-- What is written when a run is over. -/
def endOutput (m : Machine) : Output := .ofInvocation (.ended m.steps m.registers)

end Machine

namespace RunRequest

/-- Runs a program under the debugger. There is no answer if execution does
not stop within `limit` instructions after a command. -/
def debug? (limit : Nat) (p : Program) (input : Input) : Option Outcome := do
  let (outputs, session, left) ←
    (Session.ofMachine (Machine.ofProgram p)).replies limit input.lines
  let outputs := .ofDebugger .entered :: outputs
  return .after outputs <|
    if left || input.isText then
      ⟨[.ofDebugger .left, session.debugger.machine.endOutput], 0⟩
    else .failed .inputNotText

/-- Runs a program. There is no answer if it does not stop within `limit`
instructions. -/
def finish? (r : RunRequest) (limit : Nat) (p : Program) : Option Outcome :=
  let e := r.execute limit 0 (Machine.ofProgram p)
  if e.stopped then some ⟨e.outputs ++ [e.machine.endOutput], 0⟩ else none

/-- Carries out the request. -/
def carryOut? (r : RunRequest) (limit : Nat) (directory : Directory) (typed : List UInt8) :
    Option Outcome :=
  match assembleFile r.path (directory.read r.path) with
  | (outputs, .error cause) => some (.after outputs (.failed cause))
  | (outputs, .ok p) => do
    let outcome ←
      if r.interactive then debug? limit p (Input.ofBytes typed) else r.finish? limit p
    return .after (outputs ++ p.startOutputs) outcome

end RunRequest

/-- Assembles a file and lists it. -/
def listFile (path : String) (contents : Except FileError ByteArray) : Outcome :=
  match assembleFile path contents with
  | (outputs, .error cause) => .after outputs (.failed cause)
  | (outputs, .ok p) => ⟨outputs ++ p.listingOutputs, 0⟩

namespace Request

/-- Carries out a request. There is no answer if a program does not stop
within `limit` instructions. Completions are left to the shell. -/
def carryOut? (request : Request) (limit : Nat) (directory : Directory) (typed : List UInt8) :
    Option Outcome :=
  match request with
  | .run r => r.carryOut? limit directory typed
  | .assemble path => some (listFile path (directory.read path))
  | .complete _ => some ⟨[], 0⟩

end Request

namespace Invocation

/-- What comes of a command line that asks for nothing to be carried out. -/
def stopOutcome : Command.Stop → Outcome
  | .refused cause => ⟨[.refused cause], 2⟩
  | .help [] => ⟨help.map .line, 0⟩
  | .help (name :: _) => ⟨((spec.find? name).map fun c => .line c.about).toList, 0⟩
  | .version => ⟨[.line version], 0⟩
  | .usage => ⟨help.map .advice, 2⟩

/-- Carries out a command line, with what is set from outside as the filter of
the log, the files that can be read and what is typed. -/
def transcript? (limit : Nat) (arguments : List String) (filterText? : Option String)
    (directory : Directory) (typed : List UInt8) : Option Transcript :=
  match read arguments with
  | .error stop => some ((stopOutcome stop).transcript ⟨.errorsOnly, false⟩)
  | .ok i => do
    let outcome ← i.request.carryOut? limit directory typed
    return outcome.transcript (i.layout filterText?)

end Invocation

end Mc6809
