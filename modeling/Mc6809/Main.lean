/-
The program itself: it reads the files and lines that commands ask for, and
writes what they answer as soon as it is there.
-/
import Mc6809.Invocation

namespace Mc6809

namespace Terminal

/-- Writes one output, if it is shown. -/
def write (layout : Log.Layout) : Output → IO Unit
  | .record r =>
    match layout.line? r with
    | some line => IO.println line
    | none => pure ()
  | .line text => IO.println text
  | .refused cause => IO.eprintln ("error: " ++ cause.message)
  | .diagnosed e => do
    IO.eprintln (e.code ++ ": " ++ e.message)
    for (label, _) in e.label?.toList do
      IO.eprintln ("  " ++ label)
    for help in e.help?.toList do
      IO.eprintln ("  help: " ++ help)
  | .advice text => IO.eprintln text

def writeAll (layout : Log.Layout) (outputs : List Output) : IO Unit :=
  outputs.forM (write layout)

/-- Why a file could not be read. The number of the error is negated by some
of the calls. -/
def fileError : IO.Error → FileError
  | .inappropriateType _ number _ =>
    if number = 20 ∨ 0 - number = 20 then .notADirectory else .isDirectory
  | .invalidArgument .. => .nameTooLong
  | _ => .notFound

def readFile (path : String) : IO (Except FileError ByteArray) := do
  match ← (IO.FS.readBinFile path).toBaseIO with
  | .ok contents => return .ok contents
  | .error e => return .error (fileError e)

/-- Reads up to the end of a line, or of the input. -/
partial def readLine (input : IO.FS.Stream) (kept : ByteArray) : IO ByteArray := do
  let bytes ← input.read 1
  let kept := kept ++ bytes
  if bytes.isEmpty || bytes.data.contains 10 then return kept else readLine input kept

/-- Runs a program piece by piece. -/
partial def run (layout : Log.Layout) (r : RunRequest) (count : Nat) (m : Machine) :
    IO Machine := do
  let e := r.execute (if r.delay = 0 then 1000 else 1) count m
  writeAll layout e.outputs
  if e.stopped then return e.machine
  if r.delay ≠ 0 then IO.sleep (UInt32.ofNat r.delay)
  run layout r e.count e.machine

/-- Writes a reply, and what execution that it leaves unfinished still does.
The answer is whether the session goes on. -/
partial def finishReply (layout : Log.Layout) (r : Reply) : IO (Session × Bool) := do
  writeAll layout r.outputs
  match r.flow with
  | .prompt => return (r.session, true)
  | .leave => return (r.session, false)
  | .resuming count => finishReply layout (r.session.proceed 1000 count)

/-- Answers lines until they run out or the debugger is left. The answer is
the session, if all that was typed is text. -/
partial def converse (layout : Log.Layout) (input : IO.FS.Stream) (kept : List Char)
    (s : Session) : IO (Option Session) := do
  let bytes ← readLine input .empty
  if bytes.isEmpty then return some s
  match String.fromUTF8? bytes with
  | none => return none
  | some text =>
    match Input.join kept text.toList with
    | .unfinished kept => converse layout input kept s
    | .complete line =>
      let (s, goesOn) ← finishReply layout (s.reply 1000 (String.ofList line))
      if goesOn then converse layout input [] s else return some s

def conclude (layout : Log.Layout) (o : Outcome) : IO UInt32 := do
  writeAll layout o.outputs
  return UInt32.ofNat o.exitCode

def runProgram (layout : Log.Layout) (r : RunRequest) (p : Program) : IO UInt32 := do
  writeAll layout p.startOutputs
  let machine := Machine.ofProgram p
  if r.interactive then
    write layout (.ofDebugger .entered)
    match ← converse layout (← IO.getStdin) [] (.ofMachine machine) with
    | some s => conclude layout ⟨[.ofDebugger .left, s.debugger.machine.endOutput], 0⟩
    | none => conclude layout (.failed .inputNotText)
  else
    let machine ← run layout r 0 machine
    conclude layout ⟨[machine.endOutput], 0⟩

def carryOut (layout : Log.Layout) : Request → IO UInt32
  | .run r => do
    let (outputs, assembled) := assembleFile r.path (← readFile r.path)
    writeAll layout outputs
    match assembled with
    | .ok p => runProgram layout r p
    | .error cause => conclude layout (.failed cause)
  | .assemble path => do conclude layout (listFile path (← readFile path))
  | .complete _ => return 0

end Terminal

end Mc6809

open Mc6809 in
def main (arguments : List String) : IO UInt32 := do
  match Invocation.read arguments with
  | .error stop => Terminal.conclude ⟨.errorsOnly, false⟩ (Invocation.stopOutcome stop)
  | .ok i => Terminal.carryOut (i.layout (← IO.getEnv "RUST_LOG")) i.request
