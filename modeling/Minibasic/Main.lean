import Minibasic.Command

/-!
The program: it carries out what the arguments ask for. Input is taken line by line and only when a
program asks for it; a source that asked for more than was there is run again from where it began,
with one line more, and what it has written before is not written again.
-/

namespace Minibasic.Command

/-- The number of an error of the operating system, which may be given as a negative one. -/
def errorNumber (code : UInt32) : UInt32 :=
  if code < 0x80000000 then code else 0 - code

/-- The reason of a failure to read a file. -/
def failureReason (e : IO.Error) : String :=
  let numbered (code : UInt32) (details : String) : String :=
    details.capitalize ++ " (os error " ++ toString (errorNumber code) ++ ")"
  match e with
  | .noFileOrDirectory _ code details | .permissionDenied _ code details
  | .inappropriateType _ code details | .invalidArgument _ code details => numbered code details
  | e => toString e

def readBytes (name : String) : IO (Except String ByteArray) := do
  try
    return .ok (← IO.FS.readBinFile name)
  catch e =>
    return .error (failureReason e)

/-- The bytes of a stream up to and with the next line feed. -/
partial def readLineBytes (input : IO.FS.Stream) (line : ByteArray) : IO ByteArray := do
  let next ← input.read 1
  if next.isEmpty then return line
  let line := line ++ next
  if next.data.contains 0x0a then return line else readLineBytes input line

/-- The next line of a stream, if it has not ended. -/
def nextLine (input : IO.FS.Stream) : IO (Option InputLine) := do
  let line ← readLineBytes input .empty
  if line.isEmpty then return none else return some (.ofBytes line.data.toList)

/-- A run failed for want of a line after all that it was given. -/
def wantsLine (given : List InputLine) (r : Report) : Bool :=
  given.getLast? != some .undecodable &&
    match r.failure with
    | some d => d.cause == .inputUnavailable
    | none => false

/-- Deals with a source, which is given one line after another as it asks for them. The first
`shown` lines of its output are already written. -/
partial def processAsking (input : IO.FS.Stream) (mode : Mode) (echo : Bool) (i : Interpreter)
    (s : Source) (given : List InputLine) (shown : Nat) : IO (Report × Interpreter) := do
  let supplied := { i with console := { i.console with input := given } }
  match process mode echo supplied s with
  | none => throw (IO.userError "the program does not end")
  | some (r, after) =>
    for line in r.lines.drop shown do
      IO.println line
    (← IO.getStdout).flush
    if wantsLine given r then
      if let some line ← nextLine input then
        return ← processAsking input mode echo i s (given ++ [line]) r.lines.length
    IO.eprint r.stderr
    return (r, after)

/-- Prompts for lines until one ends the prompt. -/
partial def promptAsking (input : IO.FS.Stream) (mode : Mode) (i : Interpreter) : IO Unit := do
  IO.print promptText
  (← IO.getStdout).flush
  match (← nextLine input).map Entry.ofLine with
  | none | some .leave => return
  | some .skip => promptAsking input mode i
  | some (.source s) =>
    let (_, i) ← processAsking input mode true i s [] 0
    promptAsking input mode i

end Minibasic.Command

open Minibasic Command in
def main (arguments : List String) : IO UInt32 := do
  match Request.ofArguments arguments with
  | .version => IO.print versionText; return 0
  | .help => IO.print helpText; return 0
  | .refused => IO.eprint usageText; return usageStatus
  | .prompt mode => promptAsking (← IO.getStdin) mode (.global []); return 0
  | .file name mode =>
    match decodeFile (← readBytes name) with
    | .error reason => IO.eprint (unreadableText name reason); return unreadableStatus
    | .ok text =>
      let (r, _) ← processAsking (← IO.getStdin) mode false (.global []) ⟨name, text⟩ [] 0
      return r.status
