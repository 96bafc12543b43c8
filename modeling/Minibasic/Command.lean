import Minibasic.Command.Prompt

/-!
The command line as a function of its arguments, of the files that it can read and of its standard
input.
-/

namespace Minibasic.Command

/-- Exit status and output. -/
structure Outcome where
  status : UInt32
  stdout : String
  stderr : String
deriving DecidableEq

def versionText : String := "rbasic 0.1.0\n"

def helpText : String :=
  versionText ++ "Runs rbasic programs, or starts a prompt when no script is given\n\n" ++
    "USAGE:\n    rbasic [FLAGS] [script]\n\n" ++
    "FLAGS:\n        --ast        Print the syntax tree instead of running\n" ++
    "    -h, --help       Prints help information\n" ++
    "        --tokens     Print the token stream instead of running\n" ++
    "    -V, --version    Prints version information\n"

def usageText : String := "error: invalid arguments\n\nUSAGE:\n    rbasic [FLAGS] [script]\n"

/-- The status for arguments that make no sense together. -/
def usageStatus : UInt32 := 1

/-- The status for a file that cannot be read. -/
def unreadableStatus : UInt32 := 74

/-- The message for a file that cannot be read. -/
def unreadableText (name reason : String) : String :=
  "Could not read " ++ name ++ ": " ++ reason ++ "\n"

/-- The text of a file, or the reason why there is none. -/
def decodeFile (contents : Except String ByteArray) : Except String String :=
  match contents with
  | .ok bytes =>
    match String.fromUTF8? bytes with
    | some s => .ok s
    | none => .error "stream did not contain valid UTF-8"
  | .error reason => .error reason

/-- Deals with the file `name`. -/
def script (name : String) (mode : Mode) (contents : Except String ByteArray)
    (input : List InputLine) : Option Outcome :=
  match decodeFile contents with
  | .error reason => some ⟨unreadableStatus, "", unreadableText name reason⟩
  | .ok text => (process mode false (.global input) ⟨name, text⟩).map fun (r, _) =>
    ⟨r.status, r.stdout, r.stderr⟩

/-- What the command line does, given how files are read and all bytes of standard input. It gives
no answer for a program that does not end. -/
def run (arguments : List String) (readFile : String → Except String ByteArray)
    (stdin : ByteArray) : Option Outcome :=
  match Request.ofArguments arguments with
  | .version => some ⟨0, versionText, ""⟩
  | .help => some ⟨0, helpText, ""⟩
  | .refused => some ⟨usageStatus, "", usageText⟩
  | .file name mode => script name mode (readFile name) (inputLines stdin)
  | .prompt mode => (prompt mode (inputLines stdin)).map fun t =>
    ⟨0, String.join t.stdout, String.join t.stderr⟩

end Minibasic.Command
