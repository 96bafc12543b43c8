import Minibasic.Command.Report
import Minibasic.Console.Lines

/-!
The prompt: every line is a source of its own, and all of them share one interpreter. Lines that a
program reads while it runs are not prompted for again.
-/

namespace Minibasic.Command

def promptText : String := "rbasic > "

/-- The name of a source that was typed in. -/
def promptSourceName : String := "<stdin>"

/-- What a line at the prompt asks for. -/
inductive Entry where
  | leave
  | skip
  | source (s : Source)
deriving DecidableEq

/-- A line that is no text ends the prompt, and one of white space only is passed over. -/
def Entry.ofLine : InputLine → Entry
  | .undecodable => leave
  | .text content ending =>
    let line := content ++ ending
    if line.toList.all Text.isBlank then skip else source ⟨promptSourceName, line⟩

/-- What the command line has written to its two output streams. -/
structure Transcript where
  stdout : List String
  stderr : List String
deriving Inhabited

namespace Transcript

/-- A transcript that begins with a prompt. -/
def prompted (t : Transcript) : Transcript := { t with stdout := promptText :: t.stdout }

/-- A transcript that begins with a report. -/
def reported (r : Report) (t : Transcript) : Transcript :=
  ⟨r.stdout :: t.stdout, r.stderr :: t.stderr⟩

end Transcript

/-- The prompt, up to the line that ends it, for at most `bound` lines. -/
def promptLoop (mode : Mode) : Nat → Interpreter → Option Transcript
  | 0, _ => none
  | bound + 1, i =>
    match i.console.input with
    | [] => some (Transcript.prompted ⟨[], []⟩)
    | line :: rest =>
      let i := { i with console := { i.console with input := rest } }
      match Entry.ofLine line with
      | .leave => some (Transcript.prompted ⟨[], []⟩)
      | .skip => (promptLoop mode bound i).map Transcript.prompted
      | .source s =>
        match process mode true i s with
        | some (report, i) =>
          (promptLoop mode bound i).map fun t => (t.reported report).prompted
        | none => none

/-- The prompt on given lines of input. -/
def prompt (mode : Mode) (input : List InputLine) : Option Transcript :=
  promptLoop mode (input.length + 1) (.global input)

end Minibasic.Command
