import Minibasic.Diagnostic

/-!
The full text of a diagnostic: a traceback if calls are known, the message, and an excerpt of the
source with carets under the span.
-/

namespace Minibasic

/-- The parts of a text between its line feeds. -/
def linesOf : List Char → List (List Char)
  | [] => [[]]
  | c :: cs =>
    if c = '\n' then [] :: linesOf cs
    else match linesOf cs with
      | [] => [[c]]
      | l :: ls => (c :: l) :: ls

/-- A line without the carriage returns at its end. -/
def trimReturns (line : List Char) : List Char :=
  (line.reverse.dropWhile (· = '\r')).reverse

/-- Line `n` of a text without its line end, empty past the last line. -/
def lineAt (text : List Char) (n : Nat) : List Char :=
  trimReturns ((linesOf text).getD n [])

/-- Blanks up to column `start`, then carets up to column `stop`, at least one. -/
def caretRow (start stop : Nat) : List Char :=
  List.replicate start ' ' ++ List.replicate (max (stop - start) 1) '^'

/-- A tab is shown as one blank, so that the columns below it stay in place. -/
def showTabs (line : List Char) : List Char :=
  line.map fun c => if c = '\t' then ' ' else c

namespace Span

/-- The last line an excerpt of the span shows. -/
def lastLine (s : Span) : Nat := max s.stop.line s.start.line

/-- Line `n` of the source and the carets under it. -/
def excerptLine (s : Span) (n : Nat) : List (List Char) :=
  let line := lineAt s.start.source.text.toList n
  let start := if n = s.start.line then s.start.column else 0
  let stop := if n = s.lastLine then s.stop.column else line.length
  [showTabs line, caretRow start stop]

/-- The lines from the start to the stop of the span, each with its carets. -/
def excerpt (s : Span) : List (List Char) :=
  (List.range' s.start.line (s.lastLine + 1 - s.start.line)).flatMap s.excerptLine

end Span

namespace Diagnostic

/-- One line for each call in progress, outermost first, below a title. -/
def traceback (d : Diagnostic) (c : Context) : List String :=
  "Traceback (most recent call last):" ::
    ((c.trace d.span.start).map fun (p, name) => "  " ++ p.text ++ ", in " ++ name).reverse

/-- The lines above the excerpt. -/
def heading (d : Diagnostic) : List String :=
  match d.context with
  | some c => d.traceback c ++ [d.headline]
  | none => [d.brief]

/-- Heading, an empty line and excerpt, each line ended by a line feed. -/
def render (d : Diagnostic) : String :=
  String.join ((d.heading ++ [""] ++ d.span.excerpt.map String.ofList).map (· ++ "\n"))

end Diagnostic

end Minibasic
