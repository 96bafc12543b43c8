import Minibasic.Command
import Minibasic.Proofs.Console.Lines
import Minibasic.Proofs.Evaluation.Exchanges

/-!
The prompt is a fold over the lines of the input. One interpreter runs the lines as programs, one
after the other, and what a program takes of the input is gone for the prompt.
-/

namespace Minibasic

namespace Interpreter

/-- The interpreter with other lines in place of all that are still to be read. -/
def withInput (ls : List InputLine) (i : Interpreter) : Interpreter :=
  { i with console := { i.console with input := ls } }

end Interpreter

namespace Command

open Interpreter

/-- A line that is read at the prompt. If it is a program, there is what its run reads and writes,
and its result. -/
structure Turn where
  line : InputLine
  exchanges : List Exchange := []
  result : Option (Except Diagnostic Value) := none

namespace Turn

/-- The lines that are taken while the program runs. -/
def taken (t : Turn) : List InputLine := t.exchanges.flatMap Exchange.taken

/-- The lines that the program writes, and the echo of its value. -/
def lines (t : Turn) : List String :=
  t.exchanges.flatMap Exchange.written ++
    match t.result with
    | some (.ok v) => [v.datum.echo]
    | _ => []

/-- The text of the failure, if there is one. -/
def failure (t : Turn) : String :=
  match t.result with
  | some (.error d) => d.render ++ "\n"
  | _ => ""

end Turn

/-- Standard output: a prompt before each turn and one before the read that ends the prompt. -/
def spoken (turns : List Turn) : String :=
  String.join (turns.map fun t => promptText ++ String.join (t.lines.map (· ++ "\n"))) ++ promptText

/-- Standard error: the failures of all turns. -/
def reported (turns : List Turn) : String := String.join (turns.map Turn.failure)

/-- A line of white space only. -/
def isBlankLine (line : String) : Bool := line.toList.all Text.isBlank

/-- The source of a line that is typed in, with its ending. -/
def typed (line : String) : Source := ⟨promptSourceName, line⟩

/-- Turns at the prompt, in one interpreter. It takes the next line of its input. A blank line is
passed over, and any other is run as a program; whether that fails or not, the next turn starts in
the state that the run has left. -/
inductive Turns : Interpreter → List Turn → Interpreter → Prop
  | done {i : Interpreter} : Turns i [] i
  | blank {i j : Interpreter} {content ending : String} {rest : List InputLine}
      {turns : List Turn} :
      i.console.input = .text content ending :: rest → isBlankLine (content ++ ending) →
      Turns (i.withInput rest) turns j → Turns i ({ line := .text content ending } :: turns) j
  | program {i j k : Interpreter} {content ending : String} {rest : List InputLine}
      {exchanges : List Exchange} {r : Except Diagnostic Value} {turns : List Turn} :
      i.console.input = .text content ending :: rest → ¬isBlankLine (content ++ ending) →
      (i.withInput rest).run (typed (content ++ ending)) = some (r, j) →
      Talks (evalSource ampleFuel (typed (content ++ ending))) (i.withInput rest) exchanges r j →
      Turns j turns k →
      Turns i ({ line := .text content ending, exchanges, result := some r } :: turns) k

/-- The next line to read is not there, or it is no text. -/
def Ended (i : Interpreter) : Prop :=
  i.console.input = [] ∨ ∃ rest, i.console.input = .undecodable :: rest

/-- The next line to read is a program that does not come to an end. -/
def Hangs (i : Interpreter) : Prop :=
  ∃ content ending rest, i.console.input = .text content ending :: rest ∧
    ¬isBlankLine (content ++ ending) ∧ (i.withInput rest).run (typed (content ++ ending)) = none

variable {i j k : Interpreter} {turns : List Turn} {bound : Nat}

namespace Turns

/-- The lines of the input are read in order, at the prompt or while a program runs. -/
theorem input (h : Turns i turns j) :
    i.console.input = turns.flatMap (fun t => t.line :: t.taken) ++ j.console.input := by
  induction h with
  | done => rfl
  | blank hin _ _ ih =>
    rw [hin, List.flatMap_cons]
    exact congrArg _ ih
  | program hin _ _ htalks _ ih =>
    have hrest := htalks.input
    rw [ih, ← List.append_assoc] at hrest
    rw [hin, List.flatMap_cons, List.cons_append]
    exact congrArg _ hrest

theorem asksForInput (h : Turns i turns j) :
    ∀ t ∈ turns, ∀ x ∈ t.exchanges, x.taken ≠ [] → x.builtin.asksForInput := by
  induction h with
  | done => exact List.forall_mem_nil _
  | blank _ _ _ ih => exact List.forall_mem_cons.mpr ⟨List.forall_mem_nil _, ih⟩
  | program _ _ _ htalks _ ih => exact List.forall_mem_cons.mpr ⟨htalks.asksForInput, ih⟩

theorem length_le (h : Turns i turns j) : turns.length ≤ i.console.input.length := by
  induction h with
  | done => exact Nat.zero_le _
  | blank hin _ _ ih =>
    rw [hin]
    exact Nat.succ_le_succ ih
  | program hin _ _ htalks _ ih =>
    rw [hin]
    exact Nat.succ_le_succ (Nat.le_trans ih htalks.length_input_le)

end Turns

/-- From every state there are turns up to the end of the prompt or to a program that hangs. -/
theorem exists_turns (i : Interpreter) : ∃ turns j, Turns i turns j ∧ (Ended j ∨ Hangs j) := by
  generalize hn : i.console.input.length = n
  induction n using Nat.strong_induction_on generalizing i with
  | h n ih =>
    subst hn
    cases hin : i.console.input with
    | nil => exact ⟨[], i, .done, .inl (.inl hin)⟩
    | cons line rest =>
      have hlength : rest.length < i.console.input.length := by
        rw [hin]
        exact Nat.lt_succ_self _
      cases line with
      | undecodable => exact ⟨[], i, .done, .inl (.inr ⟨rest, hin⟩)⟩
      | text content ending =>
        by_cases hblank : isBlankLine (content ++ ending)
        · obtain ⟨turns, j, h, hj⟩ := ih _ hlength (i.withInput rest) rfl
          exact ⟨_, j, .blank hin hblank h, hj⟩
        · cases hrun : (i.withInput rest).run (typed (content ++ ending)) with
          | none => exact ⟨[], i, .done, .inr ⟨content, ending, rest, hin, hblank, hrun⟩⟩
          | some p =>
            obtain ⟨r, k⟩ := p
            obtain ⟨xs, htalks⟩ := talks_of_run hrun
            have hless := Nat.lt_of_le_of_lt htalks.length_input_le hlength
            obtain ⟨turns, j, h, hj⟩ := ih _ hless k rfl
            exact ⟨_, j, .program hin hblank hrun htalks h, hj⟩

/-- What a program does does not depend on what has been written before it. -/
theorem process_run {s : Source} {r : Except Diagnostic Value} {xs : List Exchange}
    (hrun : i.run s = some (r, j)) (htalks : Talks (evalSource ampleFuel s) i xs r j) :
    process .run true (i.withOutput #[]) s =
      some (runReport true r (xs.flatMap Exchange.written), j.withOutput #[]) := by
  obtain ⟨lines, hlines, hreplay⟩ := replays_evalSource ampleFuel s i r j hrun
  have hwritten : lines = (xs.flatMap Exchange.written).toArray :=
    Array.append_right_inj _ |>.mp (hlines.symm.trans htalks.output)
  have hrun' : (i.withOutput #[]).run s = some (r, j.withOutput (#[] ++ lines)) := hreplay #[]
  rw [process, hrun', hwritten, Array.empty_append]
  rfl

theorem process_hangs {s : Source} (hrun : i.run s = none) :
    process .run true (i.withOutput #[]) s = none := by
  cases hrun' : (i.withOutput #[]).run s with
  | none => rw [process, hrun']
  | some p =>
    obtain ⟨_, _, hreplay⟩ := replays_evalSource ampleFuel s _ p.1 p.2 hrun'
    have hi : i.run s = some _ := hreplay i.console.output
    rw [hrun] at hi
    cases hi

/-- The lines of a turn are those of the report on its program. -/
theorem report_stdout (line : InputLine) (xs : List Exchange) (r : Except Diagnostic Value) :
    (runReport true r (xs.flatMap Exchange.written)).stdout =
      String.join (Turn.lines ⟨line, xs, some r⟩ |>.map (· ++ "\n")) := by
  cases r with
  | ok v => rfl
  | error d => rw [Turn.lines, List.append_nil]; rfl

theorem report_stderr (line : InputLine) (xs : List Exchange) (r : Except Diagnostic Value) :
    (runReport true r (xs.flatMap Exchange.written)).stderr = Turn.failure ⟨line, xs, some r⟩ := by
  cases r <;> rfl

theorem spoken_cons (t : Turn) (turns : List Turn) : spoken (t :: turns) =
    promptText ++ (String.join (t.lines.map (· ++ "\n")) ++ spoken turns) := by
  rw [spoken, List.map_cons, String.join_cons, String.append_assoc, String.append_assoc]
  rfl

theorem reported_cons (t : Turn) (turns : List Turn) :
    reported (t :: turns) = t.failure ++ reported turns := by
  rw [reported, List.map_cons, String.join_cons]
  rfl

section

variable {mode : Mode} {content ending : String} {rest : List InputLine}

theorem promptLoop_ended (hi : Ended i) :
    promptLoop mode (bound + 1) (i.withOutput #[]) = some (Transcript.prompted ⟨[], []⟩) := by
  rcases hi with hin | ⟨rest, hin⟩
  · have hin : (i.withOutput #[]).console.input = [] := hin
    rw [promptLoop, hin]
  · have hin : (i.withOutput #[]).console.input = .undecodable :: rest := hin
    rw [promptLoop, hin]
    rfl

theorem promptLoop_blank (hin : i.console.input = .text content ending :: rest)
    (hblank : isBlankLine (content ++ ending)) :
    promptLoop mode (bound + 1) (i.withOutput #[]) =
      (promptLoop mode bound ((i.withInput rest).withOutput #[])).map Transcript.prompted := by
  have hin : (i.withOutput #[]).console.input = .text content ending :: rest := hin
  have hentry : Entry.ofLine (.text content ending) = .skip := if_pos hblank
  rw [promptLoop, hin]
  simp only [hentry]
  rfl

theorem promptLoop_program (hin : i.console.input = .text content ending :: rest)
    (hblank : ¬isBlankLine (content ++ ending)) :
    promptLoop mode (bound + 1) (i.withOutput #[]) =
      match process mode true ((i.withInput rest).withOutput #[]) (typed (content ++ ending)) with
      | some (report, i) =>
        (promptLoop mode bound i).map fun t => (t.reported report).prompted
      | none => none := by
  have hin : (i.withOutput #[]).console.input = .text content ending :: rest := hin
  have hentry : Entry.ofLine (.text content ending) = .source (typed (content ++ ending)) :=
    if_neg hblank
  rw [promptLoop, hin]
  simp only [hentry]
  rfl

end

/-- The transcript of turns up to the end of the prompt. -/
theorem promptLoop_of_turns (h : Turns i turns j) (hj : Ended j) (hbound : turns.length < bound) :
    ∃ t, promptLoop .run bound (i.withOutput #[]) = some t ∧
      String.join t.stdout = spoken turns ∧ String.join t.stderr = reported turns := by
  induction h generalizing bound with
  | done =>
    obtain ⟨bound, rfl⟩ := Nat.exists_eq_add_of_lt hbound
    exact ⟨_, promptLoop_ended hj, rfl, rfl⟩
  | blank hin hblank _ ih =>
    obtain ⟨bound, rfl⟩ := Nat.exists_eq_add_one_of_ne_zero (Nat.ne_zero_of_lt hbound)
    obtain ⟨t, ht, hout, herr⟩ := ih hj (Nat.lt_of_succ_lt_succ hbound)
    refine ⟨t.prompted, by rw [promptLoop_blank hin hblank, ht]; rfl, ?_, ?_⟩
    · rw [spoken_cons, ← hout]
      exact String.join_cons
    · rw [reported_cons, ← herr]
      exact String.empty_append.symm
  | program hin hblank hrun htalks _ ih =>
    obtain ⟨bound, rfl⟩ := Nat.exists_eq_add_one_of_ne_zero (Nat.ne_zero_of_lt hbound)
    obtain ⟨t, ht, hout, herr⟩ := ih hj (Nat.lt_of_succ_lt_succ hbound)
    have hloop : promptLoop .run (bound + 1) _ = _ := promptLoop_program hin hblank
    rw [process_run hrun htalks] at hloop
    simp only [ht, Option.map_some] at hloop
    refine ⟨_, hloop, ?_, ?_⟩
    · rw [spoken_cons, ← hout, ← report_stdout]
      exact String.join_cons.trans (congrArg _ String.join_cons)
    · rw [reported_cons, ← herr, ← report_stderr]
      exact String.join_cons

/-- There is none if a turn comes to a program that hangs. -/
theorem promptLoop_of_hangs (h : Turns i turns j) (hj : Hangs j) (bound : Nat) :
    promptLoop .run bound (i.withOutput #[]) = none := by
  induction h generalizing bound with
  | done =>
    obtain ⟨content, ending, rest, hin, hblank, hrun⟩ := hj
    cases bound with
    | zero => rfl
    | succ bound => rw [promptLoop_program hin hblank, process_hangs hrun]
  | blank hin hblank _ ih =>
    cases bound with
    | zero => rfl
    | succ bound => rw [promptLoop_blank hin hblank, ih hj]; rfl
  | program hin hblank hrun htalks _ ih =>
    cases bound with
    | zero => rfl
    | succ bound =>
      rw [promptLoop_program hin hblank, process_run hrun htalks]
      simp only [ih hj, Option.map_none]

theorem run_of_turns {arguments : List String} (h : Request.ofArguments arguments = .prompt .run)
    (readFile : String → Except String ByteArray) {stdin : ByteArray}
    (hturns : Turns (.global (inputLines stdin)) turns j) (hj : Ended j) :
    run arguments readFile stdin = some ⟨0, spoken turns, reported turns⟩ := by
  have hbound : turns.length < (inputLines stdin).length + 1 := Nat.lt_succ_of_le hturns.length_le
  obtain ⟨t, ht, hout, herr⟩ := promptLoop_of_turns hturns hj hbound
  have hprompt : prompt .run (inputLines stdin) = some t := ht
  rw [run, h]
  simp only [hprompt, Option.map_some, hout, herr]

theorem run_of_hangs {arguments : List String} (h : Request.ofArguments arguments = .prompt .run)
    (readFile : String → Except String ByteArray) {stdin : ByteArray}
    (hturns : Turns (.global (inputLines stdin)) turns j) (hj : Hangs j) :
    run arguments readFile stdin = none := by
  have hprompt : prompt .run (inputLines stdin) = none := promptLoop_of_hangs hturns hj _
  rw [run, h]
  simp only [hprompt, Option.map_none]

/-- Without a script, the command line is a fold over the lines of standard input. One interpreter
runs the lines that are not blank as programs. Each line is read once and in order, at the prompt or
by a function that asks for input while an earlier line runs. Standard output shows a prompt before
each read, what the programs write and the echoes of their values, and standard error shows the
failures, none of which ends the prompt. It ends with status 0 at the first read that finds no line
or a line that is no text. Only a program that does not come to an end keeps it from there. -/
theorem prompt_turns {arguments : List String}
    (h : Request.ofArguments arguments = .prompt .run)
    (readFile : String → Except String ByteArray) (stdin : ByteArray) :
    (∀ o, run arguments readFile stdin = some o ↔
      ∃ turns j, Turns (.global (inputLines stdin)) turns j ∧ Ended j ∧
        o = ⟨0, spoken turns, reported turns⟩) ∧
    (run arguments readFile stdin = none ↔
      ∃ turns j, Turns (.global (inputLines stdin)) turns j ∧ Hangs j) ∧
    ∃ lines, Cut stdin.data.toList lines ∧
      ∀ turns j, Turns (.global (inputLines stdin)) turns j →
        List.Forall₂ InputLine.Stands lines
            (turns.flatMap (fun t => t.line :: t.taken) ++ j.console.input) ∧
          ∀ t ∈ turns, ∀ x ∈ t.exchanges, x.taken ≠ [] → x.builtin.asksForInput := by
  obtain ⟨turns, j, hturns, hj⟩ := exists_turns (.global (inputLines stdin))
  refine ⟨fun o => ⟨fun ho => ?_, ?_⟩, ⟨fun hnone => ?_, ?_⟩, ?_⟩
  · rcases hj with hj | hj
    · rw [run_of_turns h readFile hturns hj] at ho
      exact ⟨turns, j, hturns, hj, (Option.some.inj ho).symm⟩
    · rw [run_of_hangs h readFile hturns hj] at ho
      cases ho
  · rintro ⟨turns, j, hturns, hj, rfl⟩
    exact run_of_turns h readFile hturns hj
  · rcases hj with hj | hj
    · rw [run_of_turns h readFile hturns hj] at hnone
      cases hnone
    · exact ⟨turns, j, hturns, hj⟩
  · rintro ⟨turns, j, hturns, hj⟩
    exact run_of_hangs h readFile hturns hj
  · refine ⟨_, cut_byteLines stdin.data.toList, fun turns j hturns => ⟨?_, hturns.asksForInput⟩⟩
    rw [← hturns.input]
    exact stands_inputLines stdin

/-- The second line is read by the program in the first, and the fourth line fails. -/
theorem prompt_turns_input :
    let stdin : ByteArray := "VAR x = input()\n7\n \n1/0\nx".toUTF8
    let output := "rbasic > \"7\"\nrbasic > rbasic > rbasic > \"7\"\nrbasic > "
    let errors := "Traceback (most recent call last):\n  File <stdin>, line 1, in <program>\n" ++
      "Runtime Error: Division by zero\n\n1/0\n  ^\n\n"
    Request.ofArguments [] = .prompt .run ∧
      ∃ turns j, Turns (.global (inputLines stdin)) turns j ∧ Ended j ∧
        spoken turns = output ∧ reported turns = errors ∧
        ∃ lines, Cut stdin.data.toList lines ∧ List.Forall₂ InputLine.Stands lines
          (turns.flatMap (fun t => t.line :: t.taken) ++ j.console.input) := by
  intro stdin output errors
  have hargs : Request.ofArguments [] = .prompt .run := rfl
  have hrun : run [] (fun _ => .error "") stdin = some ⟨0, output, errors⟩ := by decide +kernel
  obtain ⟨hsome, -, lines, hcut, hlines⟩ := prompt_turns hargs (fun _ => .error "") stdin
  obtain ⟨turns, j, hturns, hj, ho⟩ := (hsome _).mp hrun
  obtain ⟨-, hout, herr⟩ := Outcome.mk.inj ho
  exact ⟨hargs, turns, j, hturns, hj, hout.symm, herr.symm, lines, hcut,
    (hlines turns j hturns).1⟩

end Command

end Minibasic
