import Minibasic.Command
import Minibasic.Proofs.Evaluation.Blame
import Minibasic.Proofs.Evaluation.Exchanges

/-!
How the command line ends on a script. The exit status tells the stage that fails, and the two
streams of output hold what this stage and those before it have to show.
-/

namespace Minibasic.Command

open Interpreter

/-- What the command line shows of a report. -/
def Report.outcome (r : Report) : Outcome := ⟨r.status, r.stdout, r.stderr⟩

/-- The lines that calls of built-in functions have written. -/
def printed (xs : List Exchange) : String :=
  String.join ((xs.flatMap Exchange.written).map (· ++ "\n"))

/-- With what the script `s` ends in each mode, if a program starts from `i`. Without tokens or
without a tree there is only the failure. The tokens and the tree are shown as a whole. A program
shows what its calls of built-in functions write up to its end, and then its failure, but not its
value. -/
inductive Answers (s : Source) (i : Interpreter) : Mode → Outcome → Prop
  | unscanned {mode : Mode} {d : Diagnostic} : Scan.tokens s = .error d →
      Answers s i mode ⟨65, "", d.render ++ "\n"⟩
  | unparsed {mode : Mode} {ts : List Token} {d : Diagnostic} : mode ≠ .tokens →
      Scan.tokens s = .ok ts → parse ts = .error d → Answers s i mode ⟨65, "", d.render ++ "\n"⟩
  | tokens {ts : List Token} : Scan.tokens s = .ok ts →
      Answers s i .tokens ⟨0, Token.listText ts ++ "\n", ""⟩
  | tree {ts : List Token} {e : Parser.Node} : Scan.tokens s = .ok ts → parse ts = .ok e →
      Answers s i .tree ⟨0, e.text ++ "\n", ""⟩
  | value {ts : List Token} {e : Parser.Node} {xs : List Exchange} {v : Value} {j : Interpreter} :
      Scan.tokens s = .ok ts → parse ts = .ok e → Talks (eval ampleFuel e) i xs (.ok v) j →
      Answers s i .run ⟨0, printed xs, ""⟩
  | failure {ts : List Token} {e : Parser.Node} {xs : List Exchange} {d : Diagnostic}
      {j : Interpreter} :
      Scan.tokens s = .ok ts → parse ts = .ok e → Talks (eval ampleFuel e) i xs (.error d) j →
      Answers s i .run ⟨70, printed xs, d.render ++ "\n"⟩

/-- The text is not made up of tokens, or it does not parse where the mode asks for more than its
tokens. -/
def Rejected (mode : Mode) (s : Source) : Prop :=
  (∃ d, Scan.tokens s = .error d) ∨
    mode ≠ .tokens ∧ ∃ ts d, Scan.tokens s = .ok ts ∧ parse ts = .error d

/-- The text scans and parses, and its evaluation from `i` comes to the result `r`. -/
def Interprets (s : Source) (i : Interpreter) (r : Option (Except Diagnostic Value × Interpreter)) :
    Prop :=
  ∃ ts e, Scan.tokens s = .ok ts ∧ parse ts = .ok e ∧ eval ampleFuel e i = r

/-- The mode asks for a run, and the evaluation fails. -/
def Faulty (mode : Mode) (s : Source) (i : Interpreter) : Prop :=
  mode = .run ∧ ∃ d j, Interprets s i (some (.error d, j))

variable {s : Source} {i j : Interpreter} {mode : Mode} {o : Outcome}

theorem talks_of_eval {e : Parser.Node} {r : Except Diagnostic Value}
    (h : eval ampleFuel e i = some (r, j)) : ∃ xs, Talks (eval ampleFuel e) i xs r j := by
  obtain ⟨_, p⟩ := (recording ampleFuel).eval e i r j h
  exact p.talks

/-- A script ends in one of these ways, unless it is a program that does not come to an end. -/
theorem exists_answers (mode : Mode) (s : Source) (i : Interpreter) :
    (∃ o, Answers s i mode o) ∨ mode = .run ∧ Interprets s i none := by
  cases hts : Scan.tokens s with
  | error d => exact .inl ⟨_, .unscanned hts⟩
  | ok ts =>
    by_cases hmode : mode = .tokens
    · subst hmode
      exact .inl ⟨_, .tokens hts⟩
    cases he : parse ts with
    | error d => exact .inl ⟨_, .unparsed hmode hts he⟩
    | ok e =>
      cases mode with
      | tokens => exact absurd rfl hmode
      | tree => exact .inl ⟨_, .tree hts he⟩
      | run =>
        cases hr : eval ampleFuel e i with
        | none => exact .inr ⟨rfl, ts, e, hts, he, hr⟩
        | some p =>
          obtain ⟨r, j⟩ := p
          obtain ⟨xs, htalks⟩ := talks_of_eval hr
          cases r with
          | ok v => exact .inl ⟨_, .value hts he htalks⟩
          | error d => exact .inl ⟨_, .failure hts he htalks⟩

/-! ### What is shown of a script -/

/-- The failure of a text that is no program is all that is shown. -/
theorem outcome_of_rejected {d : Diagnostic} (hstage : d.stage ≠ .evaluation) :
    Report.outcome { lines := [], failure := some d } = ⟨65, "", d.render ++ "\n"⟩ := by
  have hstatus : failureStatus d.stage = 65 := by
    cases hd : d.stage with
    | scanning | parsing => rfl
    | evaluation => exact absurd hd hstage
  exact congrArg (Outcome.mk · _ _) hstatus

/-- Of a run, all that has been written is shown. -/
theorem process_of_run {r : Except Diagnostic Value} (h : evalSource ampleFuel s i = some (r, j)) :
    ∃ k, process .run false i s = some (runReport false r j.console.output.toList, k) := by
  have hrun : i.run s = some (r, j) := h
  rw [process, hrun]
  exact ⟨_, rfl⟩

theorem process_of_talks {ts : List Token} {e : Parser.Node} {xs : List Exchange}
    {r : Except Diagnostic Value} (hi : i.console.output = #[]) (hts : Scan.tokens s = .ok ts)
    (he : parse ts = .ok e) (h : Talks (eval ampleFuel e) i xs r j) :
    ∃ k, process .run false i s = some (runReport false r (xs.flatMap Exchange.written), k) := by
  have heval : evalSource ampleFuel s i = some (r, j) := by
    rw [evalSource_of_tokens ampleFuel hts, he]
    exact h.apply_eq
  have hwritten : j.console.output.toList = xs.flatMap Exchange.written := by
    rw [h.output, hi]
    simp
  rw [← hwritten]
  exact process_of_run heval

theorem process_of_hangs (h : Interprets s i none) : process .run false i s = none := by
  obtain ⟨ts, e, hts, he, heval⟩ := h
  have hrun : i.run s = none := by
    change evalSource ampleFuel s i = none
    rw [evalSource_of_tokens ampleFuel hts, he]
    exact heval
  rw [process, hrun]

/-- A text that is no program is not evaluated in any mode. -/
theorem process_of_error {d : Diagnostic} (hi : i.console.output = #[])
    (h : (Scan.tokens s >>= parse) = .error d) (hmode : mode = .tokens → Scan.tokens s = .error d) :
    ∃ k, process mode false i s = some ({ lines := [], failure := some d }, k) := by
  cases mode with
  | run =>
    have hread : (liftM (Scan.tokens s >>= parse) : Eval Parser.Node) i = some (.error d, i) := by
      rw [h]
      rfl
    have heval : evalSource ampleFuel s i = some (.error d, i) := by
      rw [evalSource, bind_apply, hread]
    have hrun := process_of_run heval
    rwa [hi] at hrun
  | tokens =>
    rw [process, hmode rfl]
    exact ⟨i, rfl⟩
  | tree =>
    rw [process, h]
    exact ⟨i, rfl⟩

/-- To show the tokens or the tree, the interpreter is not made use of. -/
theorem exists_process (hmode : mode ≠ .run) (s : Source) :
    ∃ r, ∀ i, process mode false i s = some (r, i) := by
  cases mode with
  | run => exact absurd rfl hmode
  | tokens | tree => exact ⟨_, fun _ => rfl⟩

/-- An interpreter that has written nothing before deals with a script in the way that is shown. -/
theorem Answers.process (h : Answers s i mode o) (hi : i.console.output = #[]) :
    ∃ r k, process mode false i s = some (r, k) ∧ r.outcome = o := by
  cases h with
  | @unscanned _ d hts =>
    have hstage := (scanning_error hts).1
    have hread : (Scan.tokens s >>= parse) = .error d := by
      rw [hts]
      rfl
    obtain ⟨k, hk⟩ := process_of_error hi hread fun _ => hts
    exact ⟨_, k, hk, outcome_of_rejected (by rw [hstage]; decide)⟩
  | @unparsed _ ts d hmode hts he =>
    have hstage := (parsing_error he).1
    have hread : (Scan.tokens s >>= parse) = .error d := by
      rw [hts]
      exact he
    obtain ⟨k, hk⟩ := process_of_error hi hread fun h => absurd h hmode
    exact ⟨_, k, hk, outcome_of_rejected (by rw [hstage]; decide)⟩
  | tokens hts =>
    rw [Command.process, hts]
    exact ⟨_, i, rfl, rfl⟩
  | @tree ts e hts he =>
    have hread : (Scan.tokens s >>= parse) = .ok e := by
      rw [hts]
      exact he
    rw [Command.process, hread]
    exact ⟨_, i, rfl, rfl⟩
  | value hts he htalks =>
    obtain ⟨k, hk⟩ := process_of_talks hi hts he htalks
    exact ⟨_, k, hk, rfl⟩
  | @failure ts e xs d j hts he htalks =>
    obtain ⟨k, hk⟩ := process_of_talks hi hts he htalks
    have hstage : d.stage = .evaluation := (meets_of_eval htalks.apply_eq).1
    have hstatus : failureStatus d.stage = 70 := by rw [hstage]; rfl
    exact ⟨_, k, hk, congrArg (Outcome.mk · _ _) hstatus⟩

/-! ### The exit status -/

theorem not_rejected {ts : List Token} {e : Parser.Node} (hts : Scan.tokens s = .ok ts)
    (he : parse ts = .ok e) : ¬Rejected mode s := by
  rintro (⟨d, hd⟩ | ⟨-, ts', d, hts', hd⟩)
  · cases hts.symm.trans hd
  · cases hts.symm.trans hts'
    cases he.symm.trans hd

theorem Answers.status_cases (h : Answers s i mode o) :
    (o.status = 65 ∧ Rejected mode s ∧ ¬Faulty mode s i) ∨
      (o.status = 70 ∧ ¬Rejected mode s ∧ Faulty mode s i) ∨
      o.status = 0 ∧ ¬Rejected mode s ∧ ¬Faulty mode s i := by
  cases h with
  | unscanned hts =>
    refine .inl ⟨rfl, .inl ⟨_, hts⟩, ?_⟩
    rintro ⟨-, d, j, ts, e, hts', -⟩
    cases hts.symm.trans hts'
  | unparsed hmode hts he =>
    refine .inl ⟨rfl, .inr ⟨hmode, _, _, hts, he⟩, ?_⟩
    rintro ⟨-, d, j, ts, e, hts', he', -⟩
    cases hts.symm.trans hts'
    cases he.symm.trans he'
  | tokens hts =>
    refine .inr (.inr ⟨rfl, ?_, nofun⟩)
    rintro (⟨d, hd⟩ | ⟨hmode, -⟩)
    · cases hts.symm.trans hd
    · exact hmode rfl
  | tree hts he => exact .inr (.inr ⟨rfl, not_rejected hts he, nofun⟩)
  | value hts he htalks =>
    refine .inr (.inr ⟨rfl, not_rejected hts he, ?_⟩)
    rintro ⟨-, d, j, ts, e, hts', he', heval⟩
    cases hts.symm.trans hts'
    cases he.symm.trans he'
    cases htalks.apply_eq.symm.trans heval
  | failure hts he htalks =>
    exact .inr (.inl ⟨rfl, not_rejected hts he, rfl, _, _, _, _, hts, he, htalks.apply_eq⟩)

/-- The status tells which stage has failed. -/
theorem Answers.status_iff (h : Answers s i mode o) :
    (o.status = 65 ↔ Rejected mode s) ∧ (o.status = 70 ↔ Faulty mode s i) ∧
      (o.status = 0 ↔ ¬Rejected mode s ∧ ¬Faulty mode s i) := by
  rcases h.status_cases with ⟨ho, hr, hf⟩ | ⟨ho, hr, hf⟩ | ⟨ho, hr, hf⟩ <;> simp [ho, hr, hf]

/-! ### Files -/

/-- A file holds a text if its bytes are those of the text in UTF-8. -/
theorem decodeFile_text (text : String) : decodeFile (.ok text.toUTF8) = .ok text := by
  have hvalid : text.toUTF8.IsValidUTF8 := text.isValidUTF8
  have htext : String.fromUTF8? text.toUTF8 = some text := dif_pos hvalid
  rw [decodeFile, htext]

theorem exists_reason {contents : Except String ByteArray}
    (h : ∀ text : String, contents ≠ .ok text.toUTF8) :
    ∃ reason, decodeFile contents = .error reason := by
  cases contents with
  | error reason => exact ⟨reason, rfl⟩
  | ok bytes =>
    have hnone : String.fromUTF8? bytes = none :=
      dif_neg fun hvalid => h (.fromUTF8 bytes hvalid) rfl
    rw [decodeFile, hnone]
    exact ⟨_, rfl⟩

section Script

variable {arguments : List String} {name : String} {readFile : String → Except String ByteArray}

theorem run_of_text (h : Request.ofArguments arguments = .file name mode) {text : String}
    (hfile : readFile name = .ok text.toUTF8) (stdin : ByteArray) :
    run arguments readFile stdin =
      (process mode false (.global (inputLines stdin)) ⟨name, text⟩).map fun p => p.1.outcome := by
  rw [run, h]
  simp only [script, hfile, decodeFile_text]
  rfl

theorem run_of_unreadable (h : Request.ofArguments arguments = .file name mode) {reason : String}
    (hfile : decodeFile (readFile name) = .error reason) (stdin : ByteArray) :
    run arguments readFile stdin = some ⟨74, "", unreadableText name reason⟩ := by
  rw [run, h]
  simp only [script, hfile]
  rfl

theorem run_of_answers (h : Request.ofArguments arguments = .file name mode) {text : String}
    (hfile : readFile name = .ok text.toUTF8) {stdin : ByteArray}
    (ho : Answers ⟨name, text⟩ (.global (inputLines stdin)) mode o) :
    run arguments readFile stdin = some o := by
  obtain ⟨r, k, hprocess, houtcome⟩ := ho.process rfl
  rw [run_of_text h hfile, hprocess, Option.map_some, houtcome]

theorem run_of_endless (h : Request.ofArguments arguments = .file name mode) {text : String}
    (hfile : readFile name = .ok text.toUTF8) {stdin : ByteArray}
    (hhangs : mode = .run ∧ Interprets ⟨name, text⟩ (.global (inputLines stdin)) none) :
    run arguments readFile stdin = none := by
  obtain ⟨rfl, hhangs⟩ := hhangs
  rw [run_of_text h hfile, process_of_hangs hhangs, Option.map_none]

/-- One of the answers is what the command line ends with. -/
theorem run_eq_some_iff (h : Request.ofArguments arguments = .file name mode) {text : String}
    (hfile : readFile name = .ok text.toUTF8) (stdin : ByteArray) (o : Outcome) :
    run arguments readFile stdin = some o ↔
      Answers ⟨name, text⟩ (.global (inputLines stdin)) mode o := by
  refine ⟨fun ho => ?_, run_of_answers h hfile⟩
  rcases exists_answers mode ⟨name, text⟩ (.global (inputLines stdin)) with ⟨o', ho'⟩ | hhangs
  · rw [run_of_answers h hfile ho'] at ho
    cases ho
    exact ho'
  · rw [run_of_endless h hfile hhangs] at ho
    cases ho

/-- Only a program that does not come to an end keeps it from that. -/
theorem run_eq_none_iff (h : Request.ofArguments arguments = .file name mode) {text : String}
    (hfile : readFile name = .ok text.toUTF8) (stdin : ByteArray) :
    run arguments readFile stdin = none ↔
      mode = .run ∧ Interprets ⟨name, text⟩ (.global (inputLines stdin)) none := by
  refine ⟨fun hnone => ?_, run_of_endless h hfile⟩
  rcases exists_answers mode ⟨name, text⟩ (.global (inputLines stdin)) with ⟨o, ho⟩ | hhangs
  · rw [run_of_answers h hfile ho] at hnone
    cases hnone
  · exact hhangs

end Script

/-- On a script that is text, the command line ends with what the stages up to the one that the mode
asks for have to show, and only a program that does not come to an end keeps it from there. The
status is 65 if the text does not scan or parse, 70 if the evaluation fails, and 0 otherwise. To
show the tokens or the tree, nothing is evaluated and no input is read. A file that cannot be read
or is no text is reported with status 74, and nothing else happens. -/
theorem script_status {arguments : List String} {name : String} {mode : Mode}
    (h : Request.ofArguments arguments = .file name mode)
    (readFile : String → Except String ByteArray) :
    (∀ text : String, readFile name = .ok text.toUTF8 →
      (∀ stdin o, run arguments readFile stdin = some o ↔
        Answers ⟨name, text⟩ (.global (inputLines stdin)) mode o) ∧
      (∀ stdin, run arguments readFile stdin = none ↔
        mode = .run ∧ Interprets ⟨name, text⟩ (.global (inputLines stdin)) none) ∧
      (∀ stdin o, run arguments readFile stdin = some o →
        (o.status = 65 ↔ Rejected mode ⟨name, text⟩) ∧
        (o.status = 70 ↔ Faulty mode ⟨name, text⟩ (.global (inputLines stdin))) ∧
        (o.status = 0 ↔ ¬Rejected mode ⟨name, text⟩ ∧
          ¬Faulty mode ⟨name, text⟩ (.global (inputLines stdin)))) ∧
      (mode ≠ .run → ∃ r, (∀ i, process mode false i ⟨name, text⟩ = some (r, i)) ∧
        ∀ stdin, run arguments readFile stdin = some r.outcome)) ∧
    ((∀ text : String, readFile name ≠ .ok text.toUTF8) →
      ∃ reason, ∀ stdin, run arguments readFile stdin =
        some ⟨74, "", unreadableText name reason⟩) := by
  constructor
  · intro text hfile
    refine ⟨run_eq_some_iff h hfile, run_eq_none_iff h hfile, fun stdin o ho => ?_, fun hmode => ?_⟩
    · exact ((run_eq_some_iff h hfile stdin o).mp ho).status_iff
    · obtain ⟨r, hr⟩ := exists_process hmode ⟨name, text⟩
      refine ⟨r, hr, fun stdin => ?_⟩
      rw [run_of_text h hfile, hr, Option.map_some]
  · intro hfile
    obtain ⟨reason, hreason⟩ := exists_reason hfile
    exact ⟨reason, run_of_unreadable h hreason⟩

/-- The program prints the line that it reads and then fails. -/
theorem script_status_division :
    let text := "IF print(input()) THEN 0 ELSE 1/0"
    let stdin : ByteArray := "hi\nho\n".toUTF8
    let readFile (_ : String) : Except String ByteArray := .ok text.toUTF8
    let errors := "Traceback (most recent call last):\n  File a, line 1, in <program>\n" ++
      "Runtime Error: Division by zero\n\nIF print(input()) THEN 0 ELSE 1/0\n" ++
      "                                ^\n\n"
    Request.ofArguments ["a"] = .file "a" .run ∧ readFile "a" = .ok text.toUTF8 ∧
      run ["a"] readFile stdin = some ⟨70, "hi\n", errors⟩ ∧
      Faulty .run ⟨"a", text⟩ (.global (inputLines stdin)) := by
  intro text stdin readFile errors
  have hargs : Request.ofArguments ["a"] = .file "a" .run := by decide +kernel
  have hrun : run ["a"] readFile stdin = some ⟨70, "hi\n", errors⟩ := by decide +kernel
  obtain ⟨-, -, hstatus, -⟩ := (script_status hargs readFile).1 text rfl
  exact ⟨hargs, rfl, hrun, (hstatus stdin _ hrun).2.1.mp rfl⟩

end Minibasic.Command
