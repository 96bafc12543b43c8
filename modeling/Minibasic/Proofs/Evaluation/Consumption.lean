import Minibasic.Proofs.Console.Integers
import Minibasic.Proofs.Evaluation.Exchanges
import Minibasic.Proofs.Evaluation.Tasks

/-!
How far input is consumed. A function that asks for an integer takes the lines up to the first that
holds one; over a whole run the input only loses lines at its front, and the output only gains lines
at its end.
-/

namespace Minibasic

/-- The console at a later time: lines are gone from the front of the input, and the output goes on
after what it was. -/
structure Console.Later (c c' : Console) : Prop where
  input : c'.input <:+ c.input
  output : c.output.toList <+: c'.output.toList

namespace Console.Later

variable {c c' c'' : Console}

theorem refl (c : Console) : c.Later c := ⟨List.suffix_refl _, List.prefix_refl _⟩

theorem trans (h : c.Later c') (h' : c'.Later c'') : c.Later c'' :=
  ⟨h'.input.trans h.input, h.output.trans h'.output⟩

end Console.Later

namespace Interpreter

variable {α : Type} {m : Eval α} {i j : Interpreter} {r : Except Diagnostic α} {n : Nat}
  {t t' : Task} {calls : List Activation}

theorem Talks.later {xs : List Exchange} (h : Talks m i xs r j) : i.console.Later j.console where
  input := ⟨_, h.input.symm⟩
  output := ⟨xs.flatMap Exchange.written, by rw [h.output]; simp⟩

/-- Every run leaves a later console, also one that fails. -/
theorem later_of_recorded (hm : Recorded m) (h : m i = some (r, j)) :
    i.console.Later j.console := by
  obtain ⟨_, p⟩ := hm i r j h
  obtain ⟨_, hxs⟩ := p.talks
  exact hxs.later

theorem later_of_eval {e : Expr Span} {r : Except Diagnostic Value}
    (h : eval n e i = some (r, j)) : i.console.Later j.console :=
  later_of_recorded ((recording n).eval e) h

/-- What comes before a part leaves a later console. -/
theorem Part.later (h : Part n t i calls t' j) : i.console.Later j.console := by
  cases h with
  | first | iteration | enter => exact .refl _
  | right h | chosen _ h _ | other _ h _ | stop h _ | lasting h _ | tail h | arguments h =>
    exact later_of_eval h
  | step h _ h' _ | again h _ h' => exact (later_of_eval h).trans (later_of_eval h')
  | count ha _ hb _ hc =>
    have hstep := later_of_recorded ((recording n).evalStep _) hc
    exact (later_of_eval ha).trans ((later_of_eval hb).trans hstep)
  | next _ h _ =>
    -- the counter is bound before the body
    have hbody := later_of_eval h
    exact hbody
  | apply h _ h' =>
    exact (later_of_eval h).trans (later_of_recorded ((recording n).evalAll _) h')

/-- On the way the console only gets later, whether the run ends or not. -/
theorem Visits.later {fuel : Nat} (h : Visits fuel t i calls n t' j) :
    i.console.Later j.console := by
  induction h with
  | here => exact .refl _
  | part h _ ih => exact h.later.trans ih

end Interpreter

section Integers

variable {rejected : List (String × String)} {rest : List InputLine}

/-- The first line that holds an integer is the last one that is taken. -/
theorem run_inputInt_text {line : String} {n : Int64}
    (h : ∀ l ∈ rejected, ∀ n, ¬HoldsInteger l.1 n) (hn : HoldsInteger line n)
    (look : String → Option Datum) (ending : String) (output : Array String) :
    Builtin.inputInt.run look ⟨textLines rejected ++ .text line ending :: rest, output⟩ =
      (.ok (.int n), ⟨rest, output ++ (reprompts rejected).toArray⟩) := by
  rw [Builtin.run, readInteger_rejected h, readInteger, readInt64?_eq_some_iff.mpr hn]

/-- Without such a line there is none that is not taken. -/
theorem run_inputInt_nil (h : ∀ l ∈ rejected, ∀ n, ¬HoldsInteger l.1 n)
    (look : String → Option Datum) (output : Array String) :
    Builtin.inputInt.run look ⟨textLines rejected ++ [], output⟩ =
      (.error .inputUnavailable, ⟨[], output ++ (reprompts rejected).toArray⟩) := by
  rw [Builtin.run, readInteger_rejected h, readInteger]

/-- A line that is no text counts as the end of the input. -/
theorem run_inputInt_undecodable (h : ∀ l ∈ rejected, ∀ n, ¬HoldsInteger l.1 n)
    (look : String → Option Datum) (output : Array String) :
    Builtin.inputInt.run look ⟨textLines rejected ++ .undecodable :: rest, output⟩ =
      (.error .inputUnavailable, ⟨rest, output ++ (reprompts rejected).toArray⟩) := by
  rw [Builtin.run, readInteger_rejected h, readInteger]

end Integers

/-- Input is consumed as far as it is needed. A function that asks for an integer takes the lines up
to the first that holds one, which is its result, and asks again once for each line before that. If
it comes to the end of the input or to a line that is no text, it has taken all up to there, and
fails. The text of an integer is a line that holds it. Over the evaluation of a program, which may
fail or not come to an end, the input only loses lines at its front and the output only gains lines
at its end. -/
theorem input_consumed :
    (∀ (look : String → Option Datum) (input : List InputLine) (output : Array String),
      ∃ rejected rest,
        input = textLines rejected ++ rest ∧ (∀ l ∈ rejected, ∀ n, ¬HoldsInteger l.1 n) ∧
        ((∃ line ending unread n, rest = .text line ending :: unread ∧ HoldsInteger line n ∧
            Builtin.inputInt.run look ⟨input, output⟩ =
              (.ok (.int n), ⟨unread, output ++ (reprompts rejected).toArray⟩)) ∨
          (rest = [] ∧ Builtin.inputInt.run look ⟨input, output⟩ =
            (.error .inputUnavailable, ⟨[], output ++ (reprompts rejected).toArray⟩)) ∨
          ∃ unread, rest = .undecodable :: unread ∧ Builtin.inputInt.run look ⟨input, output⟩ =
            (.error .inputUnavailable, ⟨unread, output ++ (reprompts rejected).toArray⟩))) ∧
    (∀ n : Int64, HoldsInteger (Datum.int n).text n ∧ ∀ look ending unread output,
      Builtin.inputInt.run look ⟨.text (Datum.int n).text ending :: unread, output⟩ =
        (.ok (.int n), ⟨unread, output⟩)) ∧
    (∀ fuel s i r j, Interpreter.evalSource fuel s i = some (r, j) →
      i.console.Later j.console) ∧
    ∀ fuel e i, (∀ r j, Interpreter.eval fuel e i = some (r, j) → i.console.Later j.console) ∧
      ∀ calls n t j, Interpreter.Visits fuel (.eval e) i calls n t j →
        i.console.Later j.console := by
  refine ⟨fun look input output => ?_, fun n => ⟨holdsInteger_text n, ?_⟩, ?_, ?_⟩
  · obtain ⟨rejected, rest, rfl, h, hrest⟩ := exists_rejected input
    refine ⟨rejected, rest, rfl, h, ?_⟩
    rcases hrest with rfl | ⟨unread, rfl⟩ | ⟨line, ending, unread, n, rfl, hn⟩
    · exact .inr (.inl ⟨rfl, run_inputInt_nil h look output⟩)
    · exact .inr (.inr ⟨unread, rfl, run_inputInt_undecodable h look output⟩)
    · exact .inl ⟨line, ending, unread, n, rfl, hn, run_inputInt_text h hn look ending output⟩
  · intro look ending unread output
    have hnone : ∀ l ∈ ([] : List (String × String)), ∀ n, ¬HoldsInteger l.1 n :=
      List.forall_mem_nil _
    have hwritten : output ++ (reprompts []).toArray = output := Array.append_empty
    have hrun := @run_inputInt_text [] unread _ n hnone (holdsInteger_text n) look ending output
    rwa [hwritten] at hrun
  · intro fuel s i r j h
    exact Interpreter.later_of_recorded (Interpreter.recorded_evalSource fuel s) h
  · exact fun fuel e i =>
      ⟨fun r j h => Interpreter.later_of_eval h, fun calls n t j h => h.later⟩

/-- The first line is asked for again, the second one holds an integer between white space, and the
program fails before it comes to the third. -/
theorem input_consumed_division :
    let i := Interpreter.global [.text "x" "", .text "\u00a0+7 " "", .text "8" ""]
    ∃ d j, Interpreter.evalSource 9 ⟨"a", "input_int()/0"⟩ i = some (.error d, j) ∧
      d.cause = .divisionByZero ∧ j.console.input = [.text "8" ""] ∧
      j.console.output = #["'x' must be an integer. Try again!"] ∧
      i.console.Later j.console := by
  intro i
  have h : (Interpreter.evalSource 9 ⟨"a", "input_int()/0"⟩ i).map (fun p =>
        ((p.1.map fun _ => ()).mapError Diagnostic.cause, p.2.console.input,
          p.2.console.output)) =
      some (.error .divisionByZero, [.text "8" ""], #["'x' must be an integer. Try again!"]) := by
    decide +kernel
  obtain ⟨⟨r, j⟩, he, hr⟩ := Option.map_eq_some_iff.mp h
  have hlater := input_consumed.2.2.1 9 _ i r j he
  cases r with
  | ok v => cases hr
  | error d =>
    obtain ⟨hcause, hconsole⟩ := Prod.mk.inj hr
    obtain ⟨hin, hout⟩ := Prod.mk.inj hconsole
    exact ⟨d, j, he, Except.error.inj hcause, hin, hout, hlater⟩

end Minibasic
