import Minibasic.Proofs.Evaluation.Output
import Minibasic.Proofs.Evaluation.Session

/-!
What a run reads and writes. Only the calls of built-in functions change the console, and only those
that ask for input take lines from it, in the order in which these stand there.
-/

namespace Minibasic

/-- A call of a built-in function, the lines that it takes and those that it writes. -/
structure Exchange where
  builtin : Builtin
  taken : List InputLine
  written : List String

/-- The function takes lines of input. -/
def Builtin.asksForInput : Builtin → Bool
  | input | inputInt => true
  | print | printReturn => false

theorem readInteger_input (o : Array String) (ls : List InputLine) :
    (readInteger o ls).2.input <:+ ls := by
  induction ls generalizing o with
  | nil => exact List.suffix_refl []
  | cons l ls ih =>
    cases l with
    | undecodable => exact List.suffix_cons _ _
    | text line ending =>
      rw [readInteger]
      split
      · exact List.suffix_cons _ _
      · exact (ih _).trans (List.suffix_cons _ _)

theorem Builtin.run_input (b : Builtin) (look : String → Option Datum) (c : Console) :
    (b.run look c).2.input <:+ c.input ∧
      (¬b.asksForInput → (b.run look c).2.input = c.input) := by
  cases b with
  | print =>
    have hsame : (Builtin.print.run look c).2.input = c.input := by
      rw [run]
      split <;> rfl
    exact ⟨hsame ▸ List.suffix_refl _, fun _ => hsame⟩
  | printReturn => exact ⟨List.suffix_refl _, fun _ => rfl⟩
  | input =>
    refine ⟨?_, fun h => absurd rfl h⟩
    rcases c with ⟨_ | ⟨_ | _, ls⟩, o⟩
    · exact List.suffix_refl _
    · exact List.suffix_cons _ _
    · exact List.suffix_cons _ _
  | inputInt =>
    refine ⟨?_, fun h => absurd rfl h⟩
    have hread := readInteger_input c.output c.input
    rw [run]
    split <;> rename_i heq <;> rwa [heq] at hread

namespace Interpreter

variable {α β : Type}

/-- A run from `i` to `j`, made up of calls of built-in functions and of steps that do not touch the
console, with what the calls take and write. -/
inductive Talks : {α : Type} → Eval α → Interpreter → List Exchange → Except Diagnostic α →
    Interpreter → Prop where
  | quiet {α : Type} {m : Eval α} {i j : Interpreter} {r : Except Diagnostic α} :
      m i = some (r, j) → j.console = i.console → Talks m i [] r j
  | builtin {x : Exchange} {e : Environment} {ps : List String} {vs : List Value} {c : Context}
      {s : Span} {i j : Interpreter} {r : Except Diagnostic Value} :
      (openScope e ps vs >>= fun e => runBuiltin x.builtin e c s) i = some (r, j) →
      i.console.input = x.taken ++ j.console.input →
      j.console.output = i.console.output ++ x.written.toArray →
      Talks (openScope e ps vs >>= fun e => runBuiltin x.builtin e c s) i [x] r j
  | call {α : Type} {body : Eval α} {e : Environment} {ps : List String} {vs : List Value}
      {c : Context} {i j : Interpreter} {xs : List Exchange} {r : Except Diagnostic α} :
      Talks body { i.opened e ps vs with context := c } xs r j →
      Talks (openScope e ps vs >>= fun e => inFrame e c body) i xs r
        { j with environment := i.environment, context := i.context }
  | bind {α β : Type} {m : Eval α} {next : α → Eval β} {i j k : Interpreter} {a : α}
      {xs ys : List Exchange} {r : Except Diagnostic β} :
      Talks m i xs (.ok a) j → Talks (next a) j ys r k → Talks (m >>= next) i (xs ++ ys) r k
  | stop {α β : Type} {m : Eval α} {next : α → Eval β} {i j : Interpreter} {d : Diagnostic}
      {xs : List Exchange} : Talks m i xs (.error d) j → Talks (m >>= next) i xs (.error d) j

/-- The console after a call of a built-in function is the one that the function leaves. -/
theorem console_of_builtin {b : Builtin} {e : Environment} {ps : List String} {vs : List Value}
    {c : Context} {s : Span} {i j : Interpreter} {r : Except Diagnostic Value}
    (h : (openScope e ps vs >>= fun e => runBuiltin b e c s) i = some (r, j)) :
    ∃ look, j.console = (b.run look i.console).2 := by
  change runBuiltin b (e.child i.store.fresh) c s { i with store := (i.opened e ps vs).store } = _
    at h
  rw [runBuiltin_apply b _ c s _ rfl] at h
  cases h
  exact ⟨_, rfl⟩

namespace Talks

variable {m : Eval α} {i j : Interpreter} {xs : List Exchange} {r : Except Diagnostic α}

theorem apply_eq (h : Talks m i xs r j) : m i = some (r, j) := by
  induction h with
  | quiet hm _ => exact hm
  | builtin hm _ _ => exact hm
  | call _ ih => rw [openScope_inFrame, ih]
  | bind _ _ ih ih' =>
    rw [bind_apply, ih]
    exact ih'
  | stop _ ih => rw [bind_apply, ih]

/-- Every line that is gone from the input has been taken, in order. -/
theorem input (h : Talks m i xs r j) :
    i.console.input = xs.flatMap Exchange.taken ++ j.console.input := by
  induction h with
  | quiet _ hc => rw [hc, List.flatMap_nil, List.nil_append]
  | builtin _ hin _ => rw [hin, List.flatMap_singleton]
  | call _ ih => exact ih
  | bind _ _ ih ih' => rw [ih, ih', List.flatMap_append, List.append_assoc]
  | stop _ ih => exact ih

theorem length_input_le (h : Talks m i xs r j) :
    j.console.input.length ≤ i.console.input.length := by
  have hsuffix : j.console.input <:+ i.console.input := ⟨_, h.input.symm⟩
  exact hsuffix.length_le

theorem output (h : Talks m i xs r j) :
    j.console.output = i.console.output ++ (xs.flatMap Exchange.written).toArray := by
  induction h with
  | quiet _ hc => rw [hc, List.flatMap_nil, Array.append_empty]
  | builtin _ _ hout => rw [hout, List.flatMap_singleton]
  | call _ ih => exact ih
  | bind _ _ ih ih' =>
    rw [ih', ih, List.flatMap_append, ← List.append_toArray, Array.append_assoc]
  | stop _ ih => exact ih

/-- No function takes lines but those that ask for input. -/
theorem asksForInput (h : Talks m i xs r j) :
    ∀ x ∈ xs, x.taken ≠ [] → x.builtin.asksForInput := by
  induction h with
  | quiet => exact List.forall_mem_nil _
  | @builtin x _ _ _ _ _ _ _ _ hm hin _ =>
    refine List.forall_mem_singleton.mpr fun htaken => ?_
    refine Decidable.byContradiction fun hasks => htaken ?_
    obtain ⟨look, hconsole⟩ := console_of_builtin hm
    rw [hconsole, (x.builtin.run_input look _).2 hasks] at hin
    exact List.self_eq_append_left.mp hin
  | call _ ih => exact ih
  | bind _ _ ih ih' => exact List.forall_mem_append.mpr ⟨ih, ih'⟩
  | stop _ ih => exact ih

end Talks

/-- A run with a history is one that talks. -/
theorem Performs.talks {m : Eval α} {i j : Interpreter} {h : List Effect} {r : Except Diagnostic α}
    (p : Performs m i h r j) : ∃ xs, Talks m i xs r j := by
  induction p with
  | readOnly _ hr => exact ⟨[], .quiet hr rfl⟩
  | define => exact ⟨[], .quiet rfl rfl⟩
  | call _ ih =>
    obtain ⟨xs, hxs⟩ := ih
    exact ⟨xs, .call hxs⟩
  | @builtin b _ _ _ _ _ i _ console hm =>
    obtain ⟨look, hconsole⟩ := console_of_builtin hm
    obtain ⟨taken, hin⟩ := (b.run_input look i.console).1
    obtain ⟨_, rest, lines, hrun⟩ := b.run_output look i.console.input
    have hout : console.output = i.console.output ++ lines.toList.toArray := by
      change console = _ at hconsole
      rw [hconsole, Array.toArray_toList]
      exact congrArg (fun p => p.2.output) (hrun i.console.output)
    refine ⟨_, .builtin (x := ⟨b, taken, lines.toList⟩) hm ?_ hout⟩
    rw [hconsole]
    exact hin.symm
  | bind _ _ ih ih' =>
    obtain ⟨xs, hxs⟩ := ih
    obtain ⟨ys, hys⟩ := ih'
    exact ⟨xs ++ ys, .bind hxs hys⟩
  | stop _ ih =>
    obtain ⟨xs, hxs⟩ := ih
    exact ⟨xs, .stop hxs⟩

/-- Every run of a program talks. -/
theorem talks_of_run {s : Source} {i j : Interpreter} {r : Except Diagnostic Value}
    (h : i.run s = some (r, j)) : ∃ xs, Talks (evalSource ampleFuel s) i xs r j := by
  obtain ⟨_, p⟩ := recorded_evalSource ampleFuel s i r j h
  exact p.talks

end Interpreter

end Minibasic
