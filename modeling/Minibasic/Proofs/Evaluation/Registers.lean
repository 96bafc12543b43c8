import Minibasic.Proofs.Evaluation.Session

/-!
The registers of an interpreter, which are its environment and the call it is in. A call has its
own while it runs, and its caller finds its own again, whether the call fails or not; so each
program of a session starts in the same frame.
-/

namespace Minibasic.Interpreter

variable {fuel : Nat} {i i' j : Interpreter}

/-- The two have the same chain of scopes and are in the same call. -/
structure SameFrame (i i' : Interpreter) : Prop where
  environment : i'.environment = i.environment
  context : i'.context = i.context

theorem Framed.sameFrame (h : Framed i i') : SameFrame i i' := ⟨h.environment, h.context⟩

/-- Chains of the same scopes are equally deep. -/
theorem SameFrame.depth (h : SameFrame i i') : i'.environment.depth = i.environment.depth :=
  congrArg Environment.depth h.environment

theorem sameFrame_of_recorded {α : Type} {m : Eval α} {r : Except Diagnostic α} (hm : Recorded m)
    (h : m i = some (r, i')) : SameFrame i i' := by
  obtain ⟨_, p⟩ := hm i r i' h
  exact p.orderly.framed.sameFrame

/-- A program goes to the end of the session before it. -/
theorem Session.trans {h h' : List Effect} (s : Session i h j) (s' : Session j h' i') :
    Session i (h ++ h') i' := by
  induction s with
  | done => exact s'
  | program p _ ih =>
    rw [List.append_assoc]
    exact .program p (ih s')

theorem Session.append_program {h : List Effect} {console : Console} {s : Source}
    {r : Except Diagnostic Value} (hs : Session i h j)
    (he : evalSource fuel s { j with console } = some (r, i')) :
    ∃ h', Session i (h ++ h') i' := by
  obtain ⟨h', p⟩ := recorded_evalSource fuel s _ r i' he
  exact ⟨h' ++ [], hs.trans (.program p .done)⟩

/-- Evaluation comes back to the frame it started in, with a value or with a failure that any call
on the way has raised, and so does a call. Every program of a session, of which any may have
failed, starts in the frame that the session has started in. -/
theorem registers_restored :
    (∀ fuel e i r i', eval fuel e i = some (r, i') → SameFrame i i') ∧
    (∀ fuel f args m i r i', apply fuel f args m i = some (r, i') → SameFrame i i') ∧
    ∀ environment store input h i, Session (new environment store input) h i →
      i.environment = environment ∧ i.environment.depth = environment.depth ∧
      i.context = rootContext ∧
      ∀ console fuel s r i', evalSource fuel s { i with console } = some (r, i') →
        ∃ h', Session (new environment store input) (h ++ h') i' := by
  refine ⟨?_, ?_, ?_⟩
  · intro fuel e i r i' h
    exact sameFrame_of_recorded ((recording fuel).eval e) h
  · intro fuel f args m i r i' h
    exact sameFrame_of_recorded ((recording fuel).apply f args m) h
  · intro environment store input h i hs
    have hf := hs.orderly.framed.sameFrame
    exact ⟨hf.environment, hf.depth, hf.context, fun _ _ _ _ _ he => hs.append_program he⟩

/-- The call `(FUN (a) -> (FUN (b) -> b / 0)(a))(1)` fails two calls deep, and the interpreter is
in its program again. A session goes on in the root context after the program `b` has failed. -/
theorem registers_restored_failures :
    let inner : Expr Span :=
      .function default none ["b"] (.binary default .div (.var default "b")
        (.number default (.int 0)))
    let outer : Expr Span :=
      .function default none ["a"] (.call default inner [.var default "a"])
    let e : Expr Span := .call default outer [.number default (.int 1)]
    (∃ d i', eval 9 e (global []) = some (.error d, i') ∧ d.context.map Context.depth = some 3 ∧
      SameFrame (global []) i') ∧
    ∃ d h i', evalSource 3 ⟨"a", "b"⟩ (global []) = some (.error d, i') ∧
      Session (global []) h i' ∧ i'.environment.depth = 1 ∧ i'.context = rootContext := by
  intro inner outer e
  refine ⟨⟨_, _, rfl, rfl, registers_restored.1 9 e _ _ _ rfl⟩, ?_⟩
  have hgo := registers_restored.2.2 _ _ [] [] (global []) .done
  obtain ⟨h, hs⟩ := hgo.2.2.2 (global []).console 3 ⟨"a", "b"⟩ _ _ rfl
  have hend := registers_restored.2.2 _ _ [] _ _ hs
  exact ⟨_, h, _, rfl, hs, hend.2.1, hend.2.2.1⟩

end Minibasic.Interpreter
