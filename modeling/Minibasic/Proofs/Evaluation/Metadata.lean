import Minibasic.Proofs.Evaluation.Simulation
import Minibasic.Proofs.Parser.Layout

/-!
Layout has no meaning. Two sources with the same lexemes come to the same end, in states that
differ in no more than where values arose and where the bodies of functions stand.
-/

namespace Minibasic

/-- The view of one session on itself, which keeps `f` of a span. -/
def View.same {μ : Type} (f : Span → μ) : View μ where
  span := f
  scope := Eq
  paired := by
    intro a b c d hab hcd
    rw [hab, hcd]

section

variable {μ : Type} (f : Span → μ)

theorem Environment.alike_self (e : Environment) : e.Alike (.same f) e := by
  unfold Alike
  rw [show (View.same f).scope = Eq from rfl, List.forall₂_eq_eq_eq]

theorem Value.alike_self (v : Value) : v.Alike (.same f) v := by
  unfold Alike
  cases v.datum with
  | number n => exact .number n
  | string s => exact .string s
  | function g =>
    cases g with
    | closure x ps body e => exact .closure x ps rfl (e.alike_self f)
    | builtin b => exact .builtin b

/-- Every state is alike to itself. -/
theorem Interpreter.alike_self (i : Interpreter) : i.Alike (.same f) i where
  environment := i.environment.alike_self f
  store := {
    get? := by
      intro a b hab x
      obtain rfl : a = b := hab
      cases (i.store.scope a).get? x with
      | some v => exact .some (v.alike_self f)
      | none => exact .none
    fresh := fun _ => rfl }
  console := rfl

end

/-- The last token of a text is its end. -/
theorem Scan.getLast?_tokensFrom {cs : List Char} {skip : Nat} {p : Position} {ts : List Token}
    (h : Scan.tokensFrom skip p cs = .ok ts) :
    (Parser.lexemes ts).getLast? = some .eof := by
  induction cs generalizing skip p ts with
  | nil =>
    rw [Scan.tokensFrom] at h
    cases h
    rfl
  | cons c cs ih =>
    cases skip with
    | succ skip => exact ih h
    | zero =>
      -- Whatever stands at the front, the end is behind it.
      simp only [Scan.tokensFrom] at h
      split at h
      · exact ih h
      next l _ =>
        generalize hus : Scan.tokensFrom _ (p.advance c) cs = us at h
        cases us with
        | error d => cases h
        | ok us =>
          cases h
          have hlast := ih hus
          unfold Parser.lexemes at hlast ⊢
          rw [List.map_cons, List.getLast?_cons, hlast]
          rfl
      · cases h

namespace Interpreter

/-- How two runs end whose tokens are `ts` and `ts'`: no tree is found in either, for the same
reason at the same token, and the states stay as they are, or both evaluate the same tree to ends
that are alike. -/
inductive RunsAlike (V : View Unit) (ts ts' : List Token) (i i' : Interpreter) :
    Option (Except Diagnostic Value × Interpreter) →
    Option (Except Diagnostic Value × Interpreter) → Prop
  | syntaxError {x : String} {n : Nat} (hn : n < ts.length) (hn' : n < ts'.length) :
      RunsAlike V ts ts' i i'
        (some (.error { cause := .invalidSyntax x, span := ts[n].span }, i))
        (some (.error { cause := .invalidSyntax x, span := ts'[n].span }, i'))
  | evaluated {e e' : Parser.Node} {o o' : Option (Except Diagnostic Value × Interpreter)} :
      parse ts = .ok e → parse ts' = .ok e' → Parser.SameTree e e' →
      Ends V (Value.Alike V) o o' → RunsAlike V ts ts' i i' o o'

variable {s s' : Source} {ts ts' : List Token}

theorem evalSource_of_tokens (fuel : Nat) (h : Scan.tokens s = .ok ts) (i : Interpreter) :
    evalSource fuel s i = match parse ts with
      | .ok e => eval fuel e i
      | .error d => some (.error d, i) := by
  have hlift : (liftM (Scan.tokens s >>= parse) : Eval Parser.Node) i = some (parse ts, i) := by
    rw [h]
    rfl
  rw [evalSource, bind_apply, hlift]
  cases parse ts <;> rfl

/-- Sources with the same lexemes have the same meaning, with any fuel and in states that are
alike. -/
theorem run_of_lexemes (h : Scan.tokens s = .ok ts) (h' : Scan.tokens s' = .ok ts')
    (hl : Parser.lexemes ts = Parser.lexemes ts') {V : View Unit} {i i' : Interpreter}
    (hi : i.Alike V i') :
    (∀ fuel, RunsAlike V ts ts' i i' (evalSource fuel s i) (evalSource fuel s' i')) ∧
      RunsAlike V ts ts' i i' (run i s) (run i' s') := by
  have hfuel : ∀ fuel,
      RunsAlike V ts ts' i i' (evalSource fuel s i) (evalSource fuel s' i') := by
    intro fuel
    have hts : Parser.SameLexemes ts ts' := ⟨hl, Scan.getLast?_tokensFrom h⟩
    rcases Parser.parse_sameLexemes hts with ⟨e, e', he, he', hee⟩ | ⟨x, n, hn, hn', he, he'⟩
    · have hends := (simulation V fuel).eval e e' hee i i' hi
      rw [evalSource_of_tokens fuel h, evalSource_of_tokens fuel h', he, he']
      exact .evaluated he he' hee hends
    · rw [evalSource_of_tokens fuel h, evalSource_of_tokens fuel h', he, he']
      exact .syntaxError hn hn'
  exact ⟨hfuel, hfuel ampleFuel⟩

/-- Spaces and line feeds between the tokens of a function make no difference. -/
theorem run_of_lexemes_spaced :
    ∃ ts ts', Scan.tokens ⟨"a", "FUN f(x)->x/0"⟩ = .ok ts ∧
      Scan.tokens ⟨"b", " FUN f ( x )\n  -> x / 0\n"⟩ = .ok ts' ∧
      Parser.lexemes ts = Parser.lexemes ts' ∧
      RunsAlike (.same fun _ => ()) ts ts' (global []) (global [])
        (run (global []) ⟨"a", "FUN f(x)->x/0"⟩)
        (run (global []) ⟨"b", " FUN f ( x )\n  -> x / 0\n"⟩) := by
  have hi : (global []).Alike (.same fun _ => ()) (global []) := alike_self _ _
  refine ⟨_, _, rfl, rfl, by decide +kernel, ?_⟩
  exact (run_of_lexemes rfl rfl (by decide +kernel) hi).2

end Interpreter

end Minibasic
