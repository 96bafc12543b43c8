import Minibasic.Proofs.Parser.Acceptance
import Minibasic.Proofs.Parser.Lookahead
import Minibasic.Proofs.Parser.Viability

/-!
Where a syntax error is reported. What stands before the token to blame can be completed to an
expression, and no expression starts with these tokens and that one.
-/

namespace Minibasic.Parser

open Grammar

variable {α : Type} {ts rest : List Token} {e : Expectation} {fuel : Nat}

/-- The end of `ts` or a token in it is the first wrong one, at the place `k`: an expression can
start with the tokens before it, but none does with these and the wrong one, and the tokens before
the end are no expression if it is the end that is wrong. -/
structure FirstWrong (ts : List Token) (k : Nat) : Prop where
  le_length : k ≤ ts.length
  begins : lexemes (ts.take k) ∈ beginnings (sentences .expression)
  not_begins : k < ts.length → lexemes (ts.take (k + 1)) ∉ beginnings (sentences .expression)
  not_ends : k = ts.length → lexemes ts ∉ sentences .expression

theorem reaches_program (fuel : Nat) (ts : List Token) :
    (program fuel ts).Reaches (sentences .expression) ts := by
  let next (e : Expr Span) : Rule (Expr Span) :=
    peek >>= fun l => if l = .eof then pure e else Rule.fail .operator
  have hnext (e : Expr Span) (rest : List Token) : (next e rest).Reaches 1 rest := by
    refine reaches_peek fun l _ => ?_
    split
    · exact reaches_pure e rest
    · exact reaches_fail inhabited_one _ rest
  have h : (program fuel ts).Reaches (sentences .expression * 1) ts :=
    reaches_bind (by simp) ((viable fuel).expression ts) hnext
  rwa [mul_one] at h

/-- The end of the text is not in the beginning of an expression. -/
theorem eof_not_mem_of_begins {w : List Lexeme} (h : w ∈ beginnings (sentences .expression)) :
    .eof ∉ w := by
  obtain ⟨z, e, hd⟩ := h
  exact fun he => eof_not_mem_of_derives hd (List.mem_append_left z he)

/-- No expression starts with what was read and the token behind it: the parser would have come
past that token, since it has not seen any farther. -/
theorem not_begins_of_failed {read y : List Token} {t : Token}
    (h : program fuel (read ++ t :: y) = .failed e (t :: y)) :
    lexemes (read ++ [t]) ∉ beginnings (sentences .expression) := by
  intro hb
  obtain ⟨z, hz⟩ := hb
  have hlocal := local_program fuel (read ++ t :: y)
  rw [h] at hlocal
  obtain ⟨read', heq, hsees⟩ := hlocal
  obtain rfl := List.append_cancel_right heq
  -- The same tokens with a completion behind them make up an expression.
  let x : List Token := z.map (⟨·, default⟩) ++ [⟨.eof, default⟩]
  have hx : lexemes (read ++ t :: x) ∈ sentences .expression * only .eof := by
    refine ⟨_, hz, [.eof], rfl, ?_⟩
    simp [lexemes, x, Function.comp_def]
  have hleaves := program_leaves fuel (read ++ t :: x) hx
  rw [hsees t y x rfl] at hleaves
  exact hleaves

theorem failed_of_parse_error {d : Diagnostic} (h : parse ts = .error d) :
    ∃ e rest, program (enoughFuel ts) ts = .failed e rest ∧ d = missing e rest := by
  have hx := program_ne_exhausted ts
  unfold parse at h
  cases hp : program (enoughFuel ts) ts with
  | found e rest =>
    rw [hp] at h
    cases h
  | failed e rest =>
    rw [hp] at h
    cases h
    exact ⟨e, rest, rfl, rfl⟩
  | exhausted => exact absurd hp hx

/-- The end token is never read, so it is left when the parser fails. -/
theorem exists_read_of_failed {stop : Token} (hstop : stop.lexeme = .eof)
    (h : program fuel (ts ++ [stop]) = .failed e rest) :
    ∃ read us, ts = read ++ us ∧ rest = us ++ [stop] ∧
      lexemes read ∈ beginnings (sentences .expression) := by
  have hr := reaches_program fuel (ts ++ [stop])
  rw [h] at hr
  obtain ⟨_, hb, read, heq, rfl⟩ := hr
  rcases List.append_eq_append_iff.mp heq with ⟨as, rfl, hs⟩ | ⟨us, rfl, hs⟩
  · cases as with
    | nil =>
      rw [List.append_nil] at hb
      exact ⟨ts, [], (List.append_nil ts).symm, hs.symm, hb⟩
    | cons a as =>
      have ha : a = stop := (List.cons.inj hs).1.symm
      refine absurd ?_ (eof_not_mem_of_begins hb)
      simp [ha, hstop]
  · exact ⟨read, us, rfl, hs, hb⟩

/-- What is left when the parser fails starts with the first wrong token. -/
theorem firstWrong_of_failed {read us : List Token} {stop : Token} (hstop : stop.lexeme = .eof)
    (hb : lexemes read ∈ beginnings (sentences .expression))
    (h : program (enoughFuel (read ++ us ++ [stop])) (read ++ us ++ [stop]) =
      .failed e (us ++ [stop])) : FirstWrong (read ++ us) read.length where
  le_length := by simp
  begins := by
    rw [List.take_left]
    exact hb
  not_begins hlt := by
    cases us with
    | nil =>
      rw [List.append_nil] at hlt
      exact absurd hlt (Nat.lt_irrefl _)
    | cons t us =>
      have htaken : (read ++ t :: us).take (read.length + 1) = read ++ [t] := by
        rw [List.take_length_add_append]
        rfl
      rw [List.append_assoc] at h
      rw [htaken]
      exact not_begins_of_failed h
  not_ends _ hs := by
    obtain ⟨e', hok⟩ := parse_ok_of_mem (read ++ us ++ [stop])
      ⟨_, hs, [.eof], rfl, by simp [lexemes, hstop]⟩
    rw [parse, h] at hok
    cases hok

/-- What is left when a rule fails is left with another message as well. -/
def Outcome.SamePlace : Outcome α → Outcome α → Prop
  | .found a rest, o => o = .found a rest
  | .failed _ rest, o => ∃ e, o = .failed e rest
  | .exhausted, o => o = .exhausted

theorem Rule.Local.samePlace_orElse {r : Rule α} (hr : r.Local) (e : Expectation)
    (ts : List Token) : (r ts).SamePlace (r.orElse e ts) := by
  have h := hr ts
  unfold Rule.orElse
  cases hts : r ts with
  | found a rest => exact rfl
  | failed e' rest =>
    rw [hts] at h
    obtain ⟨read, rfl, -⟩ := h
    cases read with
    | nil => exact ⟨e, by simp⟩
    | cons a read =>
      have hlen : rest.length ≠ (a :: read ++ rest).length := by
        simp only [List.cons_append, List.length_cons, List.length_append]
        omega
      exact ⟨e', if_neg hlen⟩
  | exhausted => exact rfl

/-- A syntax error blames the first wrong token. A rule that puts its own message in place of that
of another fails where the other does, whatever the message. -/
theorem parse_error_blames_first_wrong {ts : List Token} {stop : Token}
    (hstop : stop.lexeme = .eof) :
    (∀ d, parse (ts ++ [stop]) = .error d →
      ∃ k t, (ts ++ [stop])[k]? = some t ∧ d.span = t.span ∧ FirstWrong ts k) ∧
    ∀ fuel e us,
      (binary fuel .logical us).SamePlace ((binary fuel .logical).orElse e us) ∧
      (relation fuel us).SamePlace ((relation fuel).orElse e us) ∧
      (expression fuel us).SamePlace ((expression fuel).orElse e us) := by
  refine ⟨fun d hd => ?_, fun fuel e us => ?_⟩
  · obtain ⟨e, rest, hp, rfl⟩ := failed_of_parse_error hd
    obtain ⟨read, us, rfl, rfl, hb⟩ := exists_read_of_failed hstop hp
    have hfirst := firstWrong_of_failed hstop hb hp
    cases us with
    | nil => exact ⟨read.length, stop, by simp, rfl, hfirst⟩
    | cons t us => exact ⟨read.length, t, by simp, rfl, hfirst⟩
  · have h := looking fuel
    exact ⟨(h.binary .logical).samePlace_orElse e us, h.relation.samePlace_orElse e us,
      h.expression.samePlace_orElse e us⟩

/-- In `a < b < c` the second comparison is to blame: `a < b` can go on, but not with `<`. -/
theorem parse_error_blames_first_wrong_comparison :
    let at_ (n : Nat) : Span := ⟨⟨⟨n, 0, n⟩, default⟩, ⟨⟨n + 1, 0, n + 1⟩, default⟩⟩
    let ts : List Token := [⟨.identifier "a", at_ 0⟩, ⟨.less, at_ 1⟩, ⟨.identifier "b", at_ 2⟩,
      ⟨.less, at_ 3⟩, ⟨.identifier "c", at_ 4⟩]
    let stop : Token := ⟨.eof, at_ 5⟩
    stop.lexeme = .eof ∧ ∃ d, parse (ts ++ [stop]) = .error d ∧ d.span = at_ 3 ∧
      ∃ k t, (ts ++ [stop])[k]? = some t ∧ d.span = t.span ∧ FirstWrong ts k := by
  intro at_ ts stop
  have hspan : (match parse (ts ++ [stop]) with
      | .ok _ => none
      | .error d => some d.span) = some (at_ 3) := by decide +kernel
  cases hd : parse (ts ++ [stop]) with
  | ok e =>
    rw [hd] at hspan
    cases hspan
  | error d =>
    rw [hd] at hspan
    exact ⟨rfl, d, rfl, Option.some.inj hspan, (parse_error_blames_first_wrong rfl).1 d hd⟩

end Minibasic.Parser
