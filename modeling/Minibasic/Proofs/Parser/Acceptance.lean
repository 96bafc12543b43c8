import Minibasic.Proofs.Parser.Completeness

/-!
The parser accepts exactly what the grammar derives.
-/

namespace Minibasic.Parser

open Grammar

/-- The end of the text is part of no phrase. -/
theorem eof_not_mem_of_derives {p : Phrase} {w : List Lexeme} (h : Derives p w) : .eof ∉ w := by
  induction h with
  | relation _ hop _ ihu ihv => simp [ihu, ihv, (lexeme_ne_eof _).symm]
  | operation hop _ _ ihu ihv => simp [ihu, ihv, (lexeme_ne_eof _).symm]
  | sign hop _ ih => simp [ih, (sign_ne_eof _).symm]
  | @function x ps _ _ _ ih =>
    have hps : Lexeme.eof ∉ parameterLexemes ps := by
      cases ps with
      | nil => simp [parameterLexemes]
      | cons p ps => simp [parameterLexemes_cons]
    simp [ih, hps]
  | _ => simp_all

/-- What a successful parse has read stands before the end of the text. -/
theorem program_gives (fuel : Nat) (ts : List Token) : (program fuel ts).Gives fun e rest =>
    Reads (.expression e.erase) ts rest ∧ lexemeAt rest = .eof := by
  simp only [program, post_bind, post_peek]
  refine ((sound fuel).expression ts).mono fun e rest hr => ?_
  split
  next hl => exact ⟨hr, hl⟩
  next => trivial

theorem program_leaves (fuel : Nat) (ts : List Token)
    (hts : lexemes ts ∈ sentences .expression * only .eof) :
    (program fuel ts).Post (fun _ _ => True) (fun _ _ => False) True := by
  have hK : Yielding (only .eof) := by
    have h := yielding_only_mul (l := .eof) (K := 1) rfl
    rwa [mul_one] at h
  simp only [program, post_bind, post_peek]
  refine ((complete fuel).expression _ hK ts hts).mono fun e rest hr => ?_
  rw [if_pos (lexemeAt_of_lexemes (w := []) hr)]
  trivial

theorem parse_ok_of_mem (ts : List Token)
    (hts : lexemes ts ∈ sentences .expression * only .eof) : ∃ e, parse ts = .ok e := by
  have h := program_leaves (enoughFuel ts) ts hts
  have hx := program_ne_exhausted ts
  unfold parse
  cases hp : program (enoughFuel ts) ts with
  | found e rest => exact ⟨e, rfl⟩
  | failed e rest =>
    rw [hp] at h
    exact h.elim
  | exhausted => exact absurd hp hx

/-- A successful parse is one of the program. -/
theorem program_of_parse_ok {ts : List Token} {e : Node} (h : parse ts = .ok e) :
    ∃ rest, program (enoughFuel ts) ts = .found e rest := by
  unfold parse at h
  cases hp : program (enoughFuel ts) ts with
  | found e' rest =>
    rw [hp] at h
    cases h
    exact ⟨rest, rfl⟩
  | failed e' rest =>
    rw [hp] at h
    cases h
  | exhausted =>
    rw [hp] at h
    cases h

theorem reads_of_parse_ok {ts : List Token} {e : Node} (h : parse ts = .ok e) :
    ∃ rest, Reads (.expression e.erase) ts rest ∧ lexemeAt rest = .eof := by
  obtain ⟨rest, hp⟩ := program_of_parse_ok h
  have hg := program_gives (enoughFuel ts) ts
  rw [hp] at hg
  exact ⟨rest, hg⟩

theorem eq_ok_of_toOption {ε γ : Type} {r : Except ε γ} {a : γ} (h : r.toOption = some a) :
    r = .ok a := by
  cases r with
  | ok b => exact congrArg Except.ok (Option.some.inj h)
  | error d => cases h

theorem exists_of_read {ε β : Type} {r : Except ε (List Token)} {f : Node → β} {b : β}
    (h : (r.toOption.bind fun ts => (parse ts).toOption.map f) = some b) :
    ∃ ts e, r = .ok ts ∧ parse ts = .ok e ∧ f e = b := by
  obtain ⟨ts, hts, h⟩ := Option.bind_eq_some_iff.mp h
  obtain ⟨e, he, hf⟩ := Option.map_eq_some_iff.mp h
  exact ⟨ts, e, eq_ok_of_toOption hts, eq_ok_of_toOption he, hf⟩

/-- On tokens that end with the end of the text, a phrase is read up to there. -/
theorem derives_of_reads {p : Phrase} {ts rest : List Token} {stop : Token}
    (hts : ∀ t ∈ ts, t.lexeme ≠ .eof) (hstop : stop.lexeme = .eof)
    (h : Reads p (ts ++ [stop]) rest) (hrest : lexemeAt rest = .eof) : Derives p (lexemes ts) := by
  obtain ⟨_, ⟨read, heq, rfl⟩, hd⟩ := h
  -- The phrase cannot reach over the end token, nor stop before it at a token that is no end.
  rcases List.append_eq_append_iff.mp heq with ⟨as, rfl, hs⟩ | ⟨cs, rfl, hs⟩
  · cases as with
    | nil => simpa [lexemes] using hd
    | cons a as =>
      have ha : a = stop := (List.cons.inj hs).1.symm
      refine absurd ?_ (eof_not_mem_of_derives hd)
      simp [ha, hstop]
  · cases cs with
    | nil => simpa [lexemes] using hd
    | cons c cs =>
      rw [hs] at hrest
      exact absurd hrest (hts c (by simp))

/-- The parser succeeds on exactly the expressions of the grammar, and its result stands for the
tokens. -/
theorem parse_ok_iff_derives (ts : List Token) (stop : Token) (hts : ∀ t ∈ ts, t.lexeme ≠ .eof)
    (hstop : stop.lexeme = .eof) :
    ((∃ e, parse (ts ++ [stop]) = .ok e) ↔ ∃ e, Derives (.expression e) (lexemes ts)) ∧
      ∀ e, parse (ts ++ [stop]) = .ok e → Derives (.expression e.erase) (lexemes ts) := by
  have hsound : ∀ e, parse (ts ++ [stop]) = .ok e →
      Derives (.expression e.erase) (lexemes ts) := by
    intro e he
    obtain ⟨rest, hr, hl⟩ := reads_of_parse_ok he
    exact derives_of_reads hts hstop hr hl
  refine ⟨⟨?_, ?_⟩, hsound⟩
  · intro hr
    obtain ⟨e, he⟩ := hr
    exact ⟨_, hsound e he⟩
  · intro hr
    obtain ⟨e, he⟩ := hr
    apply parse_ok_of_mem
    refine ⟨lexemes ts, ⟨e, he⟩, [.eof], rfl, ?_⟩
    simp [lexemes, hstop]

/-- In `FUN () -> f(1)(2)` the second list of arguments belongs to the function, whose body is
`f(1)`; the parser takes it there as well. -/
theorem parse_ok_iff_derives_calls :
    let ts : List Token := [.keyword .fun_, .openParen, .closeParen, .arrow, .identifier "f",
      .openParen, .int 1, .closeParen, .openParen, .int 2, .closeParen].map (⟨·, default⟩)
    let stop : Token := ⟨.eof, default⟩
    (∀ t ∈ ts, t.lexeme ≠ .eof) ∧ stop.lexeme = .eof ∧
      ∃ e, Derives (.expression e) (lexemes ts) := by
  intro ts stop
  have hts : ∀ t ∈ ts, t.lexeme ≠ .eof := by decide
  have hok : (parse (ts ++ [stop])).toOption.isSome := by decide +kernel
  refine ⟨hts, rfl, (parse_ok_iff_derives ts stop hts rfl).1.mp ?_⟩
  cases hp : parse (ts ++ [stop]) with
  | ok e => exact ⟨e, rfl⟩
  | error d =>
    rw [hp] at hok
    cases hok

end Minibasic.Parser
