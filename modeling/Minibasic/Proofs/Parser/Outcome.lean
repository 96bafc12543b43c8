import Minibasic.Expr.Parser

/-!
What holds of a rule of the parser is stated of its outcome, by one condition for each way in
which a rule can end. The conditions on a sequence of rules come down to conditions on the first of
them, so that a rule is taken apart by rewriting.
-/

namespace Minibasic.Parser

variable {α β : Type}

/-- `F` holds of a result and the tokens after it, `G` of a failure, and `X` if the fuel is used
up. -/
def Outcome.Post (F : α → List Token → Prop) (G : Expectation → List Token → Prop) (X : Prop) :
    Outcome α → Prop
  | .found a rest => F a rest
  | .failed e rest => G e rest
  | .exhausted => X

variable {F F' : α → List Token → Prop} {G G' : Expectation → List Token → Prop} {X X' : Prop}

theorem Outcome.Post.imp {o : Outcome α} (h : o.Post F G X) (hF : ∀ a rest, F a rest → F' a rest)
    (hG : ∀ e rest, G e rest → G' e rest) (hX : X → X') : o.Post F' G' X' := by
  cases o with
  | found a rest => exact hF a rest h
  | failed e rest => exact hG e rest h
  | exhausted => exact hX h

theorem Outcome.Post.mono {o : Outcome α} (h : o.Post F G X)
    (hF : ∀ a rest, F a rest → F' a rest) : o.Post F' G X :=
  h.imp hF (fun _ _ h => h) id

@[simp] theorem post_bind (r : Rule α) (next : α → Rule β) (ts : List Token)
    {F : β → List Token → Prop} :
    ((r >>= next) ts).Post F G X ↔
      (r ts).Post (fun a rest => (next a rest).Post F G X) G X := by
  change (Rule.bind r next ts).Post F G X ↔ _
  unfold Rule.bind
  cases r ts <;> rfl

@[simp] theorem post_map (f : α → β) (o : Outcome α) {F : β → List Token → Prop} :
    (o.map f).Post F G X ↔ o.Post (fun a rest => F (f a) rest) G X := by
  cases o <;> rfl

@[simp] theorem post_pure (a : α) (ts : List Token) :
    ((pure a : Rule α) ts).Post F G X ↔ F a ts := Iff.rfl

@[simp] theorem post_fail (e : Expectation) (ts : List Token) :
    (Rule.fail (α := α) e ts).Post F G X ↔ G e ts := Iff.rfl

@[simp] theorem post_exhausted (ts : List Token) :
    (Rule.exhausted (α := α) ts).Post F G X ↔ X := Iff.rfl

@[simp] theorem post_orElse (r : Rule α) (e : Expectation) (ts : List Token) :
    (r.orElse e ts).Post F G X ↔
      (r ts).Post F (fun e' rest => if rest.length = ts.length then G e ts else G e' rest) X := by
  unfold Rule.orElse
  cases r ts with
  | failed e' rest => by_cases h : rest.length = ts.length <;> simp [Outcome.Post, h]
  | _ => rfl

@[simp] theorem post_peek (ts : List Token) {F : Lexeme → List Token → Prop} :
    (peek ts).Post F G X ↔ F (lexemeAt ts) ts := Iff.rfl

@[simp] theorem post_advance (ts : List Token) {F : Span → List Token → Prop} :
    (advance ts).Post F G X ↔ F (spanAt ts) (if lexemeAt ts = .eof then ts else ts.tail) :=
  Iff.rfl

@[simp] theorem post_expect (l : Lexeme) (e : Expectation) (ts : List Token)
    {F : Span → List Token → Prop} :
    (expect l e ts).Post F G X ↔
      if lexemeAt ts = l then F (spanAt ts) (if l = .eof then ts else ts.tail) else G e ts := by
  by_cases h : lexemeAt ts = l
  · simp [expect, h]
  · simp [expect, h]

/-- A list that has another lexeme than the end at its front is not empty. -/
theorem exists_cons_of_lexemeAt {ts : List Token} {l : Lexeme} (h : lexemeAt ts = l)
    (hl : l ≠ .eof) : ∃ s rest, ts = ⟨l, s⟩ :: rest := by
  cases ts with
  | nil => exact absurd h.symm hl
  | cons t rest => exact ⟨t.span, rest, by rw [← h]; rfl⟩

/-- The lexemes `w` stand before `rest`. -/
def Takes (w : List Lexeme) (ts rest : List Token) : Prop :=
  ∃ read, ts = read ++ rest ∧ read.map Token.lexeme = w

namespace Takes

variable {u v : List Lexeme} {ts mid rest : List Token}

theorem nil : Takes [] ts ts := ⟨[], rfl, rfl⟩

theorem append (hu : Takes u ts mid) (hv : Takes v mid rest) : Takes (u ++ v) ts rest := by
  obtain ⟨a, rfl, rfl⟩ := hu
  obtain ⟨b, rfl, rfl⟩ := hv
  exact ⟨a ++ b, by simp⟩

theorem cons {l : Lexeme} (h : lexemeAt ts = l) (hl : l ≠ .eof) (hv : Takes v ts.tail rest) :
    Takes (l :: v) ts rest := by
  obtain ⟨s, ts, rfl⟩ := exists_cons_of_lexemeAt h hl
  obtain ⟨b, hb, rfl⟩ := hv
  rw [List.tail_cons] at hb
  exact ⟨⟨l, s⟩ :: b, by rw [hb]; rfl, rfl⟩

theorem split (h : Takes (u ++ v) ts rest) : ∃ mid, Takes u ts mid ∧ Takes v mid rest := by
  obtain ⟨read, rfl, h⟩ := h
  obtain ⟨a, b, rfl, ha, hb⟩ := List.map_eq_append_iff.mp h
  exact ⟨b ++ rest, ⟨a, List.append_assoc a b rest, ha⟩, b, rfl, hb⟩

theorem uncons {l : Lexeme} (h : Takes (l :: v) ts rest) :
    lexemeAt ts = l ∧ Takes v ts.tail rest := by
  obtain ⟨read, rfl, h⟩ := h
  obtain ⟨t, read, rfl, rfl, rfl⟩ := List.map_eq_cons_iff.mp h
  exact ⟨rfl, read, rfl, rfl⟩

theorem eq_of_nil (h : Takes [] ts rest) : ts = rest := by
  obtain ⟨read, rfl, h⟩ := h
  rw [List.map_eq_nil_iff.mp h, List.nil_append]

end Takes

/-- The parameters read are those after the commas taken. -/
theorem moreParameters_take (ts : List Token) : (moreParameters ts).Post
    (fun ps rest => Takes (ps.flatMap fun p => [.comma, .identifier p]) ts rest)
    (fun _ _ => True) False := by
  fun_induction moreParameters ts with
  | case1 _ name _ ts ih =>
    rw [post_map]
    exact ih.mono fun ps rest tp => .cons rfl (by simp) (.cons rfl (by simp) tp)
  | case2 => trivial
  | case3 ts => exact Takes.nil

end Minibasic.Parser
