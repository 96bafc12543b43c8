import Minibasic.Proofs.Source.Moving
import Minibasic.Proofs.Token.LongestMatch

/-!
Scanning a text in two parts. White space between the parts belongs to no token, so that no token
goes on from the one part into the other: the tokens of the whole are those of the parts.
-/

namespace Minibasic.Scan

variable {l : Lexeme} {d : Char} {w rest gap before text : List Char} {s s' : Source}

/-- White space is in no lexeme but a string literal, and that one ends with a quote. -/
theorem Spells.layout_or_quote (h : Spells l w) :
    (∀ c ∈ w, isLayout c = false) ∨ ∃ raw, w = raw ++ ['"'] := by
  have hdigits {ds : List Char} (hds : ∀ d ∈ ds, Decimal.isDigit d) :
      ∀ c ∈ ds, isLayout c = false :=
    fun c hc => isLayout_of_isWordChar (isWordChar_of_isDigit (hds c hc))
  have hword {c : Char} {cs : List Char} (hc : isLetter c) (hcs : ∀ d ∈ cs, isWordChar d) :
      ∀ d ∈ c :: cs, isLayout d = false :=
    List.forall_mem_cons.mpr ⟨isLayout_of_isWordChar (isWordChar_of_isLetter hc),
      fun d hd => isLayout_of_isWordChar (hcs d hd)⟩
  cases h with
  | symbol h =>
    have hsymbols : ∀ w ∈ symbols.map Prod.snd, ∀ c ∈ w, isLayout c = false := by
      simp [symbols, isLayout]
    exact .inl (hsymbols w (List.mem_map_of_mem h))
  | int _ hds | large _ hds => exact .inl (hdigits hds)
  | point _ hds hfs =>
    exact .inl (List.forall_mem_append.mpr
      ⟨hdigits hds, List.forall_mem_cons.mpr ⟨rfl, hdigits hfs⟩⟩)
  | keyword k =>
    obtain ⟨c, cs, hk, hc, hcs⟩ := keyword_text k
    rw [hk]
    exact .inl (hword hc hcs)
  | identifier hc hcs _ => exact .inl (hword hc hcs)
  | @string raw _ _ => exact .inr ⟨'"' :: raw, rfl⟩

/-- No lexeme ends with white space. -/
theorem Spells.isLayout_last (h : Spells l (w ++ [d])) : isLayout d = false := by
  rcases h.layout_or_quote with h | ⟨raw, h⟩
  · exact h d (by simp)
  · obtain ⟨-, h⟩ := List.append_inj' h rfl
    cases h
    rfl

theorem Closed.of_layout (hd : isLayout d) (w rest : List Char) : Closed w (d :: rest) := by
  rintro _ ⟨⟩ l hl
  rw [hl.isLayout_last] at hd
  cases hd

/-- A match that nothing makes longer is not made longer by white space behind the text. -/
theorem Closed.append_layout (h : Closed w rest) (hgap : ∀ c ∈ gap, isLayout c) (hne : gap ≠ [])
    (behind : List Char) : Closed w (rest ++ (gap ++ behind)) := by
  cases rest with
  | cons d rest => exact h
  | nil =>
    obtain ⟨d, gap, rfl⟩ := List.exists_cons_of_ne_nil hne
    exact .of_layout (hgap d List.mem_cons_self) w _

/-- Before white space and any other text, a text has the tokens that it has alone. -/
theorem Lexes.append_layout {r : Except Diagnostic (List Token)} (h : Lexes s' before text r)
    (hgap : ∀ c ∈ gap, isLayout c) (hne : gap ≠ []) :
    ∀ ts, r = .ok ts → ∃ front, ts = front ++ [endToken s' (before ++ text)] ∧
      ∀ s behind, tokensFrom 0 (.past s before) (text ++ (gap ++ behind)) =
        (tokensFrom 0 (.past s (before ++ text ++ gap)) behind).map
          (front.map (Token.moved s .start) ++ ·) := by
  induction h with
  | @stop before text htext =>
    intro ts hts
    cases hts
    refine ⟨[], rfl, fun s behind => ?_⟩
    rw [tokensFrom_layout htext, tokensFrom_layout hgap]
    cases tokensFrom 0 (.past s (before ++ text ++ gap)) behind <;> rfl
  | @token before text w rest l r htext hlong _ ih =>
    intro ts hts
    cases r with
    | error d => cases hts
    | ok ts' =>
      cases hts
      obtain ⟨front, rfl, hfront⟩ := ih ts' rfl
      refine ⟨⟨l, .after s' (before ++ text) w⟩ :: front, by simp, fun s behind => ?_⟩
      have hclosed := hlong.closed.append_layout hgap hne behind
      have hassoc : text ++ (w ++ rest) ++ (gap ++ behind) =
          text ++ (w ++ (rest ++ (gap ++ behind))) := by simp
      have hbefore : before ++ (text ++ (w ++ rest)) ++ gap =
          before ++ text ++ w ++ rest ++ gap := by simp
      have hmoved : (⟨l, .after s (before ++ text) w⟩ : Token) =
          Token.moved s .start ⟨l, .after s' (before ++ text) w⟩ := by
        simp [Token.moved, Span.moved, Position.moved, Span.after, Position.past]
      rw [hassoc, tokensFrom_layout htext, tokensFrom_spells hlong.spells hclosed, hfront, hmoved,
        hbefore]
      cases tokensFrom 0 (.past s (before ++ text ++ w ++ rest ++ gap)) behind <;> rfl
  | fault => exact fun ts hts => by cases hts

/-- The tokens of a text, or its fault, if it starts at `start` in the source `s`. -/
def moved (s : Source) (start : Place) :
    Except Diagnostic (List Token) → Except Diagnostic (List Token)
  | .ok ts => .ok (ts.map (Token.moved s start))
  | .error d => .error (d.moved s start)

/-- A text is scanned in the same way wherever it starts. -/
theorem tokensFrom_moved (s : Source) (start : Place) (skip : Nat) (p : Position)
    (cs : List Char) : tokensFrom skip (p.moved s start) cs =
      moved s start (tokensFrom skip p cs) := by
  induction cs generalizing skip p with
  | nil =>
    have hstop := Position.moved_advance s start p ' '
    cases skip <;> simp [tokensFrom, moved, Token.moved, Span.moved, hstop]
  | cons c cs ih =>
    cases skip with
    | succ skip => rw [tokensFrom, tokensFrom, Position.moved_advance, ih]
    | zero =>
      rw [tokensFrom, tokensFrom]
      obtain ⟨found, n⟩ := front c cs
      cases found with
      | layout =>
        dsimp only
        rw [Position.moved_advance, ih]
      | lexeme l =>
        dsimp only
        rw [Position.moved_advance, Position.moved_advanceBy, ih]
        cases tokensFrom n (p.advance c) cs <;> rfl
      | fault cause =>
        dsimp only
        rw [Position.moved_advanceBy]
        rfl

/-- A text has the same tokens behind other text, but for their places. -/
theorem tokensFrom_past (s s' : Source) (before : List Char) :
    tokensFrom 0 (.past s before) s'.text.toList =
      moved s (Place.start.advanceBy before) (tokens s') := by
  have hbefore : Place.start.advanceBy before = .counted before := Place.advanceBy_counted [] before
  have hpast : Position.past s before = (Position.start s').moved s (.counted before) := by
    simp [Position.moved, Position.start, Position.past]
  rw [hbefore, hpast, tokensFrom_moved, tokens]

/-- A text that has a fault other than a string literal without an end has it before white space and
any other text as well. -/
theorem Lexes.fault_layout {r : Except Diagnostic (List Token)} (h : Lexes s' before text r)
    (hgap : ∀ c ∈ gap, isLayout c) (hne : gap ≠ []) {d : Diagnostic} (hr : r = .error d)
    (hd : d.cause ≠ .unterminatedString) (s : Source) (behind : List Char) :
    tokensFrom 0 (.past s before) (text ++ (gap ++ behind)) = .error (d.moved s .start) := by
  obtain ⟨read, c, rest, rfl, hstuck, rfl, hgo⟩ := h.exists_stuck d hr
  have hq : c ≠ '"' := by
    rintro rfl
    exact hd rfl
  have hstuck' : Stuck c (rest ++ (gap ++ behind)) := by
    refine hstuck.of_head hq fun hc => ?_
    subst hc
    cases rest with
    | nil =>
      obtain ⟨d, gap, rfl⟩ := List.exists_cons_of_ne_nil hne
      rintro ⟨⟩
      cases hgap '=' List.mem_cons_self
    | cons d rest =>
      rintro ⟨⟩
      exact hstuck.not_spells ['!', '='] .bangEqual ⟨rest, rfl⟩ (.symbol (by simp [symbols]))
  have hassoc : read ++ c :: rest ++ (gap ++ behind) = read ++ c :: (rest ++ (gap ++ behind)) := by
    simp
  rw [hassoc, hgo s _ hstuck']
  simp [Scan.fault, hq, Diagnostic.moved, Span.moved, Position.moved, Span.after, Position.past]

/-- White space parts two texts. If the one in front has tokens, the whole has them up to its end
and behind them the tokens of the other, or the fault of the other, all as they are but for their
places, which are counted from where the other text starts. If the one in front has a fault that is
no string literal without an end, the whole has this fault and at the same place. -/
theorem tokens_append_layout {a w b : String} (hw : w ≠ "") (hlayout : ∀ c ∈ w.toList, isLayout c)
    (n na nb : String) :
    let s : Source := ⟨n, a ++ w ++ b⟩
    let start := Place.start.advanceBy (a ++ w).toList
    (∀ ts, tokens ⟨na, a⟩ = .ok ts → ∃ front stop, ts = front ++ [stop] ∧ stop.lexeme = .eof ∧
      (∀ us, tokens ⟨nb, b⟩ = .ok us →
        tokens s = .ok (front.map (Token.moved s .start) ++ us.map (Token.moved s start))) ∧
      ∀ d, tokens ⟨nb, b⟩ = .error d → tokens s = .error (d.moved s start)) ∧
    ∀ d, tokens ⟨na, a⟩ = .error d → d.cause ≠ .unterminatedString →
      tokens s = .error (d.moved s .start) := by
  intro s start
  have hne : w.toList ≠ [] := by simpa using hw
  have htext : tokens s = tokensFrom 0 (.past s []) (a.toList ++ (w.toList ++ b.toList)) := by
    simp [tokens, s]
    rfl
  have hbehind : tokensFrom 0 (.past s (a.toList ++ w.toList)) b.toList =
      moved s start (tokens ⟨nb, b⟩) := by
    rw [← String.toList_append]
    exact tokensFrom_past s ⟨nb, b⟩ _
  refine ⟨fun ts hts => ?_, fun d hd hcause => ?_⟩
  · obtain ⟨front, rfl, hfront⟩ := ((tokens_eq_iff _ _).mp hts).append_layout hlayout hne ts rfl
    have hwhole := hfront s b.toList
    rw [List.nil_append, hbehind] at hwhole
    refine ⟨front, _, rfl, rfl, fun us hus => ?_, fun d hd => ?_⟩
    · rw [htext, hwhole, hus]
      rfl
    · rw [htext, hwhole, hd]
      rfl
  · rw [htext]
    exact ((tokens_eq_iff _ _).mp hd).fault_layout hlayout hne rfl hcause s b.toList

/-- A `<` at the end of one line and a `=` on the next are two tokens. -/
theorem tokens_append_layout_lines :
    ("\n\t" ≠ "" ∧ ∀ c ∈ "\n\t".toList, isLayout c) ∧
    ∃ front stop us, tokens ⟨"a", "x <"⟩ = .ok (front ++ [stop]) ∧
      tokens ⟨"b", "= \"é\n\" y"⟩ = .ok us ∧
      let s : Source := ⟨"c", "x <\n\t= \"é\n\" y"⟩
      tokens s = .ok (front.map (Token.moved s .start) ++ us.map (Token.moved s ⟨5, 1, 1⟩)) := by
  have hw : "\n\t" ≠ "" := by decide
  have hlayout : ∀ c ∈ "\n\t".toList, isLayout c := List.all_eq_true.mp (by decide)
  refine ⟨⟨hw, hlayout⟩, ?_⟩
  have hfront : (tokens ⟨"a", "x <"⟩).toOption.isSome := by decide +kernel
  have hbehind : (tokens ⟨"b", "= \"é\n\" y"⟩).toOption.isSome := by decide +kernel
  cases hts : tokens ⟨"a", "x <"⟩ with
  | error d =>
    rw [hts] at hfront
    cases hfront
  | ok ts =>
    cases hus : tokens ⟨"b", "= \"é\n\" y"⟩ with
    | error d =>
      rw [hus] at hbehind
      cases hbehind
    | ok us =>
      obtain ⟨front, stop, rfl, -, hok, -⟩ :=
        (tokens_append_layout hw hlayout "c" "a" "b").1 ts hts
      exact ⟨front, stop, us, rfl, rfl, hok us hus⟩

end Minibasic.Scan
