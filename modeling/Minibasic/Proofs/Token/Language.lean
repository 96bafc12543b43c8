import Minibasic.Token.Scan

/-!
The language of tokens: which texts spell which lexemes, without regard to how they are scanned.
-/

namespace Minibasic.Scan

/-- The operators, the parentheses and the comma. -/
def symbols : List (Lexeme × List Char) :=
  [(.plus, ['+']), (.minus, ['-']), (.star, ['*']), (.slash, ['/']), (.caret, ['^']),
    (.equal, ['=']), (.equalEqual, ['=', '=']), (.bangEqual, ['!', '=']), (.less, ['<']),
    (.lessEqual, ['<', '=']), (.greater, ['>']), (.greaterEqual, ['>', '=']),
    (.openParen, ['(']), (.closeParen, [')']), (.comma, [',']), (.arrow, ['-', '>'])]

/-- What stands between the quotes of a string literal, and the content it is read as. A backslash
is read together with the character after it. -/
inductive Content : List Char → List Char → Prop where
  | nil : Content [] []
  | plain {c : Char} {raw s : List Char} :
      c ≠ '"' → c ≠ '\\' → Content raw s → Content (c :: raw) (c :: s)
  | lineFeed {raw s : List Char} : Content raw s → Content ('\\' :: 'n' :: raw) ('\n' :: s)
  | tab {raw s : List Char} : Content raw s → Content ('\\' :: 't' :: raw) ('\t' :: s)
  | escaped {c : Char} {raw s : List Char} :
      c ≠ 'n' → c ≠ 't' → Content raw s → Content ('\\' :: c :: raw) (c :: s)

/-- The text spells the lexeme. Digits spell an integer up to the greatest, and from there on a
float; with a point among them or behind them they spell a float. -/
inductive Spells : Lexeme → List Char → Prop where
  | symbol {l : Lexeme} {w : List Char} : (l, w) ∈ symbols → Spells l w
  | int {ds : List Char} {n : Int64} : ds ≠ [] → (∀ d ∈ ds, Decimal.isDigit d) →
      n.toInt = Decimal.value ds → Spells (.int n) ds
  | large {ds : List Char} : ds ≠ [] → (∀ d ∈ ds, Decimal.isDigit d) →
      Int64.maxValue.toInt < Decimal.value ds → Spells (.float (.ofNat (Decimal.value ds))) ds
  | point {ds fs : List Char} : ds ≠ [] → (∀ d ∈ ds, Decimal.isDigit d) →
      (∀ d ∈ fs, Decimal.isDigit d) →
      Spells (.float (.ofScientific (Decimal.value (ds ++ fs)) true fs.length)) (ds ++ '.' :: fs)
  | keyword (k : Keyword) : Spells (.keyword k) k.text.toList
  | identifier {c : Char} {cs : List Char} : isLetter c → (∀ d ∈ cs, isWordChar d) →
      (∀ k : Keyword, k.text.toList ≠ c :: cs) →
      Spells (.identifier (String.ofList (c :: cs))) (c :: cs)
  | string {raw s : List Char} : Content raw s →
      Spells (.string (String.ofList s)) ('"' :: (raw ++ ['"']))

variable {l : Lexeme} {c : Char} {cs ds w raw s : List Char}

/-! ### First characters -/

/-- The texts of the symbols start with no white space, and their first characters are symbols
too, but for the exclamation mark. -/
theorem symbols_texts : ∀ w ∈ symbols.map Prod.snd, isLayout (w.headD ' ') = false ∧
    (w = ['!', '='] ∨ w.take 1 ∈ symbols.map Prod.snd) := by
  decide

theorem symbols_cons (h : (l, c :: cs) ∈ symbols) :
    isLayout c = false ∧ (c = '!' ∧ cs = ['='] ∨ ∃ l', (l', [c]) ∈ symbols) := by
  obtain ⟨hc, hw⟩ := symbols_texts (c :: cs) (List.mem_map_of_mem h)
  refine ⟨hc, hw.imp List.cons_eq_cons.mp fun hw => ?_⟩
  obtain ⟨⟨l', _⟩, hp, rfl⟩ := List.mem_map.mp hw
  exact ⟨l', hp⟩

/-- Keywords are words. -/
theorem keyword_text (k : Keyword) :
    ∃ c cs, k.text.toList = c :: cs ∧ isLetter c ∧ ∀ d ∈ cs, isWordChar d := by
  cases k <;> exact ⟨_, _, rfl, rfl, List.all_eq_true.mp rfl⟩

/-! ### Digits and words -/

/-- A whole number is an integer if it is in range. -/
theorem spells_wholeNumber (h : ds ≠ []) (hds : ∀ d ∈ ds, Decimal.isDigit d) :
    Spells (wholeNumber ds) ds := by
  unfold wholeNumber
  cases hn : int64? (Decimal.value ds) with
  | some n => exact .int h hds (int64?_eq_some_iff.mp hn)
  | none =>
    refine .large h hds ?_
    have hl : Int64.minValue.toInt = -9223372036854775808 := rfl
    have hu : Int64.maxValue.toInt = 9223372036854775807 := rfl
    unfold int64? at hn
    rw [hl, hu] at hn
    split at hn
    · cases hn
    · omega

theorem wholeNumber_eq_int {n : Int64} (h : n.toInt = Decimal.value ds) :
    wholeNumber ds = .int n := by
  rw [wholeNumber, int64?_eq_some_iff.mpr h]

theorem wholeNumber_eq_float (h : Int64.maxValue.toInt < Decimal.value ds) :
    wholeNumber ds = .float (.ofNat (Decimal.value ds)) := by
  unfold wholeNumber
  cases hn : int64? (Decimal.value ds) with
  | none => rfl
  | some n =>
    have hle : n.toInt ≤ Int64.maxValue.toInt := Int64.toInt_le n
    have heq := int64?_eq_some_iff.mp hn
    omega

theorem wordLexeme_keyword (k : Keyword) : wordLexeme k.text = .keyword k := by
  cases k <;> rfl

theorem wordLexeme_eq_identifier (h : ∀ k : Keyword, k.text.toList ≠ cs) :
    wordLexeme (String.ofList cs) = .identifier (String.ofList cs) := by
  have hnone : Keyword.ofText? (String.ofList cs) = none := by
    refine List.find?_eq_none.mpr fun k _ hk => h k ?_
    rw [eq_of_beq hk, String.toList_ofList]
  rw [wordLexeme, hnone]

/-- A word is a keyword exactly if it is the text of one. -/
theorem spells_wordLexeme (hc : isLetter c) (hcs : ∀ d ∈ cs, isWordChar d) :
    Spells (wordLexeme (String.ofList (c :: cs))) (c :: cs) := by
  by_cases h : ∃ k : Keyword, k.text.toList = c :: cs
  · obtain ⟨k, hk⟩ := h
    rw [← hk, String.ofList_toList, wordLexeme_keyword]
    exact .keyword k
  · have hne : ∀ k : Keyword, k.text.toList ≠ c :: cs := fun k hk => h ⟨k, hk⟩
    rw [wordLexeme_eq_identifier hne]
    exact .identifier hc hcs hne

theorem isWordChar_of_isLetter (h : isLetter c) : isWordChar c := by
  simp [isWordChar, h]

/-! ### String literals -/

theorem unescape_of_ne (hn : c ≠ 'n') (ht : c ≠ 't') : unescape c = c := by
  unfold unescape
  split
  · exact absurd rfl hn
  · exact absurd rfl ht
  · rfl

/-- Whatever character follows a backslash, the two are read as one. -/
theorem Content.unescape (c : Char) (h : Content raw s) :
    Content ('\\' :: c :: raw) (unescape c :: s) := by
  by_cases hn : c = 'n'
  · subst hn
    exact .lineFeed h
  · by_cases ht : c = 't'
    · subst ht
      exact .tab h
    · rw [unescape_of_ne hn ht]
      exact .escaped hn ht h

theorem stringBody_plain (hq : c ≠ '"') (hb : c ≠ '\\') (cs : List Char) :
    stringBody (c :: cs) = (stringBody cs).map fun (s, n) => (c :: s, n + 1) :=
  stringBody.eq_5 c cs hq (fun _ _ h _ => hb h) fun h _ => hb h

theorem stringBody_of_content (h : Content raw s) (rest : List Char) :
    stringBody (raw ++ '"' :: rest) = some (s, raw.length + 1) := by
  induction h with
  | nil => rfl
  | plain hq hb _ ih =>
    rw [List.cons_append, stringBody_plain hq hb, ih]
    rfl
  | lineFeed _ ih | tab _ ih =>
    rw [List.cons_append, List.cons_append, stringBody, ih]
    rfl
  | escaped hn ht _ ih =>
    rw [List.cons_append, List.cons_append, stringBody, ih, Option.map_some, unescape_of_ne hn ht]
    rfl

theorem content_of_stringBody {n : Nat} (h : stringBody cs = some (s, n)) :
    ∃ raw rest, cs = raw ++ '"' :: rest ∧ Content raw s := by
  induction cs using stringBody.induct generalizing s n with
  | case1 => cases h
  | case2 rest =>
    cases h
    exact ⟨[], rest, rfl, .nil⟩
  | case3 c cs ih =>
    rw [stringBody] at h
    obtain ⟨⟨s', n'⟩, hs, he⟩ := Option.map_eq_some_iff.mp h
    cases he
    obtain ⟨raw, rest, rfl, hraw⟩ := ih hs
    exact ⟨_, rest, rfl, hraw.unescape c⟩
  | case4 => cases h
  | case5 c cs hq hb hb' ih =>
    rw [stringBody.eq_5 c cs hq hb hb'] at h
    obtain ⟨⟨s', n'⟩, hs, he⟩ := Option.map_eq_some_iff.mp h
    cases he
    obtain ⟨raw, rest, rfl, hraw⟩ := ih hs
    refine ⟨c :: raw, rest, rfl, .plain hq (fun hc => ?_) hraw⟩
    cases hcs : raw ++ '"' :: rest with
    | nil => exact hb' hc hcs
    | cons d ds => exact hb d ds hc hcs

/-! ### What spells a lexeme -/

theorem isWordChar_of_isDigit (h : Decimal.isDigit c) : isWordChar c := by
  simp [isWordChar, h]

/-- White space is in no word. -/
theorem isLayout_of_isWordChar (h : isWordChar c) : isLayout c = false := by
  refine Bool.eq_false_iff.mpr fun hc => ?_
  simp only [isLayout, Bool.or_eq_true, decide_eq_true_eq] at hc
  rcases hc with ((rfl | rfl) | rfl) | rfl <;> cases h

theorem exists_cons_of_digits (h : ds ≠ []) (hds : ∀ d ∈ ds, Decimal.isDigit d) :
    ∃ c cs, ds = c :: cs ∧ isLayout c = false ∧ ∃ l, Spells l [c] := by
  obtain ⟨c, cs, rfl⟩ := List.exists_cons_of_ne_nil h
  have hc := hds c List.mem_cons_self
  have hone := spells_wholeNumber (List.cons_ne_nil c []) fun d hd => by
    rwa [List.mem_singleton.mp hd]
  exact ⟨c, cs, rfl, isLayout_of_isWordChar (isWordChar_of_isDigit hc), _, hone⟩

theorem exists_spells_letter (hc : isLetter c) :
    isLayout c = false ∧ ∃ l, Spells l [c] :=
  ⟨isLayout_of_isWordChar (isWordChar_of_isLetter hc), _,
    spells_wordLexeme hc fun d hd => by cases hd⟩

/-- A lexeme is spelled by one character at least, and not by white space. Its first character
spells a lexeme too, but for a quote and for the exclamation mark. -/
theorem Spells.exists_cons (h : Spells l w) :
    ∃ c cs, w = c :: cs ∧ isLayout c = false ∧
      (c = '"' ∨ c = '!' ∧ cs = ['='] ∨ ∃ l', Spells l' [c]) := by
  cases h with
  | symbol h =>
    cases w with
    | nil => exact absurd (symbols_texts [] (List.mem_map_of_mem h)).1 (by decide)
    | cons c cs =>
      obtain ⟨hc, hw⟩ := symbols_cons h
      exact ⟨c, cs, rfl, hc, .inr (hw.imp_right fun ⟨l', hl⟩ => ⟨l', .symbol hl⟩)⟩
  | int hne hds _ | large hne hds _ =>
    obtain ⟨c, cs, rfl, hc, hone⟩ := exists_cons_of_digits hne hds
    exact ⟨c, cs, rfl, hc, .inr (.inr hone)⟩
  | point hne hds _ =>
    obtain ⟨c, cs, rfl, hc, hone⟩ := exists_cons_of_digits hne hds
    exact ⟨c, _, rfl, hc, .inr (.inr hone)⟩
  | keyword k =>
    obtain ⟨c, cs, hk, hc, _⟩ := keyword_text k
    obtain ⟨hlayout, hone⟩ := exists_spells_letter hc
    exact ⟨c, cs, hk, hlayout, .inr (.inr hone)⟩
  | @identifier c cs hc _ _ =>
    obtain ⟨hlayout, hone⟩ := exists_spells_letter hc
    exact ⟨c, cs, rfl, hlayout, .inr (.inr hone)⟩
  | string _ => exact ⟨'"', _, rfl, rfl, .inl rfl⟩

/-- The end of the text is spelled by nothing in it. -/
theorem Spells.ne_eof (h : Spells l w) : l ≠ .eof := by
  rintro rfl
  cases h with
  | symbol h => simp [symbols] at h

end Minibasic.Scan
