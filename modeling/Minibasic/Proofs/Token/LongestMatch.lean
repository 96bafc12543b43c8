import Minibasic.Proofs.Source.Places
import Minibasic.Proofs.Token.Language

/-!
The scanner takes the longest match. At each place it comes to after white space, it finds the
longest beginning of the rest that spells a lexeme, or stops there if none does.
-/

namespace Minibasic.Scan

variable {l l' : Lexeme} {c : Char} {cs ds fs w rest : List Char}

/-- No lexeme is spelled by `w` and the character that comes next. -/
def Closed (w rest : List Char) : Prop := ∀ d ∈ rest.head?, ∀ l, ¬Spells l (w ++ [d])

theorem takeWhile_of_head {p : Char → Bool} (hds : ∀ d ∈ ds, p d)
    (hrest : ∀ d ∈ rest.head?, p d = false) : (ds ++ rest).takeWhile p = ds := by
  rw [List.takeWhile_append_of_pos hds]
  cases rest with
  | nil => simp
  | cons d rest => simp [hrest d rfl]

/-! ### The front of a text -/

theorem number_whole (hds : ∀ d ∈ ds, Decimal.isDigit d)
    (hrest : ∀ d ∈ rest.head?, Decimal.isDigit d = false ∧ d ≠ '.') :
    number c (ds ++ rest) = (wholeNumber (c :: ds), ds.length) := by
  have htake := takeWhile_of_head hds fun d hd => (hrest d hd).1
  simp only [number, htake, List.drop_left]
  split
  next => exact absurd rfl (hrest '.' rfl).2
  next => rfl

theorem number_point (hds : ∀ d ∈ ds, Decimal.isDigit d) (hfs : ∀ d ∈ fs, Decimal.isDigit d)
    (hrest : ∀ d ∈ rest.head?, Decimal.isDigit d = false) :
    number c (ds ++ '.' :: (fs ++ rest)) =
      (pointNumber (c :: ds ++ fs) fs.length, ds.length + 1 + fs.length) := by
  have htake : (ds ++ '.' :: (fs ++ rest)).takeWhile Decimal.isDigit = ds :=
    takeWhile_of_head hds fun d hd => by
      cases hd
      rfl
  simp only [number, htake, List.drop_left, takeWhile_of_head hfs hrest]

theorem front_of_isDigit (hc : Decimal.isDigit c) (cs : List Char) :
    front c cs = (.lexeme (number c cs).1, (number c cs).2) := by
  have hlayout := isLayout_of_isWordChar (isWordChar_of_isDigit hc)
  unfold front
  split
  case h_14 => simp [hlayout, hc]
  all_goals cases hc

/-- No letter is a digit. -/
theorem isDigit_of_isLetter (hc : isLetter c) : Decimal.isDigit c = false := by
  simp only [isLetter, Bool.or_eq_true, Bool.and_eq_true, decide_eq_true_eq, Char.le_def,
    UInt32.le_iff_toNat_le, Char.reduceVal, UInt32.reduceToNat] at hc
  simp only [Decimal.isDigit, Bool.and_eq_false_iff, decide_eq_false_iff_not, Char.le_def,
    UInt32.le_iff_toNat_le, Char.reduceVal, UInt32.reduceToNat]
  omega

theorem front_of_isLetter (hc : isLetter c) (cs : List Char) :
    front c cs = (.lexeme (word c cs).1, (word c cs).2) := by
  have hlayout := isLayout_of_isWordChar (isWordChar_of_isLetter hc)
  have hdigit := isDigit_of_isLetter hc
  unfold front
  split
  case h_14 => simp [hlayout, hdigit, hc]
  all_goals cases hc

theorem front_of_isLayout (hc : isLayout c) (cs : List Char) : front c cs = (.layout, 0) := by
  unfold front
  split
  case h_14 => simp [hc]
  all_goals cases hc

/-- If the longer of two symbols is not there, the shorter one is. -/
theorem oneOrTwo_short {next : Char} {long short : Front} (h : rest.head? ≠ some next) :
    oneOrTwo next long short rest = (short, 0) :=
  if_neg h

/-- A symbol is found if the next character makes no other symbol of it. -/
theorem front_symbol (h : (l, c :: cs) ∈ symbols)
    (hrest : ∀ d ∈ rest.head?, ∀ l', (l', c :: cs ++ [d]) ∉ symbols) :
    front c (cs ++ rest) = (.lexeme l, cs.length) := by
  have short (next : Char) (l' : Lexeme) (h' : (l', c :: cs ++ [next]) ∈ symbols) :
      rest.head? ≠ some next := fun hr => hrest next hr l' h'
  simp only [symbols, List.mem_cons, Prod.mk.injEq, List.cons.injEq, List.not_mem_nil,
    or_false] at h
  rcases h with ⟨rfl, rfl, rfl⟩ | ⟨rfl, rfl, rfl⟩ | ⟨rfl, rfl, rfl⟩ | ⟨rfl, rfl, rfl⟩ |
    ⟨rfl, rfl, rfl⟩ | ⟨rfl, rfl, rfl⟩ | ⟨rfl, rfl, rfl⟩ | ⟨rfl, rfl, rfl⟩ | ⟨rfl, rfl, rfl⟩ |
    ⟨rfl, rfl, rfl⟩ | ⟨rfl, rfl, rfl⟩ | ⟨rfl, rfl, rfl⟩ | ⟨rfl, rfl, rfl⟩ | ⟨rfl, rfl, rfl⟩ |
    ⟨rfl, rfl, rfl⟩ | ⟨rfl, rfl, rfl⟩
  any_goals rfl
  -- Only four symbols go on to another one.
  · exact oneOrTwo_short (short '>' .arrow (by simp [symbols]))
  · exact oneOrTwo_short (short '=' .equalEqual (by simp [symbols]))
  · exact oneOrTwo_short (short '=' .lessEqual (by simp [symbols]))
  · exact oneOrTwo_short (short '=' .greaterEqual (by simp [symbols]))

theorem front_digits (hds : ∀ d ∈ c :: ds, Decimal.isDigit d) (hrest : Closed (c :: ds) rest) :
    front c (ds ++ rest) = (.lexeme (wholeNumber (c :: ds)), ds.length) := by
  obtain ⟨hc, hds'⟩ := List.forall_mem_cons.mp hds
  rw [front_of_isDigit hc, number_whole hds' fun d hd => ⟨?_, ?_⟩]
  · refine Bool.eq_false_iff.mpr fun hdigit => ?_
    refine hrest d hd _ (spells_wholeNumber (List.cons_ne_nil c _) ?_)
    exact List.forall_mem_append.mpr ⟨hds, List.forall_mem_singleton.mpr hdigit⟩
  · rintro rfl
    exact hrest '.' hd _ (.point (List.cons_ne_nil c ds) hds (List.forall_mem_nil _))

theorem front_point (hds : ∀ d ∈ c :: ds, Decimal.isDigit d) (hfs : ∀ d ∈ fs, Decimal.isDigit d)
    (hrest : Closed (c :: ds ++ '.' :: fs) rest) :
    front c (ds ++ '.' :: (fs ++ rest)) =
      (.lexeme (pointNumber (c :: ds ++ fs) fs.length), ds.length + 1 + fs.length) := by
  obtain ⟨hc, hds'⟩ := List.forall_mem_cons.mp hds
  rw [front_of_isDigit hc, number_point hds' hfs fun d hd => ?_]
  refine Bool.eq_false_iff.mpr fun hdigit => ?_
  have hfs' : ∀ e ∈ fs ++ [d], Decimal.isDigit e :=
    List.forall_mem_append.mpr ⟨hfs, List.forall_mem_singleton.mpr hdigit⟩
  have hspells := Spells.point (List.cons_ne_nil c ds) hds hfs'
  exact hrest d hd _ (by simpa using hspells)

theorem front_word (hc : isLetter c) (hcs : ∀ d ∈ cs, isWordChar d)
    (hrest : Closed (c :: cs) rest) :
    front c (cs ++ rest) = (.lexeme (wordLexeme (String.ofList (c :: cs))), cs.length) := by
  have hnext : ∀ d ∈ rest.head?, isWordChar d = false := by
    intro d hd
    refine Bool.eq_false_iff.mpr fun hword => hrest d hd _ (spells_wordLexeme hc ?_)
    exact List.forall_mem_append.mpr ⟨hcs, List.forall_mem_singleton.mpr hword⟩
  have htake := takeWhile_of_head hcs hnext
  rw [front_of_isLetter hc]
  simp only [word, htake]

/-- What spells a lexeme is found as that lexeme, unless the next character makes a longer one
of it. -/
theorem front_of_spells (h : Spells l (c :: cs)) (hrest : Closed (c :: cs) rest) :
    front c (cs ++ rest) = (.lexeme l, cs.length) := by
  generalize hw : c :: cs = w at h hrest
  cases h with
  | symbol h =>
    subst hw
    exact front_symbol h fun d hd l' hl => hrest d hd l' (.symbol hl)
  | int _ hds hn =>
    subst hw
    rw [front_digits hds hrest, wholeNumber_eq_int hn]
  | large _ hds hlt =>
    subst hw
    rw [front_digits hds hrest, wholeNumber_eq_float hlt]
  | @point ds fs hne hds hfs =>
    obtain ⟨c', ds, rfl⟩ := List.exists_cons_of_ne_nil hne
    cases hw
    have hfront := front_point hds hfs hrest
    simpa [pointNumber, Nat.add_comm, Nat.add_left_comm, Nat.add_assoc] using hfront
  | keyword k =>
    obtain ⟨c', cs', hk, hc, hcs⟩ := keyword_text k
    cases hw.trans hk
    rw [hk] at hrest
    rw [front_word hc hcs hrest, ← hk, String.ofList_toList, wordLexeme_keyword]
  | identifier hc hcs hk =>
    cases hw
    rw [front_word hc hcs hrest, wordLexeme_eq_identifier hk]
  | @string raw s h =>
    cases hw
    have hbody := stringBody_of_content h rest
    simp [front, hbody]

/-- A text spells one lexeme at most. -/
theorem Spells.unique (h : Spells l w) (h' : Spells l' w) : l = l' := by
  obtain ⟨c, cs, rfl, -, -⟩ := h.exists_cons
  have hclosed : Closed (c :: cs) [] := fun d hd => by cases hd
  have hfront := front_of_spells h hclosed
  rw [front_of_spells h' hclosed] at hfront
  cases hfront
  rfl

/-! ### Longest matches -/

/-- `w` is the longest beginning of the text `w ++ rest` that spells a lexeme, and it spells `l`. -/
structure Longest (w rest : List Char) (l : Lexeme) : Prop where
  spells : Spells l w
  longest : ∀ w' l', w' <+: w ++ rest → Spells l' w' → w'.length ≤ w.length

theorem Longest.closed (h : Longest w rest l) : Closed w rest := by
  intro d hd l' hl
  obtain ⟨rest', rfl⟩ := List.head?_eq_some_iff.mp hd
  have hle := h.longest (w ++ [d]) l' ⟨rest', by simp⟩ hl
  rw [List.length_append] at hle
  exact absurd hle (Nat.not_succ_le_self _)

/-- If any beginning of a text spells a lexeme, one is the longest. -/
theorem exists_longest (w rest : List Char) (h : Spells l w) :
    ∃ w' rest' l', w ++ rest = w' ++ rest' ∧ Longest w' rest' l' := by
  induction hn : rest.length using Nat.strongRecOn generalizing w rest l with
  | ind n ih =>
    by_cases hlong : ∃ w' l', w' <+: w ++ rest ∧ Spells l' w' ∧ w.length < w'.length
    · obtain ⟨w', l', ⟨rest', heq⟩, hl, hlt⟩ := hlong
      have hlen := congrArg List.length heq
      rw [List.length_append, List.length_append] at hlen
      rw [← heq]
      exact ih rest'.length (by omega) w' rest' hl rfl
    · refine ⟨w, rest, l, rfl, h, fun w' l' hw hl => ?_⟩
      exact Nat.le_of_not_lt fun hlt => hlong ⟨w', l', hw, hl, hlt⟩

/-- At `c :: rest` stands neither white space nor a lexeme. -/
structure Stuck (c : Char) (rest : List Char) : Prop where
  not_layout : isLayout c = false
  not_spells : ∀ w l, w <+: c :: rest → ¬Spells l w

def faultCause : Char → Cause
  | '"' => .unterminatedString
  | '!' => .expectedCharacter "'=' (after '!')"
  | c => .illegalCharacter c

theorem faultCause_of_ne (hq : c ≠ '"') (hb : c ≠ '!') : faultCause c = .illegalCharacter c := by
  unfold faultCause
  split
  · exact absurd rfl hq
  · exact absurd rfl hb
  · rfl

/-- What the scan ends with if it is stuck. A string literal that is not closed is to blame up to
the end of the text, and otherwise one character is. -/
def fault (s : Source) (before : List Char) (c : Char) (rest : List Char) : Diagnostic where
  cause := faultCause c
  span := .after s before (if c = '"' then c :: rest else [c])

namespace Stuck

theorem not_spells_head (h : Stuck c rest) (l : Lexeme) : ¬Spells l [c] :=
  h.not_spells [c] l ⟨rest, rfl⟩

theorem not_symbol (h : Stuck c rest) : [c] ∉ symbols.map Prod.snd := by
  intro hc
  obtain ⟨⟨l, _⟩, hl, rfl⟩ := List.mem_map.mp hc
  exact h.not_spells_head l (.symbol hl)

/-- A scan that is stuck stays so whatever comes after the character, unless this is a quote or an
exclamation mark before an equality sign. -/
theorem of_head {rest' : List Char} (h : Stuck c rest) (hc : c ≠ '"')
    (hnext : c = '!' → rest'.head? ≠ some '=') : Stuck c rest' where
  not_layout := h.not_layout
  not_spells w l hw hl := by
    obtain ⟨c', cs, rfl, -, hcs⟩ := hl.exists_cons
    obtain ⟨hcc, htail⟩ := List.cons_prefix_cons.mp hw
    subst hcc
    rcases hcs with hq | ⟨hb, rfl⟩ | ⟨l', hl'⟩
    · exact hc hq
    · obtain ⟨rest'', rfl⟩ := htail
      exact hnext hb rfl
    · exact h.not_spells_head l' hl'

theorem isDigit_eq_false (h : Stuck c rest) : Decimal.isDigit c = false := by
  refine Bool.eq_false_iff.mpr fun hc => ?_
  exact h.not_spells_head _ (spells_wholeNumber (List.cons_ne_nil c [])
    (List.forall_mem_singleton.mpr hc))

theorem isLetter_eq_false (h : Stuck c rest) : isLetter c = false := by
  refine Bool.eq_false_iff.mpr fun hc => ?_
  obtain ⟨-, l, hl⟩ := exists_spells_letter hc
  exact h.not_spells_head l hl

/-- The front of the text is at fault. -/
theorem front_eq (h : Stuck c rest) :
    front c rest = (.fault (faultCause c), if c = '"' then rest.length else 0) := by
  unfold front
  split
  case h_9 =>
    refine oneOrTwo_short fun hr => ?_
    obtain ⟨rest', rfl⟩ := List.head?_eq_some_iff.mp hr
    exact h.not_spells ['!', '='] .bangEqual ⟨rest', rfl⟩ (.symbol (by simp [symbols]))
  case h_13 =>
    cases hbody : stringBody rest with
    | none => rfl
    | some p =>
      obtain ⟨content, n⟩ := p
      obtain ⟨raw, rest', rfl, hraw⟩ := content_of_stringBody hbody
      exact absurd (.string hraw) (h.not_spells _ _ ⟨rest', by simp⟩)
  case h_14 hb _ _ _ hq =>
    rw [faultCause_of_ne hq hb, if_neg hq]
    simp [h.not_layout, h.isDigit_eq_false, h.isLetter_eq_false]
  all_goals exact absurd (by decide) h.not_symbol

end Stuck

/-! ### The scan -/

/-- The end of a source that has the text `cs`. It takes up one byte and one column more. -/
def endToken (s : Source) (cs : List Char) : Token :=
  let p := Position.past s cs
  ⟨.eof, ⟨p, ⟨⟨p.offset + 1, p.line, p.column + 1⟩, s⟩⟩⟩

/-- What the longest matches make of a text that comes after `before` in a source: white space is
passed over, and what then stands at the front is the longest match, the end of the text or a
fault. -/
inductive Lexes (s : Source) : List Char → List Char → Except Diagnostic (List Token) → Prop where
  | stop {before gap : List Char} : (∀ c ∈ gap, isLayout c) →
      Lexes s before gap (.ok [endToken s (before ++ gap)])
  | token {before gap w rest : List Char} {l : Lexeme} {r : Except Diagnostic (List Token)} :
      (∀ c ∈ gap, isLayout c) → Longest w rest l → Lexes s (before ++ gap ++ w) rest r →
      Lexes s before (gap ++ (w ++ rest)) (r.map (⟨l, .after s (before ++ gap) w⟩ :: ·))
  | fault {before gap rest : List Char} {c : Char} : (∀ c ∈ gap, isLayout c) → Stuck c rest →
      Lexes s before (gap ++ c :: rest) (.error (fault s (before ++ gap) c rest))

variable {s s' : Source} {before gap text : List Char} {r : Except Diagnostic (List Token)}

theorem tokensFrom_layout (hgap : ∀ c ∈ gap, isLayout c) (text : List Char) :
    tokensFrom 0 (.past s before) (gap ++ text) = tokensFrom 0 (.past s (before ++ gap)) text := by
  induction gap generalizing before with
  | nil => rw [List.nil_append, List.append_nil]
  | cons c gap ih =>
    obtain ⟨hc, hgap⟩ := List.forall_mem_cons.mp hgap
    rw [List.cons_append, tokensFrom, front_of_isLayout hc]
    dsimp only
    rw [Position.advance_past, ih hgap, List.append_assoc]
    rfl

theorem tokensFrom_spells (h : Spells l w) (hrest : Closed w rest) :
    tokensFrom 0 (.past s before) (w ++ rest) =
      (tokensFrom 0 (.past s (before ++ w)) rest).map (⟨l, .after s before w⟩ :: ·) := by
  obtain ⟨c, cs, rfl, -, -⟩ := h.exists_cons
  rw [List.cons_append, tokensFrom, front_of_spells h hrest]
  dsimp only
  rw [tokensFrom_skip, List.take_left, List.drop_left, Position.advanceBy_past,
    Position.advance_past, Position.advanceBy_past, List.append_assoc]
  rfl

theorem tokensFrom_stuck (h : Stuck c rest) :
    tokensFrom 0 (.past s before) (c :: rest) = .error (fault s before c rest) := by
  have hread : c :: rest.take (if c = '"' then rest.length else 0) =
      if c = '"' then c :: rest else [c] := by
    split
    · rw [List.take_length]
    · rw [List.take_zero]
  rw [tokensFrom, h.front_eq]
  dsimp only
  rw [hread, Position.advanceBy_past]
  rfl

/-- Every text has longest matches up to its end or to a fault. -/
theorem exists_lexes (s : Source) (before text : List Char) : ∃ r, Lexes s before text r := by
  induction hn : text.length using Nat.strongRecOn generalizing before text with
  | ind n ih =>
    have hgap : ∀ c ∈ text.takeWhile isLayout, isLayout c := List.all_eq_true.mp List.all_takeWhile
    have hsplit := List.takeWhile_append_dropWhile (p := isLayout) (l := text)
    cases hrest : text.dropWhile isLayout with
    | nil =>
      rw [hrest, List.append_nil] at hsplit
      rw [hsplit] at hgap
      exact ⟨_, .stop hgap⟩
    | cons c rest =>
      have hc := List.head?_dropWhile_not isLayout text
      rw [hrest] at hsplit hc
      by_cases hs : ∃ w l, w <+: c :: rest ∧ Spells l w
      · obtain ⟨w, l, ⟨rest', heq⟩, hl⟩ := hs
        obtain ⟨w, rest', l, heq', hlong⟩ := exists_longest w rest' hl
        obtain ⟨d, ds, rfl, -, -⟩ := hlong.spells.exists_cons
        rw [← hsplit, ← heq, heq'] at hn ⊢
        have hlen : rest'.length < n := by
          simp at hn
          omega
        obtain ⟨r, hr⟩ := ih _ hlen _ rest' rfl
        exact ⟨_, .token hgap hlong hr⟩
      · rw [← hsplit]
        exact ⟨_, .fault hgap ⟨hc, fun w l hw hl => hs ⟨w, l, hw, hl⟩⟩⟩

/-- The scan finds them. -/
theorem Lexes.tokensFrom_eq (h : Lexes s before text r) :
    tokensFrom 0 (.past s before) text = r := by
  induction h with
  | @stop before gap hgap =>
    rw [← List.append_nil gap, tokensFrom_layout hgap, List.append_nil]
    rfl
  | token hgap hlong _ ih =>
    rw [tokensFrom_layout hgap, tokensFrom_spells hlong.spells hlong.closed, ih]
  | fault hgap hstuck => rw [tokensFrom_layout hgap, tokensFrom_stuck hstuck]

theorem tokens_eq_iff (s : Source) (r : Except Diagnostic (List Token)) :
    tokens s = r ↔ Lexes s [] s.text.toList r := by
  constructor
  · rintro rfl
    obtain ⟨r, hr⟩ := exists_lexes s [] s.text.toList
    have heq : tokens s = r := hr.tokensFrom_eq
    rwa [heq]
  · intro h
    exact h.tokensFrom_eq

/-- Where the scan is stuck, it is so in every text that is the same up to there. -/
theorem Lexes.exists_stuck (h : Lexes s before text r) : ∀ d, r = .error d →
    ∃ read c rest, text = read ++ c :: rest ∧ Stuck c rest ∧
      d = Scan.fault s (before ++ read) c rest ∧ ∀ s' rest', Stuck c rest' →
        tokensFrom 0 (.past s' before) (read ++ c :: rest') =
          .error (Scan.fault s' (before ++ read) c rest') := by
  induction h with
  | stop => exact fun d hd => by cases hd
  | @token before gap w rest l r hgap hlong _ ih =>
    intro d hd
    have hr : r = .error d := by
      cases r with
      | error d' =>
        cases hd
        rfl
      | ok ts => cases hd
    obtain ⟨read, c, rest, rfl, hstuck, rfl, htail⟩ := ih d hr
    refine ⟨gap ++ (w ++ read), c, rest, by simp, hstuck, by simp, fun s' rest' hstuck' => ?_⟩
    -- The character behind `w` is still the same.
    have hclosed : Closed w (read ++ c :: rest') := by
      have h := hlong.closed
      cases read <;> exact h
    have hgo := htail s' rest' hstuck'
    have hassoc : gap ++ (w ++ read) ++ c :: rest' = gap ++ (w ++ (read ++ c :: rest')) := by simp
    rw [hassoc, tokensFrom_layout hgap, tokensFrom_spells hlong.spells hclosed, hgo]
    simp [Except.map]
  | @fault before gap rest c hgap hstuck =>
    intro d hd
    cases hd
    refine ⟨gap, c, rest, rfl, hstuck, rfl, fun s' rest' hstuck' => ?_⟩
    rw [tokensFrom_layout hgap, tokensFrom_stuck hstuck']

/-- The scan takes the longest match at each place it comes to, and it fails at the first place that
has none. For a character that starts no lexeme it does not matter what comes after it, and for an
exclamation mark only that it is no equality sign. -/
theorem tokens_longest_match (s : Source) :
    (∀ r, tokens s = r ↔ Lexes s [] s.text.toList r) ∧
    (∀ d, tokens s = .error d → ∃ before c rest, s.text.toList = before ++ c :: rest ∧
      Stuck c rest ∧ d = fault s before c rest) ∧
    ∀ before c rest, s.text.toList = before ++ c :: rest →
      tokens s = .error (fault s before c rest) → c ≠ '"' →
      ∀ s' rest', s'.text.toList = before ++ c :: rest' → (c = '!' → rest'.head? ≠ some '=') →
        tokens s' = .error (fault s' before c rest') := by
  refine ⟨tokens_eq_iff s, fun d hd => ?_, ?_⟩
  · have h := (tokens_eq_iff s _).mp hd
    obtain ⟨before, c, rest, htext, hstuck, rfl, -⟩ := h.exists_stuck d rfl
    exact ⟨before, c, rest, htext, hstuck, rfl⟩
  · intro before c rest htext herror hq s' rest' htext' hnext
    have h := (tokens_eq_iff s _).mp herror
    obtain ⟨read, c', tail, htext'', hstuck, hfault, hgo⟩ := h.exists_stuck _ rfl
    have hbytes : Text.bytes before = Text.bytes read :=
      congrArg (fun d => d.span.start.offset) hfault
    obtain ⟨rfl, hrest⟩ := Text.append_inj_of_bytes (htext.symm.trans htext'') hbytes
    cases hrest
    have hgo' := hgo s' rest' (hstuck.of_head hq hnext)
    rwa [← htext'] at hgo'

/-- `7 ! 8` fails at the exclamation mark, and so does `7 !` with a string literal that is not
closed behind it. -/
theorem tokens_longest_match_exclamation :
    tokens ⟨"a", "7 ! 8"⟩ = .error (fault ⟨"a", "7 ! 8"⟩ ['7', ' '] '!' [' ', '8']) ∧
      tokens ⟨"b", "7 !\"8"⟩ = .error (fault ⟨"b", "7 !\"8"⟩ ['7', ' '] '!' ['"', '8']) := by
  have herror : tokens ⟨"a", "7 ! 8"⟩ =
      .error (fault ⟨"a", "7 ! 8"⟩ ['7', ' '] '!' [' ', '8']) := rfl
  have hlocal := (tokens_longest_match ⟨"a", "7 ! 8"⟩).2.2 _ _ _ rfl herror (by decide)
  exact ⟨herror, hlocal ⟨"b", "7 !\"8"⟩ ['"', '8'] rfl (by decide)⟩

end Minibasic.Scan
