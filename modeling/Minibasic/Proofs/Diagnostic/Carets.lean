import Minibasic.Proofs.Diagnostic.Lines
import Minibasic.Proofs.Token.Tiling

/-!
What the carets of an excerpt mark. They are placed by lines and columns, a span covers bytes; under
the characters of a line the two agree.
-/

namespace Minibasic

open Place

/-! ### Rows of carets -/

theorem caretRow_getElem? {start stop k : Nat} :
    (caretRow start stop)[k]? = some '^' ↔ start ≤ k ∧ k < max stop (start + 1) := by
  rw [caretRow]
  by_cases hk : k < start
  · rw [List.getElem?_append_left (by simpa using hk), List.getElem?_replicate, if_pos hk]
    exact iff_of_false (by decide) (by omega)
  · rw [List.getElem?_append_right (by simpa using hk), List.getElem?_replicate,
      List.length_replicate]
    split
    · exact iff_of_true rfl (by omega)
    · exact iff_of_false (by simp) (by omega)

theorem caretRow_of_le {start stop : Nat} (h : stop ≤ start + 1) :
    caretRow start stop = List.replicate start ' ' ++ ['^'] := by
  rw [caretRow, Nat.max_eq_right (by omega)]
  rfl

theorem eq_of_mem_caretRow {start stop : Nat} {c : Char} (h : c ∈ caretRow start stop) :
    c = ' ' ∨ c = '^' :=
  (List.mem_append.mp h).imp List.eq_of_mem_replicate List.eq_of_mem_replicate

theorem showTabs_getElem? {row : List Char} {k : Nat} {c : Char} :
    (showTabs row)[k]? = some c ↔
      ∃ d, row[k]? = some d ∧ c = if d = '\t' then ' ' else d := by
  rw [showTabs, List.getElem?_map, Option.map_eq_some_iff]
  exact exists_congr fun d => and_congr_right fun _ => eq_comm

/-! ### Characters and spans -/

/-- The character `c` stands at the place `p` of a text. -/
def Text.Has (text : List Char) (p : Place) (c : Char) : Prop :=
  ∃ before after, text = before ++ c :: after ∧ p = Place.start.advanceBy before

/-- The character `c` stands at the place `p` of a text and is no part of a line's end: neither a
line feed nor a carriage return with nothing but carriage returns up to it. -/
def Text.Shows (text : List Char) (p : Place) (c : Char) : Prop :=
  ∃ before after, text = before ++ c :: after ∧ p = Place.start.advanceBy before ∧
    ¬EndsLine (c :: after)

/-- The byte offset `p` lies in the span. -/
def Span.Covers (t : Span) (p : Place) : Prop :=
  t.start.offset ≤ p.offset ∧ p.offset < t.stop.offset

/-- A row of characters and a row of carets show line `n` of the text and the part of it that the
span covers. -/
structure Span.Marks (t : Span) (text : List Char) (n : Nat) (row carets : List Char) : Prop where
  /-- Column `k` of the row is the character in column `k` of the line, a tab shown as a blank. -/
  shown : ∀ k c, row[k]? = some c ↔
    ∃ p d, Text.Shows text p d ∧ p.line = n ∧ p.column = k ∧ c = if d = '\t' then ' ' else d
  blankOrCaret : ∀ c ∈ carets, c = ' ' ∨ c = '^'
  /-- If anything of the line is covered, its line end included, a caret stands under a character
  if and only if that one is covered. -/
  marked : (∃ p c, Text.Has text p c ∧ p.line = n ∧ t.Covers p) →
    ∀ p c, Text.Shows text p c → p.line = n → (carets[p.column]? = some '^' ↔ t.Covers p)
  /-- Otherwise the line has one caret. -/
  single : (∀ p c, Text.Has text p c → p.line = n → ¬t.Covers p) → carets.count '^' = 1

/-- What is printed of a span is a row of characters and a row of carets for each line from its
start to its stop, which show the line and mark the span. -/
def Span.Underlined (t : Span) (text : List Char) : Prop :=
  t.start.line ≤ t.stop.line ∧ ∃ rows : Nat → List Char × List Char,
    (∀ d : Diagnostic, d.span = t → d.render =
      String.join ((d.heading ++ [""] ++
        (List.range' t.start.line (t.stop.line + 1 - t.start.line)).flatMap
          fun n => [String.ofList (rows n).1, String.ofList (rows n).2]).map (· ++ "\n"))) ∧
    ∀ n, t.start.line ≤ n → n ≤ t.stop.line →
      '\n' ∉ (rows n).1 ∧ '\n' ∉ (rows n).2 ∧ t.Marks text n (rows n).1 (rows n).2

/-! ### The rows of an excerpt -/

theorem advanceBy_start (cs : List Char) : Place.start.advanceBy cs = counted cs :=
  advanceBy_counted [] cs

theorem lineFeed_not_mem_lineAt (text : List Char) (n : Nat) : '\n' ∉ lineAt text n := by
  intro h
  obtain ⟨k, hk⟩ := List.getElem?_of_mem h
  obtain ⟨before, after, -, -, -, hends⟩ := lineAt_getElem?.mp hk
  exact hends (.lineFeed after)

theorem showTabs_lineAt_getElem? {text : List Char} {n k : Nat} {c : Char} :
    (showTabs (lineAt text n))[k]? = some c ↔
      ∃ p d, Text.Shows text p d ∧ p.line = n ∧ p.column = k ∧
        c = if d = '\t' then ' ' else d := by
  rw [showTabs_getElem?]
  constructor
  · rintro ⟨d, hd, hc⟩
    obtain ⟨before, after, htext, hline, hcolumn, hends⟩ := lineAt_getElem?.mp hd
    exact ⟨counted before, d, ⟨before, after, htext, (advanceBy_start before).symm, hends⟩,
      hline, hcolumn, hc⟩
  · rintro ⟨p, d, ⟨before, after, htext, rfl, hends⟩, hline, hcolumn, hc⟩
    rw [advanceBy_start] at hline hcolumn
    exact ⟨d, lineAt_getElem?.mpr ⟨before, after, htext, hline, hcolumn, hends⟩, hc⟩

namespace Span

variable {s : Source} {t : Span} {a b : List Char} {n : Nat}

/-- The first column marked on line `n`. -/
def caretStart (t : Span) (n : Nat) : Nat :=
  if n = t.start.line then t.start.column else 0

/-- The column up to which line `n` is marked. -/
def caretStop (t : Span) (n : Nat) : Nat :=
  if n = t.lastLine then t.stop.column else (lineAt t.start.source.text.toList n).length

/-- A span is underlined if its caret rows mark it. -/
theorem underlined_of_marks (hsource : t.start.source = s) (hle : t.start.line ≤ t.stop.line)
    (hmarks : ∀ n, t.start.line ≤ n → n ≤ t.stop.line →
      t.Marks s.text.toList n (showTabs (lineAt s.text.toList n))
        (caretRow (t.caretStart n) (t.caretStop n))) :
    t.Underlined s.text.toList := by
  subst hsource
  have hlast : t.lastLine = t.stop.line := Nat.max_eq_left hle
  refine ⟨hle, fun n => (showTabs (lineAt t.start.source.text.toList n),
    caretRow (t.caretStart n) (t.caretStop n)), ?_, fun n hn hn' => ⟨?_, ?_, hmarks n hn hn'⟩⟩
  · rintro d rfl
    rw [Diagnostic.render, Span.excerpt, hlast, List.map_flatMap]
    rfl
  · intro h
    obtain ⟨c, hc, htab⟩ := List.mem_map.mp h
    split at htab
    · exact absurd htab (by decide)
    · exact lineFeed_not_mem_lineAt _ _ (htab ▸ hc)
  · intro h
    exact absurd (eq_of_mem_caretRow h) (by decide)

/-! ### Spans between two beginnings of the source -/

theorem covers_past {p : Place} : (⟨.past s a, .past s b⟩ : Span).Covers p ↔
    (counted a).offset ≤ p.offset ∧ ¬(counted b).offset ≤ p.offset :=
  and_congr_right fun _ => Nat.not_le.symm

theorem caretStart_past : caretStart ⟨.past s a, .past s b⟩ n =
    if n = (counted a).line then (counted a).column else 0 := rfl

theorem caretStop_past (hline : (counted a).line ≤ (counted b).line) :
    caretStop ⟨.past s a, .past s b⟩ n =
      if n = (counted b).line then (counted b).column else (lineAt s.text.toList n).length := by
  have hlast : lastLine ⟨.past s a, .past s b⟩ = (counted b).line := Nat.max_eq_left hline
  rw [caretStop, hlast]
  rfl

/-- On the lines of a span, its bytes are the columns from its start up to its stop. -/
theorem covers_counted_iff (ha : a <+: s.text.toList) (hb : b <+: s.text.toList)
    {x : List Char} (hx : x <+: s.text.toList) (hstart : (counted a).line ≤ (counted x).line)
    (hstop : (counted x).line ≤ (counted b).line) :
    (⟨.past s a, .past s b⟩ : Span).Covers (counted x) ↔
      caretStart ⟨.past s a, .past s b⟩ (counted x).line ≤ (counted x).column ∧
        ((counted x).line = (counted b).line → (counted x).column < (counted b).column) := by
  rw [covers_past, counted_le_iff ha hx, counted_le_iff hb hx, caretStart_past]
  split <;> omega

/-- If nothing of a line is covered, there is nothing to mark on it. -/
theorem caretStop_le_caretStart (hb : b <+: s.text.toList) (hab : a <+: b)
    (hstart : (counted a).line ≤ n) (hstop : n ≤ (counted b).line)
    (hnone : ∀ p c, Text.Has s.text.toList p c → p.line = n →
      ¬(⟨.past s a, .past s b⟩ : Span).Covers p) :
    caretStop ⟨.past s a, .past s b⟩ n ≤ caretStart ⟨.past s a, .past s b⟩ n := by
  obtain ⟨rest, hrest⟩ := hb
  rw [caretStop_past (hstart.trans hstop), caretStart_past]
  -- a character of the line between the ends of the span would be covered
  have hcovered {x : List Char} {c : Char} (hax : a <+: x) (hxb : x ++ [c] <+: b)
      (hline : (counted x).line = n) : False := by
    obtain ⟨w, rfl⟩ := hax
    obtain ⟨w', rfl⟩ := hxb
    refine hnone _ c ⟨a ++ w, w' ++ rest, by rw [← hrest]; simp, (advanceBy_start _).symm⟩ hline ?_
    have hc := c.utf8Size_pos
    rw [covers_past]
    simp only [counted, Text.bytes_append, Text.bytes_cons]
    omega
  by_cases hn : n = (counted b).line
  · rw [if_pos hn]
    -- the last line: the character in front of the stop
    induction b using List.reverseRecOn with
    | nil => exact Nat.zero_le _
    | append_singleton x c _ =>
      rw [counted_concat] at hn ⊢
      rcases List.prefix_concat_iff.mp hab with rfl | hax
      · rw [← counted_concat, if_pos]
        rw [hn, counted_concat]
      · by_cases hc : c = '\n'
        · simp [advance, hc]
        · refine (hcovered hax List.prefix_rfl ?_).elim
          rw [hn, advance, if_neg hc]
  · -- an earlier line: its line feed
    have hle : n + 1 ≤ (counted b).line := by omega
    obtain ⟨u, v, rfl, hu, hline⟩ := BeforeLine.exists_of_le hle
    rcases hu with rfl | ⟨x, rfl⟩
    · exact absurd hline (Nat.succ_ne_zero n).symm
    · have hx : (counted x).line = n := by
        rw [counted_append_line] at hline
        exact Nat.succ.inj hline
      have hax : a <+: x ++ ['\n'] := prefix_of_line_lt hab (List.prefix_append _ _) (by omega)
      rcases List.prefix_concat_iff.mp hax with rfl | hax
      · omega
      · exact (hcovered hax (List.prefix_append _ _) hx).elim

theorem marks_past (hb : b <+: s.text.toList) (hab : a <+: b)
    (hstart : (counted a).line ≤ n) (hstop : n ≤ (counted b).line) :
    (⟨.past s a, .past s b⟩ : Span).Marks s.text.toList n (showTabs (lineAt s.text.toList n))
      (caretRow (caretStart ⟨.past s a, .past s b⟩ n) (caretStop ⟨.past s a, .past s b⟩ n)) where
  shown _ _ := showTabs_lineAt_getElem?
  blankOrCaret _ hc := eq_of_mem_caretRow hc
  marked := by
    rintro ⟨_, d, ⟨y, behind, hy, rfl⟩, hyn, hcovered⟩ _ c ⟨x, after, hx, rfl, hends⟩ hxn
    rw [advanceBy_start] at hyn hcovered hxn ⊢
    have ha := hab.trans hb
    have hpre {z : List Char} {e : Char} {zs : List Char} (hz : s.text.toList = z ++ e :: zs) :
        z <+: s.text.toList := ⟨e :: zs, hz.symm⟩
    rw [covers_counted_iff ha hb (hpre hy) (hyn ▸ hstart) (hyn ▸ hstop), hyn] at hcovered
    rw [covers_counted_iff ha hb (hpre hx) (hxn ▸ hstart) (hxn ▸ hstop), hxn,
      caretRow_getElem?, caretStop_past (hstart.trans hstop)]
    by_cases hn : n = (counted b).line
    · have hd := hcovered.2 hn
      rw [if_pos hn]
      omega
    · -- the line is marked up to its end, and the character is in front of that
      have hwidth : (counted x).column < (lineAt s.text.toList n).length :=
        (List.getElem?_eq_some_iff.mp
          (lineAt_getElem?.mpr ⟨x, after, hx, hxn, rfl, hends⟩)).1
      rw [if_neg hn]
      omega
  single hnone := by
    have hle := caretStop_le_caretStart hb hab hstart hstop hnone
    rw [caretRow_of_le (by omega)]
    simp [List.count_replicate]

end Span

/-! ### The end of the source -/

namespace Scan

variable (s : Source)

theorem lastLine_endToken :
    (endToken s s.text.toList).span.lastLine = (counted s.text.toList).line :=
  Nat.max_self _

/-- The carets below the last line, if the end of the source is marked. -/
theorem caretRow_endToken :
    caretRow ((endToken s s.text.toList).span.caretStart (counted s.text.toList).line)
        ((endToken s s.text.toList).span.caretStop (counted s.text.toList).line) =
      List.replicate (counted s.text.toList).column ' ' ++ ['^'] := by
  have hstart : (endToken s s.text.toList).span.caretStart (counted s.text.toList).line =
      (counted s.text.toList).column := if_pos rfl
  have hstop : (endToken s s.text.toList).span.caretStop (counted s.text.toList).line =
      (counted s.text.toList).column + 1 := if_pos (lastLine_endToken s).symm
  rw [hstart, hstop, caretRow_of_le (Nat.le_refl _)]

/-- The excerpt of the end of a source is its last line with one caret behind it. -/
theorem excerpt_endToken :
    (endToken s s.text.toList).span.excerpt =
      [showTabs (lineAt s.text.toList (counted s.text.toList).line),
        List.replicate (counted s.text.toList).column ' ' ++ ['^']] := by
  rw [← caretRow_endToken, Span.excerpt, lastLine_endToken]
  have hstart : (endToken s s.text.toList).span.start.line = (counted s.text.toList).line := rfl
  rw [hstart, Nat.add_sub_cancel_left]
  rfl

/-- No character stands at the end of a source, and one caret marks it. -/
theorem underlined_endToken : (endToken s s.text.toList).span.Underlined s.text.toList := by
  refine Span.underlined_of_marks rfl (Nat.le_refl _) fun n hn hn' => ?_
  obtain rfl : n = (counted s.text.toList).line := Nat.le_antisymm hn' hn
  have hnone : ∀ p c, Text.Has s.text.toList p c →
      ¬(endToken s s.text.toList).span.Covers p := by
    rintro _ c ⟨before, after, htext, rfl⟩ ⟨hle, -⟩
    have hc := c.utf8Size_pos
    rw [advanceBy_start] at hle
    simp only [endToken, Position.past, counted, htext, Text.bytes_append, Text.bytes_cons] at hle
    omega
  rw [caretRow_endToken]
  exact {
    shown _ _ := showTabs_lineAt_getElem?
    blankOrCaret c hc :=
      (List.mem_append.mp hc).imp List.eq_of_mem_replicate List.eq_of_mem_singleton
    marked := by
      rintro ⟨p, c, hc, -, hcovered⟩
      exact absurd hcovered (hnone p c hc)
    single _ := by simp [List.count_replicate] }

end Scan

/-- Carets mark exactly the span: an excerpt from one place of a source up to a later one shows each
line of it and marks the characters whose bytes lie between the two places. So does the excerpt of
the end of the source, by a caret just past the end of its last line. -/
theorem carets_mark_span (s : Source) {a b : List Char} (ha : a <+: s.text.toList)
    (hb : b <+: s.text.toList)
    (hle : ((Position.start s).advanceBy a).offset ≤ ((Position.start s).advanceBy b).offset) :
    Span.Underlined ⟨(Position.start s).advanceBy a, (Position.start s).advanceBy b⟩
        s.text.toList ∧
      ∀ ts, Scan.tokens s = .ok ts → ∃ front e, ts = front ++ [e] ∧ e.lexeme = .eof ∧
        e.span.Underlined s.text.toList ∧
        e.span.excerpt = [showTabs (lineAt s.text.toList (s.text.toList.count '\n')),
          List.replicate ((Position.start s).advanceBy s.text.toList).column ' ' ++ ['^']] := by
  have hpast (cs : List Char) : (Position.start s).advanceBy cs = .past s cs :=
    Position.advanceBy_past s [] cs
  simp only [hpast] at hle ⊢
  constructor
  · have hab := prefix_of_offset_le ha hb hle
    have hline : (counted a).line ≤ (counted b).line := by
      obtain ⟨w, rfl⟩ := hab
      rw [counted_append_line]
      exact Nat.le_add_right _ _
    exact Span.underlined_of_marks rfl hline fun n hn hn' => Span.marks_past hb hab hn hn'
  · intro ts hts
    obtain ⟨pieces, last, -, rfl⟩ := ((Scan.tokens_eq_iff s _).mp hts).tiling ts rfl rfl
    exact ⟨_, _, rfl, rfl, Scan.underlined_endToken s, Scan.excerpt_endToken s⟩

/-- The second character of a string literal up to its last one, over two lines. -/
theorem carets_mark_span_literal :
    let s : Source := ⟨"a", "\"é\r\n\tb\" c"⟩
    let t : Span := ⟨(Position.start s).advanceBy ['"'],
      (Position.start s).advanceBy ['"', 'é', '\r', '\n', '\t', 'b']⟩
    t.excerpt = [['"', 'é'], [' ', '^'], [' ', 'b', '"', ' ', 'c'], ['^', '^']] ∧
      t.Underlined s.text.toList ∧ ∃ ts, Scan.tokens s = .ok ts ∧ ∃ front e, ts = front ++ [e] ∧
        e.lexeme = .eof ∧ e.span.excerpt =
          [[' ', 'b', '"', ' ', 'c'], [' ', ' ', ' ', ' ', ' ', '^']] := by
  intro s t
  have hmarks := carets_mark_span s (a := ['"']) (b := ['"', 'é', '\r', '\n', '\t', 'b'])
    (by decide) (by decide) (by decide)
  have htokens : ∃ ts, Scan.tokens ⟨"a", "\"é\r\n\tb\" c"⟩ = .ok ts := ⟨_, rfl⟩
  obtain ⟨ts, hts⟩ := htokens
  obtain ⟨front, e, hfront, heof, -, hexcerpt⟩ := hmarks.2 ts hts
  exact ⟨by decide, hmarks.1, ts, hts, front, e, hfront, heof, hexcerpt.trans (by decide)⟩

end Minibasic
