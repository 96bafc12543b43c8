import Minibasic.Proofs.Token.LongestMatch

/-!
Tokens tile the source: the texts of their spans and the white space between them make up the whole
text, and each span lies where counting from the start of the text puts it.
-/

namespace Minibasic.Scan

/-- The texts of tokens, each with the gap in front of it. -/
def joined (pieces : List (List Char × Token)) : List Char :=
  pieces.flatMap fun p => p.1 ++ p.2.span.text.toList

@[simp] theorem joined_nil : joined [] = [] := rfl

@[simp] theorem joined_cons (gap : List Char) (t : Token) (pieces : List (List Char × Token)) :
    joined ((gap, t) :: pieces) = gap ++ t.span.text.toList ++ joined pieces := rfl

/-- What comes after `before` in the source is made up of `pieces`, which are tokens and the gaps in
front of them, and of the gap `last`. -/
structure Tiling (s : Source) (before : List Char) (pieces : List (List Char × Token))
    (last : List Char) : Prop where
  text : s.text.toList = before ++ (joined pieces ++ last)
  layout : ∀ gap ∈ pieces.map Prod.fst ++ [last], ∀ c ∈ gap, isLayout c
  ne_eof : ∀ p ∈ pieces, p.2.lexeme ≠ .eof
  nonempty : ∀ p ∈ pieces, p.2.span.start.offset < p.2.span.stop.offset
  /-- The ends of a span are counted from all that comes before them. -/
  counted : ∀ left gap t right, pieces = left ++ (gap, t) :: right →
    t.span = .after s (before ++ joined left ++ gap) t.span.text.toList
  /-- No token starts before those in front of it, and the end of the text is the last. -/
  ordered : (pieces.map Prod.snd ++ [endToken s s.text.toList]).Pairwise
    fun t u => t.span.stop.offset ≤ u.span.start.offset

variable {s : Source} {before gap last w : List Char} {t : Token}
  {pieces : List (List Char × Token)}

namespace Tiling

theorem stop (htext : s.text.toList = before ++ last) (hlast : ∀ c ∈ last, isLayout c) :
    Tiling s before [] last where
  text := htext
  layout := List.forall_mem_singleton.mpr hlast
  ne_eof := List.forall_mem_nil _
  nonempty := List.forall_mem_nil _
  counted left gap t right h := by cases left <;> cases h
  ordered := List.pairwise_singleton _ _

/-- No token, nor the end of the text, starts before the text that is tiled. -/
theorem le_start (h : Tiling s before pieces last) :
    ∀ t ∈ pieces.map Prod.snd ++ [endToken s s.text.toList],
      Text.bytes before ≤ t.span.start.offset := by
  intro t ht
  rcases List.mem_append.mp ht with ht | ht
  · obtain ⟨⟨gap, t⟩, hp, rfl⟩ := List.mem_map.mp ht
    obtain ⟨left, right, heq⟩ := List.append_of_mem hp
    rw [h.counted left gap t right heq]
    change _ ≤ Text.bytes _
    rw [List.append_assoc, Text.bytes_append]
    exact Nat.le_add_right _ _
  · cases List.mem_singleton.mp ht
    change _ ≤ Text.bytes _
    rw [h.text, Text.bytes_append]
    exact Nat.le_add_right _ _

/-- A gap and a token more in front. -/
theorem cons (h : Tiling s (before ++ gap ++ w) pieces last) (hgap : ∀ c ∈ gap, isLayout c)
    (hw : w ≠ []) (hspan : t.span = .after s (before ++ gap) w) (hlexeme : t.lexeme ≠ .eof) :
    Tiling s before ((gap, t) :: pieces) last := by
  have hsource : s.text.toList = before ++ gap ++ (w ++ (joined pieces ++ last)) := by
    rw [h.text]
    simp
  have htext : t.span.text.toList = w := by
    rw [hspan, Span.text_after hsource, String.toList_ofList]
  have hstop : t.span.stop.offset = Text.bytes (before ++ gap ++ w) := by
    rw [hspan]
    rfl
  exact
  { text := by
      rw [joined_cons, htext, hsource]
      simp
    layout := List.forall_mem_cons.mpr ⟨hgap, h.layout⟩
    ne_eof := List.forall_mem_cons.mpr ⟨hlexeme, h.ne_eof⟩
    nonempty := by
      refine List.forall_mem_cons.mpr ⟨?_, h.nonempty⟩
      have hpos := Text.bytes_pos hw
      have hstart : t.span.start.offset = Text.bytes (before ++ gap) := by
        rw [hspan]
        rfl
      rw [hstart, hstop, Text.bytes_append _ w]
      omega
    counted := by
      intro left gap' t' right heq
      cases left with
      | nil =>
        cases heq
        rw [htext, joined_nil, List.append_nil]
        exact hspan
      | cons p left =>
        cases heq
        have hjoined : before ++ joined ((gap, t) :: left) = before ++ gap ++ w ++ joined left := by
          rw [joined_cons, htext]
          simp
        rw [hjoined]
        exact h.counted left gap' t' right rfl
    ordered := by
      refine List.pairwise_cons.mpr ⟨fun u hu => ?_, h.ordered⟩
      rw [hstop]
      exact h.le_start u hu }

/-- The ends of tokens are the ends of beginnings of the source. -/
theorem exists_past (h : Tiling s [] pieces last) {t : Token} (ht : t ∈ pieces.map Prod.snd) :
    ∃ before upTo, before <+: s.text.toList ∧ upTo <+: s.text.toList ∧
      t.span.start = .past s before ∧ t.span.stop = .past s upTo := by
  obtain ⟨⟨gap, t⟩, hp, rfl⟩ := List.mem_map.mp ht
  obtain ⟨left, right, rfl⟩ := List.append_of_mem hp
  have hspan := h.counted left gap t right rfl
  have htext : s.text.toList =
      [] ++ joined left ++ gap ++ (t.span.text.toList ++ (joined right ++ last)) := by
    rw [h.text]
    simp [joined, List.flatMap_append]
  have hstop : [] ++ joined left ++ gap ++ t.span.text.toList <+: s.text.toList :=
    ⟨joined right ++ last, by rw [htext, List.append_assoc]⟩
  exact ⟨_, _, ⟨_, htext.symm⟩, hstop, congrArg Span.start hspan, congrArg Span.stop hspan⟩

end Tiling

theorem Lexes.tiling {text : List Char} {r : Except Diagnostic (List Token)}
    (h : Lexes s before text r) :
    ∀ ts, r = .ok ts → s.text.toList = before ++ text →
      ∃ pieces last, Tiling s before pieces last ∧
        ts = pieces.map Prod.snd ++ [endToken s s.text.toList] := by
  induction h with
  | @stop before gap hgap =>
    intro ts hts htext
    cases hts
    exact ⟨[], gap, .stop htext hgap, by rw [htext]; rfl⟩
  | @token before gap w rest l r hgap hlong _ ih =>
    intro ts hts htext
    cases r with
    | error d => cases hts
    | ok ts' =>
      cases hts
      obtain ⟨pieces, last, htiling, rfl⟩ := ih ts' rfl (by simpa using htext)
      obtain ⟨c, cs, hw, -, -⟩ := hlong.spells.exists_cons
      have hne : w ≠ [] := by
        rw [hw]
        exact List.cons_ne_nil c cs
      exact ⟨_, last, htiling.cons hgap hne rfl hlong.spells.ne_eof, rfl⟩
  | fault => exact fun ts hts => by cases hts

/-- The tokens of a source tile it, and behind them stands the end of the text. -/
theorem tokens_tile {ts : List Token} (h : tokens s = .ok ts) :
    ∃ pieces last, Tiling s [] pieces last ∧
      ts = pieces.map Prod.snd ++ [endToken s s.text.toList] :=
  ((tokens_eq_iff s _).mp h).tiling ts rfl rfl

/-- A string literal of two lines and the word behind it. -/
theorem tokens_tile_lines : ∃ ts, tokens ⟨"a", "\"é\n\" b"⟩ = .ok ts ∧ ts.length = 3 ∧
    ∃ pieces last, Tiling ⟨"a", "\"é\n\" b"⟩ [] pieces last ∧
      ts = pieces.map Prod.snd ++ [endToken ⟨"a", "\"é\n\" b"⟩ ['"', 'é', '\n', '"', ' ', 'b']] :=
  ⟨_, rfl, rfl, tokens_tile rfl⟩

end Minibasic.Scan
