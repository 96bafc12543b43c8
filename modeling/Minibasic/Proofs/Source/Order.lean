import Minibasic.Proofs.Source.Places
import Mathlib.Data.List.TakeWhile

/-!
The order of places. Along a text bytes, lines and columns, and the number of characters that are
read all grow together, so that any of the three tells where a place is; and a span holds the
characters between the places that it runs from and to.
-/

namespace Minibasic

namespace Place

theorem counted_append_line (u v : List Char) :
    (counted (u ++ v)).line = (counted u).line + v.count '\n' :=
  List.count_append

/-- Within a line each character is one column. -/
theorem counted_append_column {u v : List Char} (hv : '\n' ∉ v) :
    (counted (u ++ v)).column = (counted u).column + v.length := by
  have hall : ∀ c ∈ v.reverse, decide (c ≠ '\n') = true := fun c hc =>
    decide_eq_true fun h => hv (h ▸ List.mem_reverse.mp hc)
  simp only [counted, List.reverse_append, List.takeWhile_append_of_pos hall, List.length_append,
    List.length_reverse]
  exact Nat.add_comm _ _

/-- A text that goes on ends at a later line, or further right on the same one. -/
theorem counted_lt_append (u : List Char) {w : List Char} (hw : w ≠ []) :
    (counted u).line < (counted (u ++ w)).line ∨
      (counted u).line = (counted (u ++ w)).line ∧
        (counted u).column < (counted (u ++ w)).column := by
  by_cases h : '\n' ∈ w
  · have hpos := List.count_pos_iff.mpr h
    left
    rw [counted_append_line]
    omega
  · have hlen := List.length_pos_iff.mpr hw
    right
    rw [counted_append_line, List.count_eq_zero.mpr h, counted_append_column h]
    omega

/-- Bytes order the places of a text as lines and columns do. -/
theorem counted_le_iff {text a b : List Char} (ha : a <+: text) (hb : b <+: text) :
    (counted a).offset ≤ (counted b).offset ↔
      (counted a).line < (counted b).line ∨
        (counted a).line = (counted b).line ∧ (counted a).column ≤ (counted b).column := by
  rcases List.prefix_or_prefix_of_prefix ha hb with ⟨w, rfl⟩ | ⟨w, rfl⟩
  · refine iff_of_true ?_ ?_
    · simp [counted]
    · by_cases hw : w = []
      · simp [hw]
      · have hlt := counted_lt_append a hw
        omega
  · by_cases hw : w = []
    · simp [hw]
    · have hpos := Text.bytes_pos hw
      have hlt := counted_lt_append b hw
      refine iff_of_false ?_ (by omega)
      simp only [counted, Text.bytes_append]
      omega

/-- Of two beginnings of a text the one that ends first is the beginning of the other. -/
theorem prefix_of_offset_le {text a b : List Char} (ha : a <+: text) (hb : b <+: text)
    (h : (counted a).offset ≤ (counted b).offset) : a <+: b := by
  rcases List.prefix_or_prefix_of_prefix ha hb with hab | ⟨w, rfl⟩
  · exact hab
  · have hw : w = [] := by
      by_contra hw
      have hpos := Text.bytes_pos hw
      simp only [counted, Text.bytes_append] at h
      omega
    exact ⟨[], by simp [hw]⟩

theorem prefix_of_line_lt {text a b : List Char} (ha : a <+: text) (hb : b <+: text)
    (h : (counted a).line < (counted b).line) : a <+: b :=
  prefix_of_offset_le ha hb ((counted_le_iff ha hb).mpr (.inl h))

/-- Bytes order the places of a text as the numbers of characters in front of them do. -/
theorem counted_take_le_iff {text : List Char} {i : Nat} (hi : i ≤ text.length) (j : Nat) :
    (counted (text.take i)).offset ≤ (counted (text.take j)).offset ↔ i ≤ j := by
  constructor
  · intro h
    have hpre := prefix_of_offset_le (List.take_prefix i text) (List.take_prefix j text) h
    have hlen := hpre.length_le
    rw [List.length_take_of_le hi] at hlen
    exact Nat.le_trans hlen (List.length_take_le j text)
  · intro h
    obtain ⟨w, hw⟩ : text.take i <+: text.take j := List.take_prefix_take_left h
    simp [← hw, counted]

end Place

namespace Text

/-- The size of a string is that of its characters. -/
theorem bytes_toList (s : String) : bytes s.toList = s.utf8ByteSize := by
  have h (cs : List Char) : bytes cs = (String.ofList cs).utf8ByteSize := by
    induction cs with
    | nil => rfl
    | cons c cs ih =>
      rw [bytes_cons, ih]
      simp
  rw [h, String.ofList_toList]

theorem dropBytes_eq_some_iff {cs rest : List Char} {n : Nat} :
    dropBytes cs n = some rest ↔ ∃ front, cs = front ++ rest ∧ bytes front = n := by
  constructor
  · intro h
    fun_induction dropBytes cs n with
    | case1 cs =>
      cases h
      exact ⟨[], rfl, rfl⟩
    | case2 n => cases h
    | case3 c cs n hc ih =>
      obtain ⟨front, rfl, hn⟩ := ih h
      refine ⟨c :: front, rfl, ?_⟩
      rw [bytes_cons, hn]
      omega
    | case4 c cs n hc => cases h
  · rintro ⟨front, rfl, rfl⟩
    exact dropBytes_bytes front rest

theorem takeBytes_eq_some_iff {cs w : List Char} {n : Nat} :
    takeBytes cs n = some w ↔ w <+: cs ∧ bytes w = n := by
  constructor
  · intro h
    fun_induction takeBytes cs n generalizing w with
    | case1 cs =>
      cases h
      exact ⟨List.nil_prefix, rfl⟩
    | case2 n => cases h
    | case3 c cs n hc ih =>
      obtain ⟨w', hw', rfl⟩ := Option.map_eq_some_iff.mp h
      obtain ⟨hpre, hn⟩ := ih hw'
      refine ⟨List.cons_prefix_cons.mpr ⟨rfl, hpre⟩, ?_⟩
      rw [bytes_cons, hn]
      omega
    | case4 c cs n hc => cases h
  · rintro ⟨⟨after, rfl⟩, rfl⟩
    exact takeBytes_bytes w after

/-- What is cut out of a text is a part of it that starts and stops at the two offsets; there is
nothing else that can be cut out. -/
theorem slice_eq_some_iff {cs w : List Char} {start stop : Nat} :
    slice cs start stop = some w ↔ ∃ before after, cs = before ++ (w ++ after) ∧
      bytes before = start ∧ bytes (before ++ w) = stop := by
  constructor
  · intro h
    by_cases hle : start ≤ stop
    · rw [slice, if_pos hle] at h
      obtain ⟨rest, hrest, hw⟩ := Option.bind_eq_some_iff.mp h
      obtain ⟨before, rfl, hbefore⟩ := dropBytes_eq_some_iff.mp hrest
      obtain ⟨⟨after, rfl⟩, hbytes⟩ := takeBytes_eq_some_iff.mp hw
      refine ⟨before, after, rfl, hbefore, ?_⟩
      rw [bytes_append]
      omega
    · rw [slice, if_neg hle] at h
      cases h
  · rintro ⟨before, after, rfl, rfl, rfl⟩
    exact slice_bytes before w after

end Text

/-- A span that is reversed or goes beyond its source has no text. -/
theorem Span.text_eq_empty {t : Span} (h : t.stop.offset < t.start.offset ∨
    t.start.source.text.utf8ByteSize < t.stop.offset) : t.text = "" := by
  rw [Span.text]
  cases hs : Text.slice t.start.source.text.toList t.start.offset t.stop.offset with
  | none => rfl
  | some w =>
    obtain ⟨before, after, htext, hstart, hstop⟩ := Text.slice_eq_some_iff.mp hs
    rw [← Text.bytes_toList, htext] at h
    simp only [Text.bytes_append] at h hstop
    omega

/-- A span between two places of a source has the characters between them as its text. -/
theorem Span.text_take {s : Source} {i j : Nat} (h : i ≤ j) :
    (Span.mk (.past s (s.text.toList.take i)) (.past s (s.text.toList.take j))).text =
      String.ofList ((s.text.toList.take j).drop i) := by
  have hfront : s.text.toList.take j =
      s.text.toList.take i ++ (s.text.toList.take j).drop i := by
    have hi : (s.text.toList.take j).take i = s.text.toList.take i := by
      rw [List.take_take, Nat.min_eq_left h]
    rw [← hi, List.take_append_drop]
  have htext : s.text.toList = s.text.toList.take i ++
      ((s.text.toList.take j).drop i ++ s.text.toList.drop j) := by
    rw [← List.append_assoc, ← hfront, List.take_append_drop]
  have hspan := Span.text_after htext
  rw [Span.after, ← hfront] at hspan
  exact hspan

/-- Positions coincide if they are the same place of the same source. -/
theorem Position.coincides_take_iff {s s' : Source} {i k : Nat}
    (hi : i ≤ s.text.toList.length) (hk : k ≤ s'.text.toList.length) :
    (past s (s.text.toList.take i)).coincides (past s' (s'.text.toList.take k)) ↔
      s = s' ∧ i = k := by
  have hboth : (past s (s.text.toList.take i)).coincides (past s' (s'.text.toList.take k)) ↔
      (Place.counted (s.text.toList.take i)).offset =
        (Place.counted (s'.text.toList.take k)).offset ∧ s = s' := by
    simp [coincides, past]
  rw [hboth]
  constructor
  · rintro ⟨hoffset, rfl⟩
    have hik := Place.counted_take_le_iff hi k
    have hki := Place.counted_take_le_iff hk i
    exact ⟨rfl, by omega⟩
  · rintro ⟨rfl, rfl⟩
    exact ⟨rfl, rfl⟩

/-- Along a source the number of characters read, the offset, and the line and column say the same
about where a position is and which of two positions comes first. A span from one position to
another that does not come before it has the characters between the two as its text, and one that
is reversed or stops beyond its source has none. Positions that coincide are the same place of the
same source. -/
theorem positions_ordered (s : Source) {i j : Nat} (hi : i ≤ s.text.toList.length)
    (hj : j ≤ s.text.toList.length) :
    let p := (Position.start s).advanceBy (s.text.toList.take i)
    let q := (Position.start s).advanceBy (s.text.toList.take j)
    (p.offset = q.offset ↔ i = j) ∧
    (p.line = q.line ∧ p.column = q.column ↔ i = j) ∧
    (p.offset < q.offset ↔ i < j) ∧
    (p.line < q.line ∨ p.line = q.line ∧ p.column < q.column ↔ i < j) ∧
    (i ≤ j → (Span.mk p q).text = String.ofList ((s.text.toList.take j).drop i)) ∧
    (∀ t : Span, t.stop.offset < t.start.offset ∨
      t.start.source.text.utf8ByteSize < t.stop.offset → t.text = "") ∧
    ∀ s' k, k ≤ s'.text.toList.length →
      (p.coincides ((Position.start s').advanceBy (s'.text.toList.take k)) ↔ s = s' ∧ i = k) := by
  have hpast (s : Source) (cs : List Char) : (Position.start s).advanceBy cs = .past s cs :=
    Position.advanceBy_past s [] cs
  simp only [hpast]
  have hij := Place.counted_take_le_iff hi j
  have hji := Place.counted_take_le_iff hj i
  have hpre (n : Nat) : s.text.toList.take n <+: s.text.toList := List.take_prefix n _
  have hlines := Place.counted_le_iff (hpre i) (hpre j)
  have hlines' := Place.counted_le_iff (hpre j) (hpre i)
  refine ⟨?_, ?_, ?_, ?_, Span.text_take, fun _ => Span.text_eq_empty,
    fun _ _ => Position.coincides_take_iff hi⟩
  all_goals
    simp only [Position.past]
    omega

/-- The place in front of a line feed comes before that behind it, although its column does not. -/
theorem positions_ordered_lines :
    let s : Source := ⟨"a", "é\nb"⟩
    let p := (Position.start s).advanceBy (s.text.toList.take 1)
    let q := (Position.start s).advanceBy (s.text.toList.take 2)
    p.offset < q.offset ∧ q.column < p.column ∧ (Span.mk p q).text = "\n" ∧
      (Span.mk q p).text = "" ∧ ¬p.coincides q := by
  intro s p q
  obtain ⟨-, -, hoffset, -, htext, hempty, hsame⟩ :=
    positions_ordered s (i := 1) (j := 2) (by decide) (by decide)
  have hlt : p.offset < q.offset := hoffset.mpr (by decide)
  have hcoincides := hsame s 2 (by decide)
  have hword : (Span.mk p q).text = "\n" := (htext (by decide)).trans (by decide)
  exact ⟨hlt, by decide, hword, hempty ⟨q, p⟩ (.inl hlt), by rw [hcoincides]; decide⟩

end Minibasic
