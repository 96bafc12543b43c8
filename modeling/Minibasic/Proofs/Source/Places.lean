import Minibasic.Source

/-!
Places found by counting. The place just past a text is the same whether it is reached character by
character or counted from the whole text, and the span of a part of a source has that part as its
text.
-/

namespace Minibasic

namespace Text

/-- The size of a text in UTF-8. -/
def bytes : List Char → Nat
  | [] => 0
  | c :: cs => c.utf8Size + bytes cs

@[simp] theorem bytes_nil : bytes [] = 0 := rfl

@[simp] theorem bytes_cons (c : Char) (cs : List Char) :
    bytes (c :: cs) = c.utf8Size + bytes cs := rfl

@[simp] theorem bytes_append (cs ds : List Char) : bytes (cs ++ ds) = bytes cs + bytes ds := by
  induction cs with
  | nil => simp
  | cons c cs ih => simp [ih, Nat.add_assoc]

/-- Text that is not empty takes up space. -/
theorem bytes_pos {cs : List Char} (h : cs ≠ []) : 0 < bytes cs := by
  cases cs with
  | nil => exact absurd rfl h
  | cons c cs =>
    have hc := c.utf8Size_pos
    rw [bytes_cons]
    omega

/-- Two beginnings of a text that are equally long in UTF-8 are the same. -/
theorem append_inj_of_bytes {cs cs' ds ds' : List Char} (h : cs ++ ds = cs' ++ ds')
    (hb : bytes cs = bytes cs') : cs = cs' ∧ ds = ds' := by
  have hnil {es : List Char} (he : bytes es = 0) : es = [] := by
    by_cases hes : es = []
    · exact hes
    · exact absurd he (Nat.ne_of_gt (bytes_pos hes))
  rcases List.append_eq_append_iff.mp h with ⟨es, rfl, rfl⟩ | ⟨es, rfl, rfl⟩
  · rw [bytes_append] at hb
    have hes : es = [] := hnil (by omega)
    simp [hes]
  · rw [bytes_append] at hb
    have hes : es = [] := hnil (by omega)
    simp [hes]

theorem dropBytes_cons (c : Char) (cs : List Char) {n : Nat} (h : c.utf8Size ≤ n) :
    dropBytes (c :: cs) n = dropBytes cs (n - c.utf8Size) := by
  have hc := c.utf8Size_pos
  cases n with
  | zero => omega
  | succ n => exact if_pos h

theorem takeBytes_cons (c : Char) (cs : List Char) {n : Nat} (h : c.utf8Size ≤ n) :
    takeBytes (c :: cs) n = (takeBytes cs (n - c.utf8Size)).map (c :: ·) := by
  have hc := c.utf8Size_pos
  cases n with
  | zero => omega
  | succ n => exact if_pos h

theorem dropBytes_bytes (before rest : List Char) :
    dropBytes (before ++ rest) (bytes before) = some rest := by
  induction before with
  | nil => cases rest <;> rfl
  | cons c before ih =>
    rw [List.cons_append, bytes_cons, dropBytes_cons _ _ (Nat.le_add_right _ _),
      Nat.add_sub_cancel_left, ih]

theorem takeBytes_bytes (word after : List Char) :
    takeBytes (word ++ after) (bytes word) = some word := by
  induction word with
  | nil => cases after <;> rfl
  | cons c word ih =>
    rw [List.cons_append, bytes_cons, takeBytes_cons _ _ (Nat.le_add_right _ _),
      Nat.add_sub_cancel_left, ih]
    rfl

/-- What stands between the ends of two beginnings of a text is cut out of it. -/
theorem slice_bytes (before word after : List Char) :
    slice (before ++ (word ++ after)) (bytes before) (bytes (before ++ word)) = some word := by
  have hle : bytes before ≤ bytes (before ++ word) := by simp
  rw [slice, if_pos hle, dropBytes_bytes, bytes_append, Nat.add_sub_cancel_left]
  exact takeBytes_bytes word after

end Text

namespace Place

/-- The place just past the text `cs`: its bytes, its line feeds, and the characters after the last
of these. -/
def counted (cs : List Char) : Place where
  offset := Text.bytes cs
  line := cs.count '\n'
  column := (cs.reverse.takeWhile (· ≠ '\n')).length

/-- Counting one character more. -/
theorem counted_concat (cs : List Char) (c : Char) :
    counted (cs ++ [c]) = (counted cs).advance c := by
  unfold advance
  by_cases hc : c = '\n'
  · subst hc
    rw [if_pos rfl]
    simp [counted, List.count_append]
  · rw [if_neg hc]
    have hcount : List.count '\n' [c] = 0 := List.count_eq_zero.mpr (by simpa using Ne.symm hc)
    simp [counted, List.count_append, hcount, hc]

theorem advanceBy_counted (cs ds : List Char) :
    (counted cs).advanceBy ds = counted (cs ++ ds) := by
  induction ds generalizing cs with
  | nil => rw [advanceBy_nil, List.append_nil]
  | cons d ds ih =>
    rw [advanceBy_cons, ← counted_concat, ih, List.append_assoc]
    rfl

example : counted ['a', '\n', 'b', 'é'] = ⟨5, 1, 2⟩ := by decide

end Place

/-- The position in `s` just past `cs`, with which the text of `s` begins. -/
def Position.past (s : Source) (cs : List Char) : Position := ⟨.counted cs, s⟩

namespace Position

theorem advance_past (s : Source) (cs : List Char) (c : Char) :
    (past s cs).advance c = past s (cs ++ [c]) := by
  rw [past, past, Place.counted_concat]
  rfl

theorem advanceBy_past (s : Source) (cs ds : List Char) :
    (past s cs).advanceBy ds = past s (cs ++ ds) := by
  rw [past, past, ← Place.advanceBy_counted]
  rfl

end Position

/-- The span of `word` in a source that begins with `before` and `word`. -/
def Span.after (s : Source) (before word : List Char) : Span :=
  ⟨.past s before, .past s (before ++ word)⟩

/-- A span has the text that it was made for. -/
theorem Span.text_after {s : Source} {before word rest : List Char}
    (h : s.text.toList = before ++ (word ++ rest)) :
    (Span.after s before word).text = String.ofList word := by
  change String.ofList ((Text.slice s.text.toList (Text.bytes before)
    (Text.bytes (before ++ word))).getD []) = _
  rw [h, Text.slice_bytes]
  rfl

/-- Between the ends of two beginnings of a source lies a part of it. -/
theorem Span.exists_after {s : Source} {before upTo : List Char} {t : Span}
    (hstart : t.start = .past s before) (hstop : t.stop = .past s upTo)
    (hbefore : before <+: s.text.toList) (hupTo : upTo <+: s.text.toList)
    (hpos : t.start.offset < t.stop.offset) :
    ∃ word rest, s.text.toList = before ++ (word ++ rest) ∧ word ≠ [] ∧
      t = .after s before word := by
  have hbytes : Text.bytes before < Text.bytes upTo := by
    rw [hstart, hstop] at hpos
    exact hpos
  rcases List.prefix_or_prefix_of_prefix hbefore hupTo with hle | hle
  · obtain ⟨word, rfl⟩ := hle
    obtain ⟨rest, hrest⟩ := hupTo
    refine ⟨word, rest, by rw [← hrest, List.append_assoc], fun hnil => ?_, ?_⟩
    · rw [hnil, List.append_nil] at hbytes
      exact absurd hbytes (Nat.lt_irrefl _)
    · obtain ⟨start, stop⟩ := t
      cases hstart
      cases hstop
      rfl
  · obtain ⟨word, rfl⟩ := hle
    rw [Text.bytes_append] at hbytes
    omega

end Minibasic
