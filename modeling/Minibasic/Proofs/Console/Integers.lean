import Minibasic.Builtin
import Minibasic.Proofs.Decimal.Style
import Mathlib.Data.List.DropRight

/-!
Lines that hold an integer. They are read up to the first one that does; each line before it is
asked for again, and what comes after it stays unread.
-/

namespace Minibasic

namespace Text

variable {p : Char → Bool} {before w after : List Char}

theorem dropWhile_of_forall_not (h : ∀ c ∈ w, ¬p c) : w.dropWhile p = w := by
  cases w with
  | nil => rfl
  | cons c w => exact List.dropWhile_cons_of_neg (h c List.mem_cons_self)

/-- White space around a text without any is what trimming takes away. -/
theorem trim_append (hbefore : ∀ c ∈ before, isBlank c) (hw : ∀ c ∈ w, ¬isBlank c) (hne : w ≠ [])
    (hafter : ∀ c ∈ after, isBlank c) : trim (before ++ w ++ after) = w := by
  have hfront : (before ++ w ++ after).dropWhile isBlank = w ++ after := by
    obtain ⟨c, w, rfl⟩ := List.exists_cons_of_ne_nil hne
    rw [List.append_assoc, List.dropWhile_append_of_pos hbefore]
    exact List.dropWhile_cons_of_neg (hw c List.mem_cons_self)
  have hback : (w ++ after).reverse.dropWhile isBlank = w.reverse := by
    rw [List.reverse_append, List.dropWhile_append_of_pos (by simpa using hafter)]
    exact dropWhile_of_forall_not (by simpa using hw)
  rw [trim, trimEnd, hfront, hback, List.reverse_reverse]

/-- A text is what trimming leaves with white space around it. -/
theorem exists_trim (cs : List Char) : ∃ before after, cs = before ++ trim cs ++ after ∧
    (∀ c ∈ before, isBlank c) ∧ ∀ c ∈ after, isBlank c := by
  refine ⟨cs.takeWhile isBlank, (cs.dropWhile isBlank).rtakeWhile isBlank, ?_,
    fun c hc => List.mem_takeWhile_imp hc, fun c hc => List.mem_rtakeWhile_imp hc⟩
  have hrest : trim cs ++ (cs.dropWhile isBlank).rtakeWhile isBlank = cs.dropWhile isBlank :=
    List.rdropWhile_append_rtakeWhile
  rw [List.append_assoc, hrest, List.takeWhile_append_dropWhile]

end Text

namespace Decimal

/-- ASCII digits, at least one of them, behind at most one sign stand for the integer. -/
inductive Signed : List Char → Int → Prop where
  | bare {ds : List Char} : ds ≠ [] → (∀ d ∈ ds, isDigit d) → Signed ds (value ds)
  | plus {ds : List Char} : ds ≠ [] → (∀ d ∈ ds, isDigit d) → Signed ('+' :: ds) (value ds)
  | minus {ds : List Char} : ds ≠ [] → (∀ d ∈ ds, isDigit d) → Signed ('-' :: ds) (-value ds)

variable {c : Char} {cs : List Char}

theorem toNat?_eq_some_iff {n : Nat} :
    toNat? cs = some n ↔ (cs ≠ [] ∧ ∀ c ∈ cs, isDigit c) ∧ value cs = n := by
  simp [toNat?]

/-- What is read as an integer is what stands for it. -/
theorem toInt?_eq_some_iff {n : Int} : toInt? cs = some n ↔ Signed cs n := by
  constructor
  · intro h
    unfold toInt? at h
    split at h
    all_goals
      obtain ⟨m, hm, rfl⟩ := Option.map_eq_some_iff.mp h
      obtain ⟨⟨hne, hds⟩, rfl⟩ := toNat?_eq_some_iff.mp hm
    · exact .plus hne hds
    · exact .minus hne hds
    · exact .bare hne hds
  · intro h
    have hread {ds : List Char} (hne : ds ≠ []) (hds : ∀ d ∈ ds, isDigit d) :
        toNat? ds = some (value ds) := toNat?_eq_some_iff.mpr ⟨⟨hne, hds⟩, rfl⟩
    cases h with
    | plus hne hds => rw [toInt?, hread hne hds]; rfl
    | minus hne hds => rw [toInt?, hread hne hds]; rfl
    | bare hne hds =>
      -- a sign is no digit
      unfold toInt?
      split
      · exact absurd (hds _ List.mem_cons_self) (by decide)
      · exact absurd (hds _ List.mem_cons_self) (by decide)
      · rw [hread hne hds]
        rfl

theorem not_isBlank_of_isDigit (h : isDigit c) : ¬Text.isBlank c := by
  simp only [isDigit, Bool.and_eq_true, decide_eq_true_eq, Char.le_def, UInt32.le_iff_toNat_le,
    Char.reduceVal, UInt32.reduceToNat] at h
  have hc : c.toNat = c.val.toNat := rfl
  simp only [Text.isBlank, Bool.or_eq_true, Bool.and_eq_true, decide_eq_true_eq, beq_iff_eq, hc]
  omega

theorem Signed.not_isBlank {n : Int} (h : Signed cs n) : ∀ c ∈ cs, ¬Text.isBlank c := by
  cases h with
  | bare _ hds => exact fun c hc => not_isBlank_of_isDigit (hds c hc)
  | plus _ hds | minus _ hds =>
    refine List.forall_mem_cons.mpr ⟨by decide, fun c hc => ?_⟩
    exact not_isBlank_of_isDigit (hds c hc)

theorem Signed.ne_nil {n : Int} (h : Signed cs n) : cs ≠ [] := by
  cases h with
  | bare hne _ => exact hne
  | plus | minus => exact List.cons_ne_nil _ _

end Decimal

/-- Between white space the line holds an integer of 64 bits: digits behind at most one sign. -/
def HoldsInteger (line : String) (n : Int64) : Prop :=
  ∃ before w after, line.toList = before ++ w ++ after ∧ (∀ c ∈ before, Text.isBlank c) ∧
    (∀ c ∈ after, Text.isBlank c) ∧ Decimal.Signed w n.toInt

theorem readInt64?_eq_some_iff {line : String} {n : Int64} :
    readInt64? line = some n ↔ HoldsInteger line n := by
  simp only [readInt64?, Option.bind_eq_some_iff, int64?_eq_some_iff]
  constructor
  · rintro ⟨k, hk, rfl⟩
    obtain ⟨before, after, hline, hbefore, hafter⟩ := Text.exists_trim line.toList
    exact ⟨before, _, after, hline, hbefore, hafter, Decimal.toInt?_eq_some_iff.mp hk⟩
  · rintro ⟨before, w, after, hline, hbefore, hafter, hw⟩
    refine ⟨n.toInt, ?_, rfl⟩
    rw [hline, Text.trim_append hbefore hw.not_isBlank hw.ne_nil hafter]
    exact Decimal.toInt?_eq_some_iff.mpr hw

/-- The text of an integer holds it. -/
theorem holdsInteger_text (n : Int64) : HoldsInteger (Datum.int n).text n :=
  ⟨[], Decimal.ofInt n.toInt, [], by simp [Datum.int, Datum.text, Number.text], nofun, nofun,
    Decimal.toInt?_eq_some_iff.mp (Decimal.toInt?_ofInt n.toInt)⟩

/-! ### Reading up to an integer -/

/-- Lines of text, each with its ending. -/
def textLines (ls : List (String × String)) : List InputLine := ls.map fun l => .text l.1 l.2

/-- What is written for lines that hold no integer. -/
def reprompts (ls : List (String × String)) : List String :=
  ls.map fun l => "'" ++ l.1 ++ "' must be an integer. Try again!"

variable {rejected : List (String × String)}

/-- Lines that hold no integer are passed over. -/
theorem readInteger_rejected (h : ∀ l ∈ rejected, ∀ n, ¬HoldsInteger l.1 n)
    (output : Array String) (rest : List InputLine) :
    readInteger output (textLines rejected ++ rest) =
      readInteger (output ++ (reprompts rejected).toArray) rest := by
  induction rejected generalizing output with
  | nil => simp [textLines, reprompts]
  | cons l ls ih =>
    obtain ⟨hl, hls⟩ := List.forall_mem_cons.mp h
    have hnone : readInt64? l.1 = none :=
      Option.eq_none_iff_forall_ne_some.mpr fun n hn => hl n (readInt64?_eq_some_iff.mp hn)
    have hwritten : output ++ (reprompts (l :: ls)).toArray =
        output.push (repromptText l.1) ++ (reprompts ls).toArray := by
      rw [Array.push_eq_append, Array.append_assoc]
      exact congrArg (output ++ ·) (List.append_toArray [repromptText l.1] _).symm
    rw [textLines, List.map_cons, List.cons_append, readInteger, hnone, hwritten]
    exact ih hls _

/-- Lines are a front that holds no integer, up to the first line that holds one, to one that is no
text or to the end. -/
theorem exists_rejected (ls : List InputLine) : ∃ rejected rest,
    ls = textLines rejected ++ rest ∧ (∀ l ∈ rejected, ∀ n, ¬HoldsInteger l.1 n) ∧
      (rest = [] ∨ (∃ rest', rest = .undecodable :: rest') ∨
        ∃ line ending rest' n, rest = .text line ending :: rest' ∧ HoldsInteger line n) := by
  induction ls with
  | nil => exact ⟨[], [], rfl, List.forall_mem_nil _, .inl rfl⟩
  | cons l ls ih =>
    cases l with
    | undecodable => exact ⟨[], _, rfl, List.forall_mem_nil _, .inr (.inl ⟨ls, rfl⟩)⟩
    | text line ending =>
      by_cases h : ∃ n, HoldsInteger line n
      · obtain ⟨n, hn⟩ := h
        exact ⟨[], _, rfl, List.forall_mem_nil _, .inr (.inr ⟨line, ending, ls, n, rfl, hn⟩)⟩
      · obtain ⟨rejected, rest, rfl, hrejected, hrest⟩ := ih
        refine ⟨(line, ending) :: rejected, rest, rfl, ?_, hrest⟩
        exact List.forall_mem_cons.mpr ⟨fun n hn => h ⟨n, hn⟩, hrejected⟩

end Minibasic
