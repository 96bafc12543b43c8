import Minibasic.Proofs.Text.Quoted
import Minibasic.Proofs.Token.LongestMatch
import Minibasic.Value

/-!
String literals as they are written. A literal that protects its quotes and its backslashes is read
back as the text that it was written for; the echo of a string is a literal too, but the scan does
not know all of its escapes.
-/

namespace Minibasic.Scan

open Text (escape escapeCode)

variable {raw raw' s s' : List Char}

theorem Content.append (h : Content raw s) (h' : Content raw' s') :
    Content (raw ++ raw') (s ++ s') := by
  induction h with
  | nil => exact h'
  | plain hq hb _ ih => exact .plain hq hb ih
  | lineFeed _ ih => exact .lineFeed ih
  | tab _ ih => exact .tab ih
  | escaped hn ht _ ih => exact .escaped hn ht ih

theorem Content.of_plain (h : ∀ c ∈ s, c ≠ '"' ∧ c ≠ '\\') : Content s s := by
  induction s with
  | nil => exact .nil
  | cons c s ih =>
    obtain ⟨⟨hq, hb⟩, hs⟩ := List.forall_mem_cons.mp h
    exact .plain hq hb (ih hs)

/-- Character by character. -/
theorem Content.flatMap {f g : Char → List Char} (h : ∀ c, Content (f c) (g c)) (s : List Char) :
    Content (s.flatMap f) (s.flatMap g) := by
  induction s with
  | nil => exact .nil
  | cons c s ih => exact (h c).append ih

/-- The source is one string literal, for the string `t`, and nothing else. -/
def IsLiteral (src : Source) (t : String) : Prop :=
  tokens src = .ok [⟨.string t, .after src [] src.text.toList⟩, endToken src src.text.toList]

theorem isLiteral_of_content (h : Content raw s) {src : Source}
    (hsrc : src.text.toList = '"' :: (raw ++ ['"'])) : IsLiteral src (String.ofList s) := by
  have hclosed : Closed ('"' :: (raw ++ ['"'])) [] := fun d hd => by cases hd
  have hscan : tokensFrom 0 (.past src []) _ = _ := tokensFrom_spells (.string h) hclosed
  rw [List.append_nil] at hscan
  unfold IsLiteral
  rw [hsrc]
  change tokensFrom 0 (.past src []) src.text.toList = _
  rw [hsrc, hscan]
  rfl

/-! ### Protected literals -/

/-- A quote or a backslash behind a backslash, and any other character as it is. -/
def protect (c : Char) : List Char := if c = '"' ∨ c = '\\' then ['\\', c] else [c]

/-- The literal of a text. -/
def literal (s : List Char) : List Char := '"' :: (s.flatMap protect ++ ['"'])

theorem content_protect (c : Char) : Content (protect c) [c] := by
  unfold protect
  split
  next h =>
    rcases h with rfl | rfl
    · exact .escaped (by decide) (by decide) .nil
    · exact .escaped (by decide) (by decide) .nil
  next h =>
    obtain ⟨hq, hb⟩ := not_or.mp h
    exact .plain hq hb .nil

/-! ### Echoes -/

/-- What the scan makes of the text that a character is echoed as. If this is more than one
character, the first is a backslash. -/
def reread (c : Char) : List Char :=
  match escape c with
  | _ :: d :: cs => unescape d :: cs
  | cs => cs

theorem reread_of_plain {c : Char} (h : escape c = [c]) : reread c = [c] := by
  rw [reread, h]

theorem reread_of_backslash {c d : Char} {cs : List Char} (h : escape c = '\\' :: d :: cs) :
    reread c = unescape d :: cs := by
  rw [reread, h]

theorem reread_of_code {c : Char} (h : escape c = escapeCode c) :
    reread c = (escapeCode c).tail :=
  reread_of_backslash h

/-- No character of a code point ends the literal. -/
theorem content_code (c : Char) : Content (escapeCode c) (escapeCode c).tail := by
  refine .unescape 'u' (.of_plain fun d hd => ?_)
  rcases List.mem_append.mp hd with hd | hd
  · rcases List.mem_cons.mp hd with rfl | hd
    · decide
    · obtain ⟨k, hk, rfl⟩ := Text.mem_hexDigits hd
      exact ⟨(Text.hexDigit_ne_of_lt k hk).1, (Text.hexDigit_ne_of_lt k hk).2.1⟩
  · rw [List.mem_singleton.mp hd]
    decide

theorem content_reread (c : Char) : Content (escape c) (reread c) := by
  rcases Text.escape_cases c with ⟨d, -, h⟩ | ⟨hq, hb, h⟩ | h
  · rw [reread_of_backslash h, h]
    exact .unescape d .nil
  · rw [reread_of_plain h, h]
    exact .plain hq hb .nil
  · rw [reread_of_code h, h]
    exact content_code c

/-- The escapes of a quoted text that a string literal does not have: return, zero, code point. -/
def foreignEscapes (c : Char) : List (List Char) := [['\\', 'r'], ['\\', '0'], escapeCode c]

theorem shortEscapes_reread : ∀ p ∈ Text.shortEscapes,
    unescape p.2 = p.1 ↔ p.2 ≠ 'r' ∧ p.2 ≠ '0' := by
  decide

theorem four_lt_length_escapeCode (c : Char) : 4 < (escapeCode c).length := by
  have hdigits := List.length_pos_iff.mpr (Text.hexDigits_ne_nil c.toNat)
  simp only [escapeCode, List.length_append, List.length_cons, List.length_nil]
  omega

theorem ne_escapeCode {c : Char} {w : List Char} (h : w.length ≤ 4) : w ≠ escapeCode c := by
  rintro rfl
  exact absurd (four_lt_length_escapeCode c) (Nat.not_lt.mpr h)

theorem reread_eq_iff (c : Char) : reread c = [c] ↔ escape c ∉ foreignEscapes c := by
  rcases Text.escape_cases c with ⟨d, hd, h⟩ | ⟨-, -, h⟩ | h
  · have hne : ['\\', d] ≠ escapeCode c := ne_escapeCode (by simp)
    rw [reread_of_backslash h, h]
    simpa [foreignEscapes, hne] using shortEscapes_reread _ hd
  · have hne : [c] ≠ escapeCode c := ne_escapeCode (by simp)
    rw [h]
    exact iff_of_true (reread_of_plain h) (by simp [foreignEscapes, hne])
  · have hne : reread c ≠ [c] := by
      rw [reread_of_code h]
      intro he
      have hlen := congrArg List.length he
      rw [List.length_tail, List.length_singleton] at hlen
      have hlong := four_lt_length_escapeCode c
      omega
    refine iff_of_false hne (not_not_intro ?_)
    rw [h]
    simp [foreignEscapes]

theorem reread_ne_nil (c : Char) : reread c ≠ [] := by
  rcases Text.escape_cases c with ⟨d, -, h⟩ | ⟨-, -, h⟩ | h
  · simp [reread_of_backslash h]
  · simp [reread_of_plain h]
  · simp [reread_of_backslash h]

theorem length_le_flatMap {f : Char → List Char} (hf : ∀ c, f c ≠ []) (s : List Char) :
    s.length ≤ (s.flatMap f).length := by
  induction s with
  | nil => exact Nat.le_refl 0
  | cons c s ih =>
    have hc := List.length_pos_iff.mpr (hf c)
    rw [List.flatMap_cons, List.length_append, List.length_cons]
    omega

/-- Where every character gives one at least, a text stays the same only if each one does. -/
theorem flatMap_eq_self_iff {f : Char → List Char} (hf : ∀ c, f c ≠ []) (s : List Char) :
    s.flatMap f = s ↔ ∀ c ∈ s, f c = [c] := by
  induction s with
  | nil => simp
  | cons c s ih =>
    rw [List.flatMap_cons, List.forall_mem_cons, ← ih]
    constructor
    · intro h
      obtain ⟨d, cs, hc⟩ := List.exists_cons_of_ne_nil (hf c)
      rw [hc, List.cons_append, List.cons_eq_cons] at h
      obtain ⟨rfl, h⟩ := h
      have hlen := congrArg List.length h
      have hs := length_le_flatMap hf s
      rw [List.length_append] at hlen
      obtain rfl : cs = [] := List.length_eq_zero_iff.mp (by omega)
      exact ⟨hc, h⟩
    · rintro ⟨hc, hs⟩
      rw [hc, hs]
      rfl

/-- Every string has a literal that is scanned as that string alone, and its echo is scanned as one
string too. This one is the same exactly if no character of it is echoed as a return, a zero or a
code point behind a backslash. -/
theorem literals_decode (n s : String) :
    IsLiteral ⟨n, String.ofList (literal s.toList)⟩ s ∧
    ∃ t, IsLiteral ⟨n, (Datum.string s).echo⟩ t ∧
      (t = s ↔ ∀ c ∈ s.toList, escape c ∉ foreignEscapes c) := by
  have hliteral := Content.flatMap content_protect s.toList
  rw [List.flatMap_singleton'] at hliteral
  have hecho := Content.flatMap content_reread s.toList
  refine ⟨?_, String.ofList (s.toList.flatMap reread), ?_, ?_⟩
  · have h : IsLiteral ⟨n, String.ofList (literal s.toList)⟩ _ :=
      isLiteral_of_content hliteral String.toList_ofList
    rwa [String.ofList_toList] at h
  · exact isLiteral_of_content hecho String.toList_ofList
  · rw [← String.toList_inj, String.toList_ofList, flatMap_eq_self_iff reread_ne_nil]
    exact forall₂_congr fun c _ => reread_eq_iff c

end Minibasic.Scan
