import Minibasic.Text.Quoted

/-!
Quoted texts. A character stands for itself, or a backslash and one character stand for it, or its
code point does. What stands in a quoted text tells the characters, and where the text ends.
-/

namespace Minibasic.Text

/-- The characters that are written as a backslash and one character, and that character. -/
def shortEscapes : List (Char × Char) :=
  [('"', '"'), ('\\', '\\'), ('\n', 'n'), ('\r', 'r'), ('\t', 't'), ('\x00', '0')]

/-- The three ways in which a character stands in a quoted text. -/
theorem escape_cases (c : Char) :
    (∃ d, (c, d) ∈ shortEscapes ∧ escape c = ['\\', d]) ∨
      c ≠ '"' ∧ c ≠ '\\' ∧ escape c = [c] ∨ escape c = escapeCode c := by
  unfold escape
  split
  case h_7 hq hb _ _ _ _ =>
    refine .inr ?_
    split
    · exact .inl ⟨hq, hb, rfl⟩
    · exact .inr rfl
  all_goals exact .inl ⟨_, by decide, rfl⟩

theorem hexDigit_ne_of_lt :
    ∀ d < 16, hexDigit d ≠ '"' ∧ hexDigit d ≠ '\\' ∧ hexDigit d ≠ '\x7d' := by
  decide

theorem mem_hexDigits {n : Nat} {c : Char} (h : c ∈ hexDigits n) : ∃ d < 16, c = hexDigit d := by
  induction n using hexDigits.induct with
  | case1 n hn =>
    rw [hexDigits, if_pos hn] at h
    exact ⟨n, hn, List.mem_singleton.mp h⟩
  | case2 n hn ih =>
    rw [hexDigits, if_neg hn] at h
    rcases List.mem_append.mp h with h | h
    · exact ih h
    · exact ⟨n % 16, Nat.mod_lt n (by decide), List.mem_singleton.mp h⟩

theorem hexDigits_ne_nil (n : Nat) : hexDigits n ≠ [] := by
  unfold hexDigits
  split <;> simp

/-! ### Reading a quoted text -/

theorem hexDigit_injective : ∀ d < 16, ∀ d' < 16, hexDigit d = hexDigit d' → d = d' := by
  decide

theorem hexDigits_injective {n m : Nat} (h : hexDigits n = hexDigits m) : n = m := by
  induction n using hexDigits.induct generalizing m with
  | case1 n hn =>
    rw [hexDigits, if_pos hn, hexDigits.eq_1 m] at h
    split at h
    next hm => exact hexDigit_injective n hn m hm (List.cons.inj h).1
    next hm =>
      have hnil := (List.append_inj' (show [] ++ [hexDigit n] = _ from h) rfl).1
      exact absurd hnil.symm (hexDigits_ne_nil _)
  | case2 n hn ih =>
    rw [hexDigits, if_neg hn, hexDigits.eq_1 m] at h
    split at h
    next hm =>
      have hnil := (List.append_inj' (show _ = [] ++ [hexDigit m] from h) rfl).1
      exact absurd hnil (hexDigits_ne_nil _)
    next hm =>
      obtain ⟨hinit, hlast⟩ := List.append_inj' h rfl
      have hdiv := ih hinit
      have hmod := hexDigit_injective _ (Nat.mod_lt n (by decide)) _ (Nat.mod_lt m (by decide))
        (List.cons.inj hlast).1
      omega

theorem shortEscapes_injective : ∀ p ∈ shortEscapes, ∀ q ∈ shortEscapes, p.2 = q.2 → p = q := by
  decide

theorem shortEscapes_ne_u : ∀ p ∈ shortEscapes, p.2 ≠ 'u' := by
  decide

variable {c c' : Char} {r r' : List Char}

theorem eq_nil_of_all {p : Char → Bool} {cs ds : List Char} (hcs : ∀ c ∈ cs ++ ds, p c)
    (hr : ∀ c ∈ (ds ++ r).head?, p c = false) : ds = [] := by
  cases ds with
  | nil => rfl
  | cons d ds =>
    have hd := hcs d (by simp)
    rw [hr d rfl] at hd
    cases hd

/-- What has a property stops at the first character without it. -/
theorem append_inj_of_all {p : Char → Bool} {cs cs' : List Char} (hcs : ∀ c ∈ cs, p c)
    (hcs' : ∀ c ∈ cs', p c) (hr : ∀ c ∈ r.head?, p c = false) (hr' : ∀ c ∈ r'.head?, p c = false)
    (h : cs ++ r = cs' ++ r') : cs = cs' ∧ r = r' := by
  rcases List.append_eq_append_iff.mp h with ⟨ds, rfl, rfl⟩ | ⟨ds, rfl, rfl⟩
  · obtain rfl := eq_nil_of_all hcs' hr
    exact ⟨(List.append_nil cs).symm, rfl⟩
  · obtain rfl := eq_nil_of_all hcs hr'
    exact ⟨List.append_nil cs', rfl⟩

/-- The brace after a code point ends it. -/
theorem escapeCode_append_inj (h : escapeCode c ++ r = escapeCode c' ++ r') : c = c' ∧ r = r' := by
  have hbrace (n : Nat) : ∀ d ∈ hexDigits n, d != '\x7d' := fun d hmem => by
    obtain ⟨k, hk, rfl⟩ := mem_hexDigits hmem
    exact bne_iff_ne.mpr (hexDigit_ne_of_lt k hk).2.2
  have hstop (r : List Char) : ∀ d ∈ ('\x7d' :: r).head?, (d != '\x7d') = false := by
    simp
  simp only [escapeCode, List.append_assoc, List.cons_append, List.nil_append, List.cons.injEq,
    true_and] at h
  obtain ⟨hdigits, hr⟩ := append_inj_of_all (hbrace _) (hbrace _) (hstop r) (hstop r') h
  exact ⟨Char.toNat_inj.mp (hexDigits_injective hdigits), (List.cons.inj hr).2⟩

/-- No character stands in a text so that its beginning stands for another one. -/
theorem escape_append_inj (h : escape c ++ r = escape c' ++ r') : c = c' ∧ r = r' := by
  -- no short escape has a u behind its backslash, and no character that stands for itself is one
  rcases escape_cases c with ⟨d, hd, hc⟩ | ⟨-, hb, hc⟩ | hc <;>
    rcases escape_cases c' with ⟨d', hd', hc'⟩ | ⟨-, hb', hc'⟩ | hc' <;>
    rw [hc, hc'] at h
  case inl.inl =>
    obtain ⟨rfl, rfl⟩ : d = d' ∧ r = r' := by simpa using h
    exact ⟨congrArg Prod.fst (shortEscapes_injective _ hd _ hd' rfl), rfl⟩
  case inl.inr.inr => exact absurd (List.cons.inj (List.cons.inj h).2).1 (shortEscapes_ne_u _ hd)
  case inr.inl.inr.inl => exact List.cons.inj h
  case inr.inr.inl =>
    exact absurd (List.cons.inj (List.cons.inj h).2).1.symm (shortEscapes_ne_u _ hd')
  case inr.inr.inr.inr => exact escapeCode_append_inj h
  case inl.inr.inl | inr.inr.inr.inl => exact absurd (List.cons.inj h).1.symm hb'
  all_goals exact absurd (List.cons.inj h).1 hb

theorem escape_head (c : Char) : ∃ d ds, escape c = d :: ds ∧ d ≠ '"' := by
  rcases escape_cases c with ⟨d, -, hc⟩ | ⟨hq, -, hc⟩ | hc
  · exact ⟨'\\', [d], hc, by decide⟩
  · exact ⟨c, [], hc, hq⟩
  · exact ⟨'\\', _, hc, by decide⟩

/-- A quoted text ends where it says, and no two texts are quoted alike. -/
theorem quote_append_inj {s s' : List Char} (h : quote s ++ r = quote s' ++ r') :
    s = s' ∧ r = r' := by
  simp only [quote, List.cons_append, List.append_assoc, List.nil_append, List.cons.injEq,
    true_and] at h
  induction s generalizing s' with
  | nil =>
    cases s' with
    | nil => exact ⟨rfl, (List.cons.inj h).2⟩
    | cons c' s' =>
      obtain ⟨d, ds, hc, hd⟩ := escape_head c'
      rw [List.flatMap_cons, hc] at h
      exact absurd (List.cons.inj h).1.symm hd
  | cons c s ih =>
    rw [List.flatMap_cons, List.append_assoc] at h
    cases s' with
    | nil =>
      obtain ⟨d, ds, hc, hd⟩ := escape_head c
      rw [hc] at h
      exact absurd (List.cons.inj h).1 hd
    | cons c' s' =>
      rw [List.flatMap_cons, List.append_assoc] at h
      obtain ⟨rfl, hrest⟩ := escape_append_inj h
      obtain ⟨rfl, hr⟩ := ih hrest
      exact ⟨rfl, hr⟩

end Minibasic.Text
