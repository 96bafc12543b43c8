import Minibasic.Diagnostic.Render
import Minibasic.Proofs.Source.Order
import Mathlib.Data.List.Induction

/-!
Lines and the places on them. What an excerpt shows in column `k` of line `n` is the character that
stands there.
-/

namespace Minibasic

/-! ### Lines -/

theorem length_linesOf (cs : List Char) : (linesOf cs).length = cs.count '\n' + 1 := by
  induction cs with
  | nil => rfl
  | cons c cs ih =>
    by_cases hc : c = '\n'
    · simp [linesOf, hc, ih]
    · simp only [linesOf, if_neg hc, List.count_cons_of_ne hc]
      cases h : linesOf cs with
      | nil => simp [h] at ih
      | cons l ls => simpa [h] using ih

theorem linesOf_ne_nil (cs : List Char) : linesOf cs ≠ [] :=
  List.ne_nil_of_length_pos (by simp [length_linesOf])

theorem linesOf_append_cons (cs ds : List Char) :
    linesOf (cs ++ '\n' :: ds) = linesOf cs ++ linesOf ds := by
  induction cs with
  | nil => simp [linesOf]
  | cons c cs ih =>
    by_cases hc : c = '\n'
    · simp [linesOf, hc, ih]
    · simp only [List.cons_append, linesOf, if_neg hc, ih]
      cases h : linesOf cs with
      | nil => exact absurd h (linesOf_ne_nil cs)
      | cons l ls => rfl

/-- The first line goes up to the first line feed. -/
theorem linesOf_getElem?_zero (cs : List Char) :
    (linesOf cs)[0]? = some (cs.takeWhile (· ≠ '\n')) := by
  induction cs with
  | nil => rfl
  | cons c cs ih =>
    by_cases hc : c = '\n'
    · simp [linesOf, hc]
    · simp only [linesOf, if_neg hc]
      cases h : linesOf cs with
      | nil => exact absurd h (linesOf_ne_nil cs)
      | cons l ls => simpa [h, hc] using ih

/-- A line begins after the text `u`. -/
def BeforeLine (u : List Char) : Prop := u = [] ∨ ∃ w, u = w ++ ['\n']

namespace BeforeLine

theorem column {u : List Char} (h : BeforeLine u) : (Place.counted u).column = 0 := by
  rcases h with rfl | ⟨w, rfl⟩
  · rfl
  · simp [Place.counted]

/-- The line that begins after `u` goes up to the next line feed. -/
theorem linesOf_getD {u : List Char} (h : BeforeLine u) (cs : List Char) :
    (linesOf (u ++ cs)).getD (Place.counted u).line [] = cs.takeWhile (· ≠ '\n') := by
  rw [List.getD_eq_getElem?_getD]
  rcases h with rfl | ⟨w, rfl⟩
  · rw [List.nil_append]
    exact congrArg (·.getD []) (linesOf_getElem?_zero cs)
  · have hlen : (Place.counted (w ++ ['\n'])).line = (linesOf w).length := by
      rw [length_linesOf, Place.counted_append_line]
      rfl
    rw [List.append_assoc, List.singleton_append, linesOf_append_cons, hlen,
      List.getElem?_append_right (Nat.le_refl _), Nat.sub_self, linesOf_getElem?_zero]
    rfl

/-- A text is some whole lines and the beginning of one more. -/
theorem exists_append (cs : List Char) : ∃ u v, cs = u ++ v ∧ BeforeLine u ∧ '\n' ∉ v := by
  induction cs using List.reverseRec with
  | nil => exact ⟨[], [], rfl, .inl rfl, List.not_mem_nil⟩
  | append_singleton cs c ih =>
    by_cases hc : c = '\n'
    · exact ⟨cs ++ [c], [], by simp, .inr ⟨cs, by rw [hc]⟩, List.not_mem_nil⟩
    · obtain ⟨u, v, rfl, hu, hv⟩ := ih
      exact ⟨u, v ++ [c], by simp, hu, by simp [hv, Ne.symm hc]⟩

/-- Each line of a text begins somewhere. -/
theorem exists_of_le {cs : List Char} {n : Nat} (h : n ≤ cs.count '\n') :
    ∃ u v, cs = u ++ v ∧ BeforeLine u ∧ (Place.counted u).line = n := by
  induction cs generalizing n with
  | nil => exact ⟨[], [], rfl, .inl rfl, (Nat.le_zero.mp h).symm⟩
  | cons c cs ih =>
    cases n with
    | zero => exact ⟨[], c :: cs, rfl, .inl rfl, rfl⟩
    | succ n =>
      by_cases hc : c = '\n'
      · subst hc
        obtain ⟨u, v, rfl, hu, rfl⟩ := ih (n := n) (by simpa using h)
        refine ⟨'\n' :: u, v, rfl, ?_, by simp [Place.counted]⟩
        rcases hu with rfl | ⟨w, rfl⟩
        · exact .inr ⟨[], rfl⟩
        · exact .inr ⟨'\n' :: w, rfl⟩
      · obtain ⟨u, v, rfl, hu, hn⟩ := ih (n := n + 1) (by rwa [List.count_cons_of_ne hc] at h)
        refine ⟨c :: u, v, rfl, ?_, ?_⟩
        · rcases hu with rfl | ⟨w, rfl⟩
          · exact absurd hn (Nat.succ_ne_zero n).symm
          · exact .inr ⟨c :: w, rfl⟩
        · rw [← hn]
          exact List.count_cons_of_ne hc

end BeforeLine

/-! ### Line ends -/

/-- What is left of the line are carriage returns at most. -/
def EndsLine (cs : List Char) : Prop := ∀ c ∈ cs.takeWhile (· ≠ '\n'), c = '\r'

theorem EndsLine.lineFeed (cs : List Char) : EndsLine ('\n' :: cs) := by
  simp [EndsLine]

theorem trimReturns_cons (c : Char) (cs : List Char) :
    trimReturns (c :: cs) =
      if trimReturns cs = [] ∧ c = '\r' then [] else c :: trimReturns cs := by
  simp only [trimReturns, List.reverse_cons, List.dropWhile_append]
  by_cases h : (cs.reverse.dropWhile (· = '\r')) = []
  · by_cases hc : c = '\r' <;> simp [h, hc]
  · simp [h]

/-- A character is kept if it or one behind it is no carriage return. -/
theorem trimReturns_getElem? {row : List Char} {k : Nat} {c : Char} :
    (trimReturns row)[k]? = some c ↔ row[k]? = some c ∧ ∃ d ∈ row.drop k, d ≠ '\r' := by
  induction row generalizing k with
  | nil => simp [trimReturns]
  | cons a row ih =>
    have hnil : trimReturns row = [] ↔ ∀ d ∈ row, d = '\r' := by
      simp [trimReturns, List.dropWhile_eq_nil_iff]
    rw [trimReturns_cons]
    by_cases h : trimReturns row = [] ∧ a = '\r'
    · have hall : ∀ d ∈ a :: row, d = '\r' :=
        List.forall_mem_cons.mpr ⟨h.2, hnil.mp h.1⟩
      rw [if_pos h]
      refine iff_of_false (by simp) fun hr => ?_
      obtain ⟨d, hd, hne⟩ := hr.2
      exact hne (hall d (List.mem_of_mem_drop hd))
    · rw [if_neg h]
      cases k with
      | zero =>
        simp only [List.getElem?_cons_zero, List.drop_zero]
        refine (and_iff_left ?_).symm
        by_contra hr
        push Not at hr
        exact h ⟨hnil.mpr fun d hd => hr d (List.mem_cons_of_mem a hd), hr a List.mem_cons_self⟩
      | succ k => simpa using ih

/-- Text on the first line can be cut off in front. -/
theorem takeWhile_drop {cs : List Char} {k : Nat}
    (hk : k < (cs.takeWhile (· ≠ '\n')).length) :
    '\n' ∉ cs.take k ∧
      (cs.takeWhile (· ≠ '\n')).drop k = (cs.drop k).takeWhile (· ≠ '\n') := by
  induction cs generalizing k with
  | nil => simp at hk
  | cons c cs ih =>
    by_cases hc : c = '\n'
    · simp [hc] at hk
    · cases k with
      | zero => exact ⟨List.not_mem_nil, rfl⟩
      | succ k =>
        have hrest := ih (k := k) (by simpa [hc] using hk)
        refine ⟨by simpa [Ne.symm hc] using hrest.1, ?_⟩
        simpa [hc] using hrest.2

/-- Column `k` of line `n`, without the line's end, shows the character that stands there. -/
theorem lineAt_getElem? {text : List Char} {n k : Nat} {c : Char} :
    (lineAt text n)[k]? = some c ↔
      ∃ before after, text = before ++ c :: after ∧ (Place.counted before).line = n ∧
        (Place.counted before).column = k ∧ ¬EndsLine (c :: after) := by
  rw [lineAt, trimReturns_getElem?]
  constructor
  · rintro ⟨hk, d, hd, hne⟩
    have hn : n ≤ text.count '\n' := by
      by_contra hn
      have hlen : (linesOf text).length ≤ n := by
        rw [length_linesOf]
        omega
      rw [List.getD_eq_getElem?_getD, List.getElem?_eq_none hlen] at hk
      exact absurd hk (by simp)
    obtain ⟨u, v, rfl, hu, rfl⟩ := BeforeLine.exists_of_le hn
    rw [hu.linesOf_getD] at hk hd
    obtain ⟨hlt, hc⟩ := List.getElem?_eq_some_iff.mp hk
    obtain ⟨hfront, hback⟩ := takeWhile_drop hlt
    have hdrop : v.drop k = c :: v.drop (k + 1) := by
      have hlt' := Nat.lt_of_lt_of_le hlt (List.takeWhile_sublist _).length_le
      rw [List.drop_eq_getElem_cons hlt', ← hc]
      exact congrArg (· :: _) (List.IsPrefix.getElem (List.takeWhile_prefix _) hlt).symm
    refine ⟨u ++ v.take k, v.drop (k + 1), ?_, ?_, ?_, ?_⟩
    · rw [← hdrop, List.append_assoc, List.take_append_drop]
    · rw [Place.counted_append_line, List.count_eq_zero.mpr hfront, Nat.add_zero]
    · have hle := Nat.le_trans (Nat.le_of_lt hlt) (List.takeWhile_sublist _).length_le
      rw [Place.counted_append_column hfront, hu.column, List.length_take, Nat.min_eq_left hle,
        Nat.zero_add]
    · rw [← hdrop, EndsLine, ← hback]
      exact fun hall => hne (hall d hd)
  · rintro ⟨before, after, rfl, rfl, rfl, hends⟩
    obtain ⟨u, v, rfl, hu, hv⟩ := BeforeLine.exists_append before
    have hall : ∀ x ∈ v, decide (x ≠ '\n') = true := fun x hx =>
      decide_eq_true fun h => hv (h ▸ hx)
    have hc : c ≠ '\n' := fun h => hends (h ▸ .lineFeed after)
    have hline : (Place.counted (u ++ v)).line = (Place.counted u).line := by
      rw [Place.counted_append_line, List.count_eq_zero.mpr hv, Nat.add_zero]
    rw [hline, List.append_assoc, hu.linesOf_getD, List.takeWhile_append_of_pos hall,
      Place.counted_append_column hv, hu.column, Nat.zero_add]
    refine ⟨by simp [hc], ?_⟩
    rw [List.drop_left]
    simpa [EndsLine] using hends

end Minibasic
