import Minibasic.Proofs.Expr.Nested
import Minibasic.Proofs.Grammar.Payload
import Minibasic.Proofs.Number.Texts
import Minibasic.Proofs.Parser.Acceptance
import Minibasic.Proofs.Token.LongestMatch

/-!
The words in the tree of a text. Its literals and names are spelled by parts of the text, so that
none of them holds a blank, a quote, a parenthesis or a bracket when it is printed.
-/

namespace Minibasic

open Text (Nested IsWord isBare)

/-! ### What is spelled -/

namespace Scan

/-- Some text spells the lexeme. -/
def Spelled (l : Lexeme) : Prop := ∃ w, Spells l w

/-- Names start with a letter, go on with letters, digits and underscores, and are no keywords. -/
structure IsName (cs : List Char) : Prop where
  shape : ∃ c ds, cs = c :: ds ∧ isLetter c ∧ ∀ d ∈ ds, isWordChar d
  ne_keyword : ∀ k : Keyword, k.text.toList ≠ cs

theorem Spelled.isName {x : String} (h : Spelled (.identifier x)) : IsName x.toList := by
  obtain ⟨w, h⟩ := h
  cases h with
  | symbol h => simp [symbols] at h
  | @identifier c cs hc hcs hne =>
    rw [String.toList_ofList]
    exact ⟨⟨c, cs, rfl, hc, hcs⟩, hne⟩

theorem Spelled.read_int {n : Int64} (h : Spelled (.int n)) : (Number.int n).Read := by
  obtain ⟨w, h⟩ := h
  cases h with
  | symbol h => simp [symbols] at h
  | int _ _ hn =>
    rw [Number.Read, hn]
    exact Int.natCast_nonneg _

theorem Spelled.read_float {x : Float} (h : Spelled (.float x)) : (Number.float x).Read := by
  obtain ⟨w, h⟩ := h
  exact unsigned_of_spells h

variable {s : Source}

theorem Lexes.spelled {before text : List Char} {r : Except Diagnostic (List Token)}
    (h : Lexes s before text r) :
    ∀ ts, r = .ok ts → ∃ read stop, ts = read ++ [stop] ∧ stop.lexeme = .eof ∧
      ∀ t ∈ read, t.lexeme ≠ .eof ∧ Spelled t.lexeme := by
  induction h with
  | stop =>
    intro ts hts
    cases hts
    exact ⟨[], _, rfl, rfl, List.forall_mem_nil _⟩
  | @token before gap w rest l r _ hlong _ ih =>
    intro ts hts
    cases r with
    | error d => cases hts
    | ok ts' =>
      cases hts
      obtain ⟨read, stop, rfl, hstop, hread⟩ := ih ts' rfl
      exact ⟨_ :: read, stop, rfl, hstop,
        List.forall_mem_cons.mpr ⟨⟨hlong.spells.ne_eof, w, hlong.spells⟩, hread⟩⟩
  | fault => exact fun ts hts => by cases hts

/-- All literals and names in the tree of a text are spelled. -/
theorem bears_of_parse_ok {ts : List Token} {e : Parser.Node} (hts : tokens s = .ok ts)
    (he : parse ts = .ok e) : e.Bears Spelled := by
  obtain ⟨read, stop, rfl, hstop, hread⟩ := ((tokens_eq_iff s _).mp hts).spelled ts rfl
  obtain ⟨rest, hreads, hrest⟩ := Parser.reads_of_parse_ok he
  have hderives := Parser.derives_of_reads (fun t ht => (hread t ht).1) hstop hreads hrest
  have hspelled : ∀ l ∈ Parser.lexemes read, Spelled l :=
    List.forall_mem_map.mpr fun t ht => (hread t ht).2
  exact (Expr.bears_map _ e).mp (hderives.bears hspelled _ List.mem_cons_self)

end Scan

open Scan (Spelled IsName)

/-! ### Words -/

theorem Scan.IsName.isWord {cs : List Char} (h : IsName cs) : IsWord cs := by
  obtain ⟨c, ds, rfl, hc, hds⟩ := h.shape
  have hbare {d : Char} (hd : isWordChar d) : isBare d := Text.isBare_of_all rfl hd
  exact ⟨List.cons_ne_nil c ds,
    List.forall_mem_cons.mpr ⟨hbare (isWordChar_of_isLetter hc), fun d hd => hbare (hds d hd)⟩⟩

theorem isWord_anonymousName : IsWord anonymousName.toList :=
  ⟨by decide, List.all_eq_true.mp rfl⟩

namespace Number

/-- What infinite numbers are printed as. -/
def infinity : String := "inf"

variable {a b : Number}

theorem Read.isWord (h : a.Read) : IsWord a.text := by
  by_cases ha : a.isInfinite
  · rw [text_of_isInfinite ha]
    exact ⟨List.cons_ne_nil _ _, List.all_eq_true.mp rfl⟩
  · obtain ⟨c, cs, htext, hc, hcs, -⟩ := h.text_shape ha
    have hbare {d : Char} (hd : Decimal.isNumeralChar d) : isBare d := Text.isBare_of_all rfl hd
    rw [htext]
    exact ⟨List.cons_ne_nil c cs, List.forall_mem_cons.mpr
      ⟨hbare (Decimal.isNumeralChar_of_isDigit hc), fun d hd => hbare (hcs d hd)⟩⟩

theorem text_one : (int 1).text = ['1'] := by
  decide +kernel

/-- Of all numbers only infinite ones are printed with a letter in front. -/
theorem Read.isInfinite_of_isLetter (h : a.Read) {c : Char} {cs : List Char}
    (htext : a.text = c :: cs) (hc : Scan.isLetter c) : a.isInfinite := by
  by_contra ha
  obtain ⟨d, ds, htext', hd, -⟩ := h.text_shape ha
  obtain ⟨rfl, -⟩ := List.cons.inj (htext.symm.trans htext')
  rw [Scan.isDigit_of_isLetter hc] at hd
  cases hd

/-- Numbers that are printed alike are the same or infinite. -/
theorem Read.eq_or_isInfinite (ha : a.Read) (hb : b.Read) (h : a.text = b.text) :
    a = b ∨ a.isInfinite ∧ b.isInfinite := by
  by_cases ha' : a.isInfinite
  · have htext := h.symm.trans (text_of_isInfinite ha')
    exact .inr ⟨ha', hb.isInfinite_of_isLetter htext rfl⟩
  · by_cases hb' : b.isInfinite
    · have htext := h.trans (text_of_isInfinite hb')
      exact absurd (ha.isInfinite_of_isLetter htext rfl) ha'
    · exact .inl (text_injective ha hb ha' hb' h)

end Number

variable {α : Type}

@[simp] theorem proper_form {h : Head} {ns : List Nested} :
    (form h ns).Proper ↔ ∀ n ∈ ns, n.Proper := by
  simp [form, h.isWord_text]

theorem Expr.read_of_payload {m : α} {n : Number}
    (h : ∀ l ∈ (Expr.number m n).payload, Spelled l) : n.Read := by
  cases n with
  | int n => exact (h _ List.mem_cons_self).read_int
  | float x => exact (h _ List.mem_cons_self).read_float

theorem Expr.nestedAll_eq_map (es : List (Expr α)) : nestedAll es = es.map nested := by
  induction es with
  | nil => rfl
  | cons e es ih => rw [nestedAll, ih, List.map_cons]

theorem Arms.nested_proper (as : Arms α) (h : ∀ c ∈ as.children, c.nested.Proper) :
    ∀ n ∈ as.nested, n.Proper := by
  cases as with
  | done => exact List.forall_mem_nil _
  | otherwise b =>
    have helse : IsWord elseWord := ⟨List.cons_ne_nil _ _, List.all_eq_true.mp rfl⟩
    simp [nested, helse, h b List.mem_cons_self]
  | elif c b as =>
    simp only [children, List.forall_mem_cons] at h
    simpa [nested, h.1, h.2.1] using as.nested_proper h.2.2

theorem Expr.nested_proper (e : Expr α) (h : e.Bears Spelled) : e.nested.Proper := by
  induction e using induction_on_children with
  | h e ih =>
    obtain ⟨hown, hkids⟩ := bears_iff.mp h
    have hproper : ∀ c ∈ e.children, c.nested.Proper := fun c hc => ih c hc (hkids c hc)
    clear ih hkids
    cases e with
    | number m n => exact .word (read_of_payload hown).isWord
    | string m s => exact .text _
    | var m x => exact .word (hown _ List.mem_cons_self).isName.isWord
    | assign m x e =>
      simp only [payload, children, List.forall_mem_singleton] at hown hproper
      simp [nested, hown.isName.isWord, hproper]
    | choose m c b as =>
      simp only [children, List.forall_mem_cons] at hproper
      simpa [nested, hproper.1, hproper.2.1] using as.nested_proper hproper.2.2
    | count m x a b s e =>
      simp only [payload, List.forall_mem_singleton] at hown
      have hone : IsWord ['1'] := ⟨List.cons_ne_nil _ _, List.all_eq_true.mp rfl⟩
      cases s <;> simp_all [nested, nestedStep, children, hown.isName.isWord]
    | function m x ps b =>
      simp only [payload, children, List.forall_mem_singleton, List.forall_mem_map,
        List.forall_mem_append, Option.mem_toList] at hown hproper
      have hx : IsWord (x.getD anonymousName).toList := by
        cases x with
        | none => exact isWord_anonymousName
        | some x => exact (hown.1 x rfl).isName.isWord
      have hps : ∀ p ∈ ps, IsWord p.toList := fun p hp => (hown.2 p hp).isName.isWord
      simpa [nested, hproper, hx] using hps
    | call m c as =>
      simp only [children, List.forall_mem_cons] at hproper
      simpa [nested, nestedAll_eq_map, hproper.1] using hproper.2
    | _ => simp_all [nested, children]

end Minibasic
