import Minibasic.Proofs.Expr.Words

/-!
The text of a tree tells the tree, but for the marks, for a step that may be written or not, and for
numbers so large that they are printed as a name.
-/

namespace Minibasic

open Text (Nested)
open Scan (Spelled IsName)

variable {α : Type}

/-! ### What a text shows -/

def Expr.one : Expr Unit := .number () (.int 1)

mutual

/-- What the text of an expression shows of it: no marks, one as the step of a loop that has none,
and infinite numbers as the name that they are printed as. -/
def Expr.shown : Expr α → Expr Unit
  | .number _ n => if n.isInfinite then .var () Number.infinity else .number () n
  | .string _ s => .string () s
  | .var _ x => .var () x
  | .assign _ x e => .assign () x e.shown
  | .binary _ op l r => .binary () op l.shown r.shown
  | .unary _ op e => .unary () op e.shown
  | .choose _ c b as => .choose () c.shown b.shown as.shown
  | .count _ x a b s e => .count () x a.shown b.shown (some (Expr.shownStep s)) e.shown
  | .loop _ c b => .loop () c.shown b.shown
  | .function _ x ps b => .function () x ps b.shown
  | .call _ c as => .call () c.shown (Expr.shownAll as)

def Arms.shown : Arms α → Arms Unit
  | .done => .done
  | .otherwise b => .otherwise b.shown
  | .elif c b as => .elif c.shown b.shown as.shown

def Expr.shownStep : Option (Expr α) → Expr Unit
  | none => .one
  | some e => e.shown

def Expr.shownAll : List (Expr α) → List (Expr Unit)
  | [] => []
  | e :: es => e.shown :: Expr.shownAll es

end

theorem Expr.shownAll_eq_map (es : List (Expr α)) : shownAll es = es.map shown := by
  induction es with
  | nil => rfl
  | cons e es ih => rw [shownAll, ih, List.map_cons]

theorem Arms.nested_shown (as : Arms α) (h : ∀ c ∈ as.children, c.shown.nested = c.nested) :
    as.shown.nested = as.nested := by
  cases as with
  | done => rfl
  | otherwise b => rw [shown, nested, nested, h b List.mem_cons_self]
  | elif c b as =>
    simp only [children, List.forall_mem_cons] at h
    rw [shown, nested, nested, h.1, h.2.1, as.nested_shown h.2.2]

theorem Expr.nested_one : one.nested = .word ['1'] := by
  rw [one, nested, Number.text_one]

/-- What is shown is printed alike. -/
theorem Expr.nested_shown (e : Expr α) : e.shown.nested = e.nested := by
  induction e using induction_on_children with
  | h e ih =>
    cases e with
    | number m n =>
      rw [shown]
      split
      next h =>
        rw [nested, nested, Number.text_of_isInfinite h]
        rfl
      next => rfl
    | choose m c b as =>
      simp only [children, List.forall_mem_cons] at ih
      rw [shown, nested, nested, ih.1, ih.2.1, as.nested_shown ih.2.2]
    | count m x a b s e =>
      cases s with
      | none => simp_all [shown, nested, children, shownStep, nestedStep, nested_one]
      | some s => simp_all [shown, nested, children, shownStep, nestedStep]
    | call m c as =>
      simp only [children, List.forall_mem_cons] at ih
      rw [shown, nested, nested, ih.1, nestedAll_eq_map, nestedAll_eq_map, shownAll_eq_map,
        List.map_map]
      exact congrArg (fun ns => form .call (c.nested :: ns)) (List.map_congr_left ih.2)
    | _ => simp_all [shown, nested, children]

/-! ### What a list stands for -/

namespace Expr

variable {β : Type} {e : Expr α} {e' : Expr β} {h : Head} {ns : List Nested}

/-- What the list stands for that the expression is printed as. -/
def head? : Expr α → Option Head
  | number _ _ | string _ _ | .var _ _ => none
  | assign _ _ _ => some .assign
  | binary _ op _ _ => some (.binary op)
  | unary _ op _ => some (.unary op)
  | choose _ _ _ _ => some .choose
  | count _ _ _ _ _ _ => some .count
  | .loop _ _ _ => some .loop
  | function _ _ _ _ => some .function
  | call _ _ _ => some .call

theorem exists_form (he : e.head? = some h) : ∃ ns, e.nested = form h ns ∧ h.Fits ns.length := by
  cases e with
  | number | string | var => cases he
  | _ =>
    cases he
    exact ⟨_, rfl, by first | rfl | trivial⟩

theorem nested_ne_form (he : e.head? = none) : e.nested ≠ form h ns := by
  cases e with
  | number | string | var => nofun
  | _ => cases he

theorem head?_eq_of_nested_eq (heq : e.nested = e'.nested) : e.head? = e'.head? := by
  cases he : e.head? with
  | none =>
    cases he' : e'.head? with
    | none => rfl
    | some h =>
      obtain ⟨ns, hns, -⟩ := exists_form he'
      exact absurd (heq.trans hns) (nested_ne_form he)
  | some h =>
    obtain ⟨ns, hns, hfits⟩ := exists_form he
    cases he' : e'.head? with
    | none => exact absurd (heq.symm.trans hns) (nested_ne_form he')
    | some h' =>
      obtain ⟨ns', hns', hfits'⟩ := exists_form he'
      obtain ⟨rfl, -⟩ := form_inj hfits hfits' (hns.symm.trans (heq.trans hns'))
      rfl

theorem shown_number {m : α} {n : Number} (h : n.isInfinite) :
    (number m n).shown = .var () Number.infinity := by
  rw [shown, if_pos h]

theorem shown_eq_of_number_eq_var {m : α} {m' : β} {n : Number} {x : String} (hn : n.Read)
    (hx : IsName x.toList) (heq : (number m n).nested = (var m' x).nested) :
    (number m n).shown = (var m' x).shown := by
  have htext : n.text = x.toList := Nested.word.inj heq
  obtain ⟨c, cs, hcs, hc, -⟩ := hx.shape
  have hinf := hn.isInfinite_of_isLetter (htext.trans hcs) hc
  have hx' : Number.infinity.toList = x.toList := (Number.text_of_isInfinite hinf).symm.trans htext
  rw [shown_number hinf, shown, String.toList_inj.mp hx']

/-- Words and quoted texts tell what they stand for. -/
theorem shown_eq_of_head?_eq_none (hhead : e.head? = none) (he : e.Bears Spelled)
    (he' : e'.Bears Spelled) (heq : e.nested = e'.nested) : e.shown = e'.shown := by
  have hhead' := (head?_eq_of_nested_eq heq).symm.trans hhead
  have hown := (bears_iff.mp he).1
  have hown' := (bears_iff.mp he').1
  cases e with
  | number m n =>
    have hn := read_of_payload hown
    cases e' with
    | number m' n' =>
      rcases hn.eq_or_isInfinite (read_of_payload hown') (Nested.word.inj heq) with
        rfl | ⟨hinf, hinf'⟩
      · rfl
      · rw [shown_number hinf, shown_number hinf']
    | var m' x =>
      exact shown_eq_of_number_eq_var hn (hown' _ List.mem_cons_self).isName heq
    | string => cases heq
    | _ => cases hhead'
  | var m x =>
    have hx := (hown _ List.mem_cons_self).isName
    cases e' with
    | number m' n =>
      exact (shown_eq_of_number_eq_var (read_of_payload hown') hx heq.symm).symm
    | var m' x' => rw [shown, shown, String.toList_inj.mp (Nested.word.inj heq)]
    | string => cases heq
    | _ => cases hhead'
  | string m s =>
    cases e' with
    | string m' s' => rw [shown, shown, String.toList_inj.mp (Nested.text.inj heq)]
    | number | var => cases heq
    | _ => cases hhead'
  | _ => cases hhead

/-- No expression is printed as the word that marks the last arm of a choice. -/
theorem nested_ne_else (he : e.Bears Spelled) : e.nested ≠ .word elseWord := by
  have hown := (bears_iff.mp he).1
  intro heq
  cases e with
  | number m n =>
    have htext : n.text = elseWord := Nested.word.inj heq
    have hinf := (read_of_payload hown).isInfinite_of_isLetter htext rfl
    rw [Number.text_of_isInfinite hinf] at htext
    exact absurd htext (by decide)
  | var m x =>
    have hx := (hown _ List.mem_cons_self).isName
    exact hx.ne_keyword .else_ (Nested.word.inj heq).symm
  | _ => cases heq

theorem shown_eq_one (he : e.Bears Spelled) (heq : e.nested = .word ['1']) : e.shown = one := by
  have hone : Spelled (.int 1) :=
    ⟨['1'], .int (List.cons_ne_nil _ _) (List.all_eq_true.mp rfl) (by decide)⟩
  have hbears : one.Bears Spelled :=
    bears_iff.mpr ⟨List.forall_mem_singleton.mpr hone, List.forall_mem_nil _⟩
  have hnested : e.nested = one.nested := heq.trans nested_one.symm
  exact shown_eq_of_head?_eq_none (head?_eq_of_nested_eq hnested) he hbears hnested

end Expr

section Parts

variable {β : Type}

/-- Expressions of two lists that are printed alike show the same. -/
def Telling (es : List (Expr α)) (es' : List (Expr β)) : Prop :=
  ∀ e ∈ es, ∀ e' ∈ es', e.nested = e'.nested → e.shown = e'.shown

variable {e : Expr α} {e' : Expr β} {es fs : List (Expr α)} {es' fs' : List (Expr β)}

theorem Telling.head (h : Telling (e :: es) (e' :: es')) (heq : e.nested = e'.nested) :
    e.shown = e'.shown :=
  h e List.mem_cons_self e' List.mem_cons_self heq

theorem Telling.mono (h : Telling es es') (hfs : fs ⊆ es) (hfs' : fs' ⊆ es') : Telling fs fs' :=
  fun e he e' he' => h e (hfs he) e' (hfs' he')

theorem Telling.tail (h : Telling (e :: es) (e' :: es')) : Telling es es' :=
  h.mono (List.subset_cons_self e es) (List.subset_cons_self e' es')

/-- The step that is not written and the step that is. -/
theorem Expr.shownStep_eq {s : Option (Expr α)} {s' : Option (Expr β)}
    (hs : ∀ c ∈ s.toList, c.Bears Spelled) (hs' : ∀ c ∈ s'.toList, c.Bears Spelled)
    (h : Telling s.toList s'.toList) (heq : nestedStep s = nestedStep s') :
    shownStep s = shownStep s' := by
  cases s with
  | none =>
    cases s' with
    | none => rfl
    | some e' => exact (shown_eq_one (hs' e' List.mem_cons_self) heq.symm).symm
  | some e =>
    cases s' with
    | none => exact shown_eq_one (hs e List.mem_cons_self) heq
    | some e' => exact h.head heq

theorem Expr.shownAll_eq (h : Telling es es')
    (heq : nestedAll es = nestedAll es') : shownAll es = shownAll es' := by
  induction es generalizing es' with
  | nil =>
    cases es' with
    | nil => rfl
    | cons e' es' => cases heq
  | cons e es ih =>
    cases es' with
    | nil => cases heq
    | cons e' es' =>
      obtain ⟨hhead, htail⟩ := List.cons.inj heq
      rw [shownAll, shownAll, h.head hhead, ih h.tail htail]

theorem Arms.shown_eq (as : Arms α) {as' : Arms β}
    (has : ∀ c ∈ as.children, c.Bears Spelled) (has' : ∀ c ∈ as'.children, c.Bears Spelled)
    (h : Telling as.children as'.children) (heq : as.nested = as'.nested) :
    as.shown = as'.shown := by
  cases as with
  | done =>
    cases as' with
    | done => rfl
    | _ => cases heq
  | otherwise b =>
    cases as' with
    | done => cases heq
    | otherwise b' =>
      have hb : b.nested = b'.nested := by simpa [nested] using heq
      rw [shown, shown, h.head hb]
    | elif c' b' as' =>
      -- a condition would have to be printed as the word of the last arm
      simp only [nested, List.cons.injEq, Nested.list.injEq] at heq
      exact absurd heq.1.2.1.symm (Expr.nested_ne_else (has' c' List.mem_cons_self))
  | elif c b as =>
    cases as' with
    | done => cases heq
    | otherwise b' =>
      simp only [nested, List.cons.injEq, Nested.list.injEq] at heq
      exact absurd heq.1.2.1 (Expr.nested_ne_else (has c List.mem_cons_self))
    | elif c' b' as' =>
      simp only [nested, List.cons.injEq, Nested.list.injEq, and_true, true_and] at heq
      obtain ⟨⟨hc, hb⟩, hrest⟩ := heq
      simp only [children, List.forall_mem_cons] at has has'
      rw [shown, shown, h.head hc, h.tail.head hb,
        as.shown_eq has.2.2 has'.2.2 h.tail.tail hrest]

/-- The name of an anonymous function is no name. -/
theorem getD_anonymousName_injective {x y : Option String}
    (hx : ∀ z, x = some z → Spelled (.identifier z))
    (hy : ∀ z, y = some z → Spelled (.identifier z))
    (h : x.getD anonymousName = y.getD anonymousName) : x = y := by
  have hne {z : String} (hz : Spelled (.identifier z)) : z ≠ anonymousName := by
    rintro rfl
    obtain ⟨c, cs, hcs, hc, -⟩ := hz.isName.shape
    obtain ⟨rfl, -⟩ := List.cons.inj (show '<' :: _ = c :: cs from hcs)
    cases hc
  cases x with
  | none =>
    cases y with
    | none => rfl
    | some y => exact absurd h.symm (hne (hy y rfl))
  | some x =>
    cases y with
    | none => exact absurd h (hne (hx x rfl))
    | some y => exact congrArg some h

theorem map_word_injective {ps qs : List String}
    (h : ps.map (fun p => Nested.word p.toList) = qs.map fun p => .word p.toList) : ps = qs :=
  List.map_injective_iff.mpr (fun _ _ hpq => String.toList_inj.mp (Nested.word.inj hpq)) h

/-- The nested list of an expression tells what its text shows. -/
theorem Expr.shown_eq_of_nested_eq (e : Expr α) {e' : Expr β} (he : e.Bears Spelled)
    (he' : e'.Bears Spelled) (heq : e.nested = e'.nested) : e.shown = e'.shown := by
  induction e using induction_on_children generalizing e' with
  | h e ih =>
    -- both begin with the same word, so that all cases but those of one constructor are absurd
    have hhead := head?_eq_of_nested_eq heq
    obtain ⟨hown, hkids⟩ := bears_iff.mp he
    obtain ⟨hown', hkids'⟩ := bears_iff.mp he'
    have h : Telling e.children e'.children := fun c hc c' hc' =>
      ih c hc (hkids c hc) (hkids' c' hc')
    cases e with
    | number | string | var => exact shown_eq_of_head?_eq_none rfl he he' heq
    | assign m x a =>
      cases e' with
      | assign m' x' a' =>
        simp only [nested, form_inj_iff, List.cons.injEq, Nested.word.injEq, String.toList_inj,
          and_true] at heq
        rw [shown, shown, heq.1, h.head heq.2]
      | _ => cases hhead
    | binary m op l r =>
      cases e' with
      | binary m' op' l' r' =>
        cases hhead
        simp only [nested, form_inj_iff, List.cons.injEq, and_true] at heq
        rw [shown, shown, h.head heq.1, h.tail.head heq.2]
      | _ => cases hhead
    | unary m op a =>
      cases e' with
      | unary m' op' a' =>
        cases hhead
        simp only [nested, form_inj_iff, List.cons.injEq, and_true] at heq
        rw [shown, shown, h.head heq]
      | _ => cases hhead
    | choose m c b as =>
      cases e' with
      | choose m' c' b' as' =>
        simp only [nested, form_inj_iff, List.cons.injEq, Nested.list.injEq, true_and,
          and_true] at heq
        obtain ⟨⟨hc, hb⟩, has⟩ := heq
        simp only [children, List.forall_mem_cons] at hkids hkids'
        rw [shown, shown, h.head hc, h.tail.head hb,
          as.shown_eq hkids.2.2 hkids'.2.2 h.tail.tail has]
      | _ => cases hhead
    | count m x a b s d =>
      cases e' with
      | count m' x' a' b' s' d' =>
        simp only [nested, form_inj_iff, List.cons.injEq, Nested.word.injEq, String.toList_inj,
          and_true] at heq
        obtain ⟨rfl, ha, hb, hs, hd⟩ := heq
        simp only [children, List.forall_mem_cons, List.forall_mem_append] at hkids hkids'
        have hstep := h.tail.tail.mono (List.subset_append_left _ _) (List.subset_append_left _ _)
        have hbody := h.tail.tail.mono (List.subset_append_right _ _) (List.subset_append_right _ _)
        rw [shown, shown, h.head ha, h.tail.head hb,
          shownStep_eq hkids.2.2.1 hkids'.2.2.1 hstep hs, hbody.head hd]
      | _ => cases hhead
    | loop m c b =>
      cases e' with
      | loop m' c' b' =>
        simp only [nested, form_inj_iff, List.cons.injEq, and_true] at heq
        rw [shown, shown, h.head heq.1, h.tail.head heq.2]
      | _ => cases hhead
    | function m x ps b =>
      cases e' with
      | function m' x' ps' b' =>
        simp only [nested, form_inj_iff, List.cons.injEq, Nested.word.injEq, Nested.list.injEq,
          true_and, and_true, String.toList_inj] at heq
        obtain ⟨hx, hps, hb⟩ := heq
        simp only [payload, List.map_append, List.forall_mem_append, List.forall_mem_map,
          Option.mem_toList] at hown hown'
        rw [shown, shown, h.head hb, getD_anonymousName_injective hown.1 hown'.1 hx,
          map_word_injective hps]
      | _ => cases hhead
    | call m c as =>
      cases e' with
      | call m' c' as' =>
        simp only [nested, form_inj_iff, List.cons.injEq] at heq
        rw [shown, shown, h.head heq.1, shownAll_eq h.tail heq.2]
      | _ => cases hhead

end Parts

namespace Expr

theorem print_eq_iff {e e' : Expr α} (he : e.Bears Spelled) (he' : e'.Bears Spelled) :
    e.print = e'.print ↔ e.shown = e'.shown := by
  rw [← e.print_nested, ← e'.print_nested]
  constructor
  · intro h
    exact e.shown_eq_of_nested_eq he he'
      (Nested.print_injective (e.nested_proper he) (e'.nested_proper he') h)
  · intro h
    rw [← e.nested_shown, h, e'.nested_shown]

/-- Trees of texts are printed alike exactly if they show the same: they are equal but for the
marks, for the step one that is written or not, and for infinite numbers and the name `inf`. -/
theorem text_eq_iff_shown_eq {s s' : Source} {ts ts' : List Token} {e e' : Parser.Node}
    (hts : Scan.tokens s = .ok ts) (he : parse ts = .ok e) (hts' : Scan.tokens s' = .ok ts')
    (he' : parse ts' = .ok e') : e.text = e'.text ↔ e.shown = e'.shown := by
  rw [text, text, String.ofList_inj]
  exact print_eq_iff (Scan.bears_of_parse_ok hts he) (Scan.bears_of_parse_ok hts' he')

/-- The loop with the step one has a node more than the loop without a step, and shows the same. -/
theorem text_eq_iff_shown_eq_step : ∃ ts ts' e e',
    Scan.tokens ⟨"a", "FOR i = 0 TO 3 THEN i"⟩ = .ok ts ∧ parse ts = .ok e ∧
      Scan.tokens ⟨"a", "FOR i = 0 TO 3 STEP 1 THEN i"⟩ = .ok ts' ∧ parse ts' = .ok e' ∧
        e.nodes.length = 4 ∧ e'.nodes.length = 5 ∧ e.text = e'.text ∧ e.shown = e'.shown := by
  have hleft : ((Scan.tokens ⟨"a", "FOR i = 0 TO 3 THEN i"⟩).toOption.bind fun ts =>
      (parse ts).toOption.map fun e => (e.print, e.nodes.length)) =
        some ("(FOR i 0 3 1 i)".toList, 4) := by
    decide +kernel
  have hright : ((Scan.tokens ⟨"a", "FOR i = 0 TO 3 STEP 1 THEN i"⟩).toOption.bind fun ts =>
      (parse ts).toOption.map fun e => (e.print, e.nodes.length)) =
        some ("(FOR i 0 3 1 i)".toList, 5) := by
    decide +kernel
  obtain ⟨ts, e, hts, he, hf⟩ := Parser.exists_of_read hleft
  obtain ⟨ts', e', hts', he', hf'⟩ := Parser.exists_of_read hright
  obtain ⟨hprint, hlength⟩ := Prod.mk.inj hf
  obtain ⟨hprint', hlength'⟩ := Prod.mk.inj hf'
  have htext : e.text = e'.text := congrArg String.ofList (hprint.trans hprint'.symm)
  exact ⟨ts, ts', e, e', hts, he, hts', he', hlength, hlength', htext,
    (text_eq_iff_shown_eq hts he hts' he').mp htext⟩

end Expr

end Minibasic
