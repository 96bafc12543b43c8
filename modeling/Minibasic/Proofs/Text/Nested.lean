import Minibasic.Proofs.Text.Quoted

/-!
Nested lists: words, quoted texts, and lists of these between parentheses or brackets with blanks
between the items. They can be read in one way only.
-/

namespace Minibasic.Text

/-- What stands around the items of a list. -/
inductive Fence where
  | round
  | square

namespace Fence

def left : Fence → Char
  | round => '('
  | square => '['

def right : Fence → Char
  | round => ')'
  | square => ']'

end Fence

inductive Nested where
  | word (cs : List Char)
  | text (s : List Char)
  | list (f : Fence) (items : List Nested)

mutual

def Nested.print : Nested → List Char
  | .word cs => cs
  | .text s => quote s
  | .list f ns => f.left :: Nested.printItems ns ++ [f.right]

def Nested.printItems : List Nested → List Char
  | [] => []
  | n :: ns => n.print ++ Nested.printRest ns

/-- Each item after a blank. -/
def Nested.printRest : List Nested → List Char
  | [] => []
  | n :: ns => ' ' :: n.print ++ Nested.printRest ns

end

/-- The characters that stand around words and texts. -/
def marks : List Char := [' ', '(', ')', '[', ']', '"']

/-- The characters of words. -/
def isBare (c : Char) : Bool := c ∉ marks

theorem isBare_of_all {p : Char → Bool} (hp : marks.all fun d => !p d) {c : Char} (hc : p c) :
    isBare c := by
  refine decide_eq_true fun hmem => ?_
  have hnot := List.all_eq_true.mp hp c hmem
  rw [hc] at hnot
  cases hnot

structure IsWord (cs : List Char) : Prop where
  nonempty : cs ≠ []
  isBare : ∀ c ∈ cs, isBare c

namespace Nested

/-- All words are made of their characters. -/
inductive Proper : Nested → Prop where
  | word {cs : List Char} : IsWord cs → Proper (.word cs)
  | text (s : List Char) : Proper (.text s)
  | list {f : Fence} {ns : List Nested} : (∀ n ∈ ns, Proper n) → Proper (.list f ns)

variable {n n' : Nested} {ns ns' : List Nested} {f f' : Fence} {r r' : List Char}

/-- No word goes on here. -/
def Stops (r : List Char) : Prop := ∀ c ∈ r.head?, isBare c = false

theorem stops_right (f : Fence) (r : List Char) : Stops (f.right :: r) := by
  cases f <;> simp [Stops, Fence.right, isBare, marks]

theorem stops_rest (ns : List Nested) (f : Fence) (r : List Char) :
    Stops (printRest ns ++ f.right :: r) := by
  cases ns with
  | nil => exact stops_right f r
  | cons n ns => simp [Stops, printRest, isBare, marks]

@[simp] theorem proper_list_iff : (list f ns).Proper ↔ ∀ n ∈ ns, n.Proper :=
  ⟨fun h => by cases h; assumption, .list⟩

@[simp] theorem proper_word_iff {cs : List Char} : (word cs).Proper ↔ IsWord cs :=
  ⟨fun h => by cases h; assumption, .word⟩

theorem print_list_append (f : Fence) (ns : List Nested) (r : List Char) :
    (list f ns).print ++ r = f.left :: (printItems ns ++ f.right :: r) := by
  simp [print]

/-- What a text can begin with. -/
def Begins : Nested → Char → Prop
  | .word _, c => isBare c
  | .text _, c => c = '"'
  | .list f _, c => c = f.left

theorem Proper.begins (h : n.Proper) : ∃ c cs, n.print = c :: cs ∧ n.Begins c := by
  cases h with
  | @word ds hw =>
    obtain ⟨c, cs, rfl⟩ := List.exists_cons_of_ne_nil hw.nonempty
    exact ⟨c, cs, by rw [print], hw.isBare c List.mem_cons_self⟩
  | text s => exact ⟨'"', _, by rw [print, quote]; rfl, rfl⟩
  | @list f ns _ => exact ⟨f.left, _, by rw [print]; rfl, rfl⟩

/-- No item begins where a list ends. -/
theorem not_begins_right (n : Nested) (f : Fence) : ¬n.Begins f.right := by
  cases n with
  | word cs => cases f <;> simp [Begins, Fence.right, isBare, marks]
  | text s => cases f <;> simp [Begins, Fence.right]
  | list f' ns => cases f <;> cases f' <;> simp [Begins, Fence.left, Fence.right]

/-- The same character begins things of one kind only. -/
theorem Proper.begins_both (h : n.Proper) (h' : n'.Proper) (heq : n.print ++ r = n'.print ++ r') :
    ∃ c, n.Begins c ∧ n'.Begins c := by
  obtain ⟨c, cs, hc, hb⟩ := h.begins
  obtain ⟨c', cs', hc', hb'⟩ := h'.begins
  rw [hc, hc'] at heq
  obtain ⟨rfl, -⟩ := List.cons.inj heq
  exact ⟨c, hb, hb'⟩

theorem isBare_left (f : Fence) : ¬isBare f.left := by
  cases f <;> decide

theorem isBare_quote : ¬isBare '"' := by
  decide

theorem left_ne_quote (f : Fence) : f.left ≠ '"' := by
  cases f <;> decide

theorem left_injective (h : f.left = f'.left) : f = f' := by
  cases f <;> cases f' <;> first | rfl | exact absurd h (by decide)

mutual

/-- The text of an item tells the item, whatever stands behind it but more of a word. -/
theorem print_append_inj (n : Nested) {n' : Nested} {r r' : List Char} (hn : n.Proper)
    (hn' : n'.Proper) (hr : Stops r) (hr' : Stops r') (h : n.print ++ r = n'.print ++ r') :
    n = n' ∧ r = r' := by
  -- the first character leaves only the cases of two words, two texts and two lists
  obtain ⟨c, hc, hc'⟩ := hn.begins_both hn' h
  cases n with
  | word cs =>
    cases n' with
    | word cs' =>
      rw [proper_word_iff] at hn hn'
      rw [print, print] at h
      obtain ⟨rfl, rfl⟩ := append_inj_of_all hn.isBare hn'.isBare hr hr' h
      exact ⟨rfl, rfl⟩
    | text s =>
      obtain rfl : c = '"' := hc'
      exact absurd hc isBare_quote
    | list f ns =>
      obtain rfl : c = f.left := hc'
      exact absurd hc (isBare_left f)
  | text s =>
    obtain rfl : c = '"' := hc
    cases n' with
    | word cs => exact absurd hc' isBare_quote
    | text s' =>
      rw [print, print] at h
      obtain ⟨rfl, rfl⟩ := quote_append_inj h
      exact ⟨rfl, rfl⟩
    | list f ns => exact absurd hc'.symm (left_ne_quote f)
  | list f ns =>
    obtain rfl : c = f.left := hc
    cases n' with
    | word cs => exact absurd hc' (isBare_left f)
    | text s => exact absurd hc' (left_ne_quote f)
    | list f' ns' =>
      obtain rfl := left_injective hc'
      rw [proper_list_iff] at hn hn'
      rw [print_list_append, print_list_append] at h
      obtain ⟨rfl, rfl⟩ := printItems_append_inj ns hn hn' (List.cons.inj h).2
      exact ⟨rfl, rfl⟩

theorem printItems_append_inj (ns : List Nested) {ns' : List Nested} {f : Fence}
    {r r' : List Char} (hns : ∀ n ∈ ns, n.Proper) (hns' : ∀ n ∈ ns', n.Proper)
    (h : printItems ns ++ f.right :: r = printItems ns' ++ f.right :: r') : ns = ns' ∧ r = r' := by
  -- where one list ends, the other cannot go on
  have hcons {n : Nested} {ns : List Nested} {r r' : List Char} (hn : n.Proper) :
      f.right :: r ≠ printItems (n :: ns) ++ r' := by
    intro heq
    obtain ⟨c, cs, hprint, hc⟩ := hn.begins
    rw [printItems, hprint] at heq
    obtain ⟨rfl, -⟩ := List.cons.inj heq
    exact not_begins_right n f hc
  cases ns with
  | nil =>
    cases ns' with
    | nil => exact ⟨rfl, (List.cons.inj h).2⟩
    | cons n' ns' => exact absurd h (hcons (hns' n' List.mem_cons_self))
  | cons n ns =>
    cases ns' with
    | nil => exact absurd h.symm (hcons (hns n List.mem_cons_self))
    | cons n' ns' =>
      rw [List.forall_mem_cons] at hns hns'
      rw [printItems, printItems, List.append_assoc, List.append_assoc] at h
      obtain ⟨rfl, hrest⟩ := print_append_inj n hns.1 hns'.1 (stops_rest ns f r)
        (stops_rest ns' f r') h
      obtain ⟨rfl, hr⟩ := printRest_append_inj ns hns.2 hns'.2 hrest
      exact ⟨rfl, hr⟩

theorem printRest_append_inj (ns : List Nested) {ns' : List Nested} {f : Fence}
    {r r' : List Char} (hns : ∀ n ∈ ns, n.Proper) (hns' : ∀ n ∈ ns', n.Proper)
    (h : printRest ns ++ f.right :: r = printRest ns' ++ f.right :: r') : ns = ns' ∧ r = r' := by
  have hblank : f.right ≠ ' ' := by cases f <;> decide
  cases ns with
  | nil =>
    cases ns' with
    | nil => exact ⟨rfl, (List.cons.inj h).2⟩
    | cons n' ns' => exact absurd (List.cons.inj h).1 hblank
  | cons n ns =>
    cases ns' with
    | nil => exact absurd (List.cons.inj h).1.symm hblank
    | cons n' ns' =>
      rw [List.forall_mem_cons] at hns hns'
      rw [printRest, printRest, List.cons_append, List.cons_append, List.append_assoc,
        List.append_assoc] at h
      obtain ⟨rfl, hrest⟩ := print_append_inj n hns.1 hns'.1 (stops_rest ns f r)
        (stops_rest ns' f r') (List.cons.inj h).2
      obtain ⟨rfl, hr⟩ := printRest_append_inj ns hns.2 hns'.2 hrest
      exact ⟨rfl, hr⟩

end

theorem print_injective (hn : n.Proper) (hn' : n'.Proper) (h : n.print = n'.print) : n = n' := by
  have hstops : Stops [] := fun c hc => by cases hc
  exact (print_append_inj n hn hn' hstops hstops (congrArg (· ++ []) h)).1

end Nested

end Minibasic.Text
