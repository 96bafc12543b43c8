import Minibasic.Expr.Printer
import Minibasic.Proofs.Text.Nested

/-!
Expressions as nested lists. Each list begins with a word that tells what it stands for, but for
operators with one operand and with two, which are told apart by the number of items.
-/

namespace Minibasic

open Text (Nested IsWord)

/-- What a list of an expression can stand for. -/
inductive Head where
  | assign
  | binary (op : BinaryOp)
  | unary (op : UnaryOp)
  | choose
  | count
  | loop
  | function
  | call
deriving DecidableEq

namespace Head

def text : Head → String
  | assign => "VAR"
  | binary op => op.text
  | unary op => op.text
  | choose => "IF"
  | count => "FOR"
  | loop => "WHILE"
  | function => "FUN"
  | call => "call"

/-- A list with so many items behind its first word can stand for this. -/
def Fits : Head → Nat → Prop
  | binary _, n => n = 2
  | unary _, n => n = 1
  | _, _ => True

def binaryOps : List BinaryOp :=
  [.add, .sub, .mul, .div, .pow, .eq, .ne, .lt, .le, .gt, .ge, .and, .or]

def unaryOps : List UnaryOp := [.plus, .minus, .not]

def all : List Head :=
  [assign, choose, count, loop, function, call] ++ binaryOps.map binary ++ unaryOps.map unary

theorem mem_all (h : Head) : h ∈ all := by
  cases h with
  | binary op => cases op <;> decide
  | unary op => cases op <;> decide
  | _ => decide

/-- Only the operators with one operand share words with others. -/
theorem all_texts : ∀ h ∈ all, ∀ h' ∈ all, h.text = h'.text →
    h = h' ∨ (∃ op ∈ unaryOps, ∃ op' ∈ binaryOps, h = unary op ∧ h' = binary op') ∨
      ∃ op ∈ unaryOps, ∃ op' ∈ binaryOps, h' = unary op ∧ h = binary op' := by
  decide +kernel

theorem eq_of_text {h h' : Head} {n : Nat} (ht : h.text = h'.text) (hn : h.Fits n)
    (hn' : h'.Fits n) : h = h' := by
  rcases all_texts h h.mem_all h' h'.mem_all ht with
    heq | ⟨op, -, op', -, rfl, rfl⟩ | ⟨op, -, op', -, rfl, rfl⟩
  · exact heq
  · exact absurd (hn.symm.trans hn') (by decide)
  · exact absurd (hn.symm.trans hn') (by decide)

theorem isWord_text (h : Head) : IsWord h.text.toList := by
  have hall : ∀ h ∈ all, h.text.toList ≠ [] ∧ h.text.toList.all Text.isBare := by decide +kernel
  obtain ⟨hne, hbare⟩ := hall h h.mem_all
  exact ⟨hne, List.all_eq_true.mp hbare⟩

end Head

/-- A list that stands for `h`. -/
def form (h : Head) (ns : List Nested) : Nested := .list .round (.word h.text.toList :: ns)

@[simp] theorem form_inj_iff {h : Head} {ns ns' : List Nested} :
    form h ns = form h ns' ↔ ns = ns' := by
  simp [form]

theorem form_inj {h h' : Head} {ns ns' : List Nested} (hns : h.Fits ns.length)
    (hns' : h'.Fits ns'.length) (heq : form h ns = form h' ns') : h = h' ∧ ns = ns' := by
  simp only [form, Nested.list.injEq, List.cons.injEq, Nested.word.injEq, String.toList_inj,
    true_and] at heq
  obtain ⟨htext, rfl⟩ := heq
  exact ⟨Head.eq_of_text htext hns hns', rfl⟩

def elseWord : List Char := ['E', 'L', 'S', 'E']

variable {α : Type}

mutual

def Expr.nested : Expr α → Nested
  | .number _ n => .word n.text
  | .string _ s => .text s.toList
  | .var _ x => .word x.toList
  | .assign _ x e => form .assign [.word x.toList, e.nested]
  | .binary _ op l r => form (.binary op) [l.nested, r.nested]
  | .unary _ op e => form (.unary op) [e.nested]
  | .choose _ c b as => form .choose (.list .square [c.nested, b.nested] :: as.nested)
  | .count _ x a b s e =>
    form .count [.word x.toList, a.nested, b.nested, Expr.nestedStep s, e.nested]
  | .loop _ c b => form .loop [c.nested, b.nested]
  | .function _ x ps b =>
    form .function [.word (x.getD anonymousName).toList,
      .list .round (ps.map fun p => .word p.toList), b.nested]
  | .call _ c as => form .call (c.nested :: Expr.nestedAll as)

def Arms.nested : Arms α → List Nested
  | .done => []
  | .otherwise b => [.list .square [.word elseWord, b.nested]]
  | .elif c b as => .list .square [c.nested, b.nested] :: as.nested

def Expr.nestedStep : Option (Expr α) → Nested
  | none => .word ['1']
  | some e => e.nested

def Expr.nestedAll : List (Expr α) → List Nested
  | [] => []
  | e :: es => e.nested :: Expr.nestedAll es

end

/-! ### What is printed -/

section Print

attribute [local simp] Nested.print Nested.printItems Nested.printRest Text.Fence.left
  Text.Fence.right Head.text form elseWord

/-- Words with blanks between them. -/
theorem printItems_words (ps : List String) :
    Nested.printItems (ps.map fun p => .word p.toList) =
      [' '].intercalate (ps.map String.toList) := by
  cases ps with
  | nil => rfl
  | cons p ps =>
    induction ps generalizing p with
    | nil => simp
    | cons q ps ih =>
      have hq := ih q
      rw [List.map_cons, Nested.printItems, Nested.print] at hq ⊢
      rw [List.map_cons, Nested.printRest, Nested.print, List.cons_append, hq]
      simp

mutual

/-- An expression is printed as the nested list that it is. -/
theorem Expr.print_nested (e : Expr α) : e.nested.print = e.print := by
  -- the text on the right is written out in each case: it is so by definition
  cases e with
  | number m n => rfl
  | string m s => rfl
  | var m x => rfl
  | assign m x e =>
    change _ = "(VAR ".toList ++ x.toList ++ ' ' :: e.print ++ [')']
    simp [Expr.nested, e.print_nested]
  | binary m op l r =>
    change _ = '(' :: op.text.toList ++ ' ' :: l.print ++ ' ' :: r.print ++ [')']
    simp [Expr.nested, l.print_nested, r.print_nested]
  | unary m op e =>
    change _ = '(' :: op.text.toList ++ ' ' :: e.print ++ [')']
    simp [Expr.nested, e.print_nested]
  | choose m c b as =>
    change _ = "(IF [".toList ++ c.print ++ ' ' :: b.print ++ ']' :: as.print ++ [')']
    simp [Expr.nested, c.print_nested, b.print_nested, as.print_nested]
  | count m x a b s e =>
    change _ = "(FOR ".toList ++ x.toList ++ ' ' :: a.print ++ ' ' :: b.print ++ ' ' ::
      Expr.printStep s ++ ' ' :: e.print ++ [')']
    simp [Expr.nested, a.print_nested, b.print_nested, Expr.print_nestedStep s, e.print_nested]
  | loop m c b =>
    change _ = "(WHILE ".toList ++ c.print ++ ' ' :: b.print ++ [')']
    simp [Expr.nested, c.print_nested, b.print_nested]
  | function m x ps b =>
    change _ = "(FUN ".toList ++ (x.getD anonymousName).toList ++ " (".toList ++
      (String.intercalate " " ps).toList ++ ") ".toList ++ b.print ++ [')']
    simp [Expr.nested, b.print_nested, printItems_words]
  | call m c as =>
    change _ = "(call ".toList ++ c.print ++ Expr.printAll as ++ [')']
    simp [Expr.nested, c.print_nested, Expr.print_nestedAll as]

theorem Arms.print_nested (as : Arms α) : Nested.printRest as.nested = as.print := by
  cases as with
  | done => rfl
  | otherwise b =>
    change _ = " [ELSE ".toList ++ b.print ++ [']']
    simp [Arms.nested, b.print_nested]
  | elif c b as =>
    change _ = " [".toList ++ c.print ++ ' ' :: b.print ++ ']' :: as.print
    simp [Arms.nested, c.print_nested, b.print_nested, as.print_nested]

theorem Expr.print_nestedStep (s : Option (Expr α)) :
    (Expr.nestedStep s).print = Expr.printStep s := by
  cases s with
  | none => rfl
  | some e => exact e.print_nested

theorem Expr.print_nestedAll (es : List (Expr α)) :
    Nested.printRest (Expr.nestedAll es) = Expr.printAll es := by
  cases es with
  | nil => rfl
  | cons e es =>
    change _ = ' ' :: e.print ++ Expr.printAll es
    simp [Expr.nestedAll, e.print_nested, Expr.print_nestedAll es]

end

end Print

end Minibasic
