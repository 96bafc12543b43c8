import Minibasic.Diagnostic
import Minibasic.Token

/-!
Moving a text behind another one. Its places are then counted from the end of that one: bytes and
line feeds add up, and so do the columns of its first line.
-/

namespace Minibasic

namespace Place

/-- The place `p` of a text that starts at `start`. -/
def moved (start p : Place) : Place where
  offset := start.offset + p.offset
  line := start.line + p.line
  column := if p.line = 0 then start.column + p.column else p.column

@[simp] theorem start_moved (p : Place) : start.moved p = p := by
  simp [moved, start]

@[simp] theorem moved_start (p : Place) : p.moved start = p := by
  simp [moved, start]

theorem moved_advance (start p : Place) (c : Char) :
    (start.moved p).advance c = start.moved (p.advance c) := by
  unfold advance
  split
  · simp [moved, Nat.add_assoc]
  · by_cases hp : p.line = 0
    · simp [moved, hp, Nat.add_assoc]
    · simp [moved, hp, Nat.add_assoc]

theorem moved_advanceBy (start p : Place) (cs : List Char) :
    (start.moved p).advanceBy cs = start.moved (p.advanceBy cs) := by
  induction cs generalizing p with
  | nil => rfl
  | cons c cs ih => rw [advanceBy_cons, advanceBy_cons, moved_advance, ih]

end Place

/-- The position of a text that starts at `start` in the source `s`. -/
def Position.moved (s : Source) (start : Place) (p : Position) : Position :=
  ⟨start.moved p.toPlace, s⟩

def Span.moved (s : Source) (start : Place) (t : Span) : Span :=
  ⟨t.start.moved s start, t.stop.moved s start⟩

def Token.moved (s : Source) (start : Place) (t : Token) : Token :=
  ⟨t.lexeme, t.span.moved s start⟩

def Diagnostic.moved (s : Source) (start : Place) (d : Diagnostic) : Diagnostic :=
  { d with span := d.span.moved s start }

theorem Position.moved_advance (s : Source) (start : Place) (p : Position) (c : Char) :
    (p.moved s start).advance c = (p.advance c).moved s start :=
  congrArg (Position.mk · s) (start.moved_advance p.toPlace c)

theorem Position.moved_advanceBy (s : Source) (start : Place) (p : Position) (cs : List Char) :
    (p.moved s start).advanceBy cs = (p.advanceBy cs).moved s start :=
  congrArg (Position.mk · s) (start.moved_advanceBy p.toPlace cs)

end Minibasic
