import Minibasic.Text.Slice

/-!
Sources and the places in them. A place counts bytes, line feeds and characters since the last
line feed; a span runs from one position up to another.
-/

namespace Minibasic

/-- A named text. -/
structure Source where
  name : String
  text : String
deriving DecidableEq, Inhabited

/-- Bytes and line feeds before a place, and characters since the last of these line feeds. -/
structure Place where
  offset : Nat
  line : Nat
  column : Nat
deriving DecidableEq, Inhabited

namespace Place

def start : Place := ⟨0, 0, 0⟩

/-- The place just past the character `c`. -/
def advance (p : Place) (c : Char) : Place :=
  if c = '\n' then ⟨p.offset + c.utf8Size, p.line + 1, 0⟩
  else ⟨p.offset + c.utf8Size, p.line, p.column + 1⟩

/-- The place just past the characters `cs`. -/
def advanceBy (p : Place) (cs : List Char) : Place :=
  cs.foldl advance p

@[simp] theorem advanceBy_nil (p : Place) : p.advanceBy [] = p := rfl

@[simp] theorem advanceBy_cons (p : Place) (c : Char) (cs : List Char) :
    p.advanceBy (c :: cs) = (p.advance c).advanceBy cs := rfl

theorem advanceBy_append (p : Place) (cs ds : List Char) :
    p.advanceBy (cs ++ ds) = (p.advanceBy cs).advanceBy ds :=
  List.foldl_append

end Place

/-- A place together with the source it lies in. -/
structure Position extends Place where
  source : Source
deriving DecidableEq, Inhabited

namespace Position

def start (s : Source) : Position := ⟨.start, s⟩

def advance (p : Position) (c : Char) : Position := ⟨p.toPlace.advance c, p.source⟩

def advanceBy (p : Position) (cs : List Char) : Position := ⟨p.toPlace.advanceBy cs, p.source⟩

/-- Positions coincide if they have the same offset in equal sources. -/
def coincides (p q : Position) : Bool :=
  p.offset == q.offset && p.source == q.source

/-- The text `File NAME, line N`, counting lines from one. -/
def text (p : Position) : String :=
  "File " ++ p.source.name ++ ", line " ++ toString (p.line + 1)

end Position

/-- From `start` up to `stop`, `stop` not included. -/
structure Span where
  start : Position
  stop : Position
deriving DecidableEq, Inhabited

namespace Span

/-- From the start of `s` to the stop of `t`. -/
def join (s t : Span) : Span := ⟨s.start, t.stop⟩

def isEmpty (s : Span) : Bool := s.start.coincides s.stop

def coincides (s t : Span) : Bool := s.start.coincides t.start && s.stop.coincides t.stop

/-- The source text under the span, empty if the span is reversed, leaves the source or cuts a
character. The source is that of the start. -/
def text (s : Span) : String :=
  String.ofList ((Text.slice s.start.source.text.toList s.start.offset s.stop.offset).getD [])

end Span

end Minibasic
