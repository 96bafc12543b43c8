import Minibasic.Diagnostic
import Minibasic.Token

/-!
From text to tokens. At each place the longest lexeme is taken; white space between lexemes is
passed over, and the first character that starts none ends the scan.
-/

namespace Minibasic.Scan

/-- White space between tokens. -/
def isLayout (c : Char) : Bool := c = ' ' || c = '\t' || c = '\r' || c = '\n'

/-- An ASCII letter. -/
def isLetter (c : Char) : Bool := ('a' ≤ c && c ≤ 'z') || ('A' ≤ c && c ≤ 'Z')

/-- What may follow the first letter of a word. -/
def isWordChar (c : Char) : Bool := isLetter c || Decimal.isDigit c || c = '_'

/-- The character that stands for an escaped `c`. -/
def unescape (c : Char) : Char :=
  match c with
  | 'n' => '\n'
  | 't' => '\t'
  | c => c

/-- The content of a string literal whose opening quote has been read, and the number of
characters up to and with the closing quote. -/
def stringBody : List Char → Option (List Char × Nat)
  | [] => none
  | '"' :: _ => some ([], 1)
  | '\\' :: c :: cs => (stringBody cs).map fun (s, n) => (unescape c :: s, n + 2)
  | ['\\'] => none
  | c :: cs => (stringBody cs).map fun (s, n) => (c :: s, n + 1)

/-- The lexeme of digits without a point: an integer if it is in range. -/
def wholeNumber (ds : List Char) : Lexeme :=
  match int64? (Decimal.value ds) with
  | some n => .int n
  | none => .float (.ofNat (Decimal.value ds))

/-- The lexeme of digits around a point, of which `places` stand behind it. -/
def pointNumber (ds : List Char) (places : Nat) : Lexeme :=
  .float (.ofScientific (Decimal.value ds) true places)

/-- A number that starts with the digit `c`, and how many characters of `cs` belong to it. -/
def number (c : Char) (cs : List Char) : Lexeme × Nat :=
  let whole := cs.takeWhile Decimal.isDigit
  match cs.drop whole.length with
  | '.' :: rest =>
    let fraction := rest.takeWhile Decimal.isDigit
    (pointNumber (c :: whole ++ fraction) fraction.length, whole.length + 1 + fraction.length)
  | _ => (wholeNumber (c :: whole), whole.length)

/-- A keyword if the word is one. -/
def wordLexeme (word : String) : Lexeme :=
  match Keyword.ofText? word with
  | some k => .keyword k
  | none => .identifier word

/-- A word that starts with the letter `c`, and how many characters of `cs` belong to it. -/
def word (c : Char) (cs : List Char) : Lexeme × Nat :=
  let rest := cs.takeWhile isWordChar
  (wordLexeme (String.ofList (c :: rest)), rest.length)

/-- What stands at the front of a text. -/
inductive Front where
  | layout
  | lexeme (l : Lexeme)
  | fault (c : Cause)

/-- `long` if the next character is `next`, otherwise `short`. -/
def oneOrTwo (next : Char) (long short : Front) (cs : List Char) : Front × Nat :=
  if cs.head? = some next then (long, 1) else (short, 0)

/-- What stands at the front of the text `c :: cs`, and how many characters of `cs` belong to
it. -/
def front (c : Char) (cs : List Char) : Front × Nat :=
  match c with
  | '(' => (.lexeme .openParen, 0)
  | ')' => (.lexeme .closeParen, 0)
  | ',' => (.lexeme .comma, 0)
  | '+' => (.lexeme .plus, 0)
  | '*' => (.lexeme .star, 0)
  | '/' => (.lexeme .slash, 0)
  | '^' => (.lexeme .caret, 0)
  | '-' => oneOrTwo '>' (.lexeme .arrow) (.lexeme .minus) cs
  | '!' => oneOrTwo '=' (.lexeme .bangEqual) (.fault (.expectedCharacter "'=' (after '!')")) cs
  | '=' => oneOrTwo '=' (.lexeme .equalEqual) (.lexeme .equal) cs
  | '<' => oneOrTwo '=' (.lexeme .lessEqual) (.lexeme .less) cs
  | '>' => oneOrTwo '=' (.lexeme .greaterEqual) (.lexeme .greater) cs
  | '"' =>
    match stringBody cs with
    | some (s, n) => (.lexeme (.string (String.ofList s)), n)
    | none => (.fault .unterminatedString, cs.length)
  | c =>
    if isLayout c then (.layout, 0)
    else if Decimal.isDigit c then let (l, n) := number c cs; (.lexeme l, n)
    else if isLetter c then let (l, n) := word c cs; (.lexeme l, n)
    else (.fault (.illegalCharacter c), 0)

/-- The tokens of a text whose first character stands at `p`, and of which the first characters
are passed over because they belong to a token that is already read. -/
def tokensFrom : Nat → Position → List Char → Except Diagnostic (List Token)
  | _, p, [] => .ok [⟨.eof, ⟨p, p.advance ' '⟩⟩]
  | skip + 1, p, c :: cs => tokensFrom skip (p.advance c) cs
  | 0, p, c :: cs =>
    let (found, n) := front c cs
    let span : Span := ⟨p, p.advanceBy (c :: cs.take n)⟩
    match found with
    | .layout => tokensFrom n (p.advance c) cs
    | .lexeme l => (tokensFrom n (p.advance c) cs).map (⟨l, span⟩ :: ·)
    | .fault cause => .error { cause, span }

/-- The tokens of a source, the last of which is the end of the text, or the first fault. -/
def tokens (s : Source) : Except Diagnostic (List Token) :=
  tokensFrom 0 (.start s) s.text.toList

theorem tokensFrom_skip (p : Position) (n : Nat) (cs : List Char) :
    tokensFrom n p cs = tokensFrom 0 (p.advanceBy (cs.take n)) (cs.drop n) := by
  induction cs generalizing n p with
  | nil => cases n <;> rfl
  | cons c cs ih =>
    cases n with
    | zero => rfl
    | succ n => exact ih (p.advance c) n

end Minibasic.Scan
