/-!
Texts as characters with the places where they stand. A line feed, a carriage return, both together
and the next-line character end a line and are read as a line feed. The line separator and the
paragraph separator end a line too, and are read as themselves.
-/

namespace Staged.Yaml

/-- A character, with the number of its line and its number in the line. -/
structure Cell where
  char : Char
  line : Nat
  column : Nat
  deriving DecidableEq, Repr, Inhabited

abbrev Text := List Cell

def isBlank (c : Char) : Bool := c == ' ' || c == '\t'

/-- A character that ends a line of a text. -/
def isBreak (c : Char) : Bool := c == '\n' || c == '\u2028' || c == '\u2029'

def isSpace (c : Char) : Bool := isBlank c || isBreak c

/-- The characters of names. -/
def isWord (c : Char) : Bool := c.isAlphanum || c == '_' || c == '-'

/-- The characters that a text may contain. -/
def isPrintable (c : Char) : Bool :=
  ['\t', '\n', '\r', '\u0085'].contains c || (0x20 ≤ c.toNat && c.toNat ≤ 0x7e)
    || (0xa0 ≤ c.toNat && c.toNat ≤ 0xfffd) || 0x10000 ≤ c.toNat

/-- The text of some characters, the first of which stands at a place. -/
def place (line column : Nat) : List Char → Text
  | [] => []
  | '\r' :: '\n' :: cs => ⟨'\n', line, column⟩ :: place (line + 1) 0 cs
  | c :: cs =>
    let d := if c == '\r' || c == '\u0085' then '\n' else c
    ⟨d, line, column⟩ :: if isBreak d then place (line + 1) 0 cs else place line (column + 1) cs

def Text.ofString (s : String) : Text := place 0 0 s.toList

def chars (cs : Text) : List Char := cs.map Cell.char

def stringOf (cs : Text) : String := String.ofList (chars cs)

/-- Whether the next character is one of `options`. -/
def nextIn (options : List Char) (cs : Text) : Bool := cs.head?.any (options.contains ·.char)

/-- Whether a token that needs a space behind it may end before `cs`. -/
def spaced (cs : Text) : Bool := cs.head?.all (isSpace ·.char)

/-- Whether a line begins with three times `mark`, alone. -/
def isMarker (mark : Char) (cs : Text) : Bool :=
  cs.head?.any (·.column == 0) && chars (cs.take 3) == [mark, mark, mark] && spaced (cs.drop 3)

/-- Whether a document begins or ends here. -/
def atMarker (cs : Text) : Bool := isMarker '-' cs || isMarker '.' cs

def dropBlanks (cs : Text) : Text := cs.dropWhile (isBlank ·.char)

/-- Passes blanks, a comment and the end of the line. -/
def lineEnd? (cs : Text) : Option Text :=
  let rest := dropBlanks cs
  let rest := if nextIn ['#'] rest then rest.dropWhile (!isBreak ·.char) else rest
  match rest with
  | [] => some []
  | c :: rest => if isBreak c.char then some rest else none

/-- The space between two words of a scalar. -/
structure Gap where
  /-- The blanks before the first line break. -/
  blanks : List Char
  breaks : List Char
  /-- Where the next word begins. -/
  rest : Text

namespace Gap

/-- The space at the front of a text. -/
def ofText (cs : Text) : Gap where
  blanks := chars (cs.takeWhile (isBlank ·.char))
  breaks := chars ((cs.takeWhile (isSpace ·.char)).filter (isBreak ·.char))
  rest := cs.dropWhile (isSpace ·.char)

/-- What the space stands for. A line feed counts as a blank, and as nothing before further breaks.
Blanks beside a break count for nothing. -/
def fold (g : Gap) : List Char :=
  match g.breaks with
  | [] => g.blanks
  | ['\n'] => [' ']
  | '\n' :: more => more
  | breaks => breaks

end Gap

end Staged.Yaml
