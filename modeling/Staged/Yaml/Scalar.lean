import Staged.Text.Numeral
import Staged.Yaml.Text

/-!
Scalars in their five styles: between single or double quotes, plain, and in blocks that keep or
fold their lines. Every reader takes the text from the scalar on and returns its characters with the
text that it leaves. Readers with `fuel` read at most that many parts.
-/

namespace Staged.Yaml

inductive Style where
  | plain | quoted | literal | folded
  deriving DecidableEq, Repr, Inhabited

/-- Puts characters before those that are read. -/
def prepend (cs : List Char) (r : Option (List Char × Text)) : Option (List Char × Text) :=
  r.map fun (t, rest) => (cs ++ t, rest)

/-! ### Quotes -/

/-- The rest of a scalar after an opening single quote. A quote in the scalar is written twice. -/
def singleQuoted? : (fuel : Nat) → Text → Option (List Char × Text)
  | 0, _ => none
  | _ + 1, [] => none
  | fuel + 1, c :: cs =>
    if isSpace c.char then
      let g := Gap.ofText (c :: cs)
      if atMarker g.rest then none else prepend g.fold (singleQuoted? fuel g.rest)
    else if c.char = '\'' then
      if nextIn ['\''] cs then prepend ['\''] (singleQuoted? fuel (cs.drop 1)) else some ([], cs)
    else prepend [c.char] (singleQuoted? fuel cs)

/-- The characters with an escape of their own, each after its letter. -/
def escapes : List (Char × Char) :=
  [('0', '\x00'), ('a', '\x07'), ('b', '\x08'), ('t', '\t'), ('\t', '\t'), ('n', '\n'),
   ('v', '\x0b'), ('f', '\x0c'), ('r', '\r'), ('e', '\x1b'), (' ', ' '), ('"', '"'), ('/', '/'),
   ('\\', '\\'), ('N', '\u0085'), ('_', '\u00a0'), ('L', '\u2028'), ('P', '\u2029')]

/-- The letters before the digits of a character's number, each with the count of digits. -/
def numbered : List (Char × Nat) := [('x', 2), ('u', 4), ('U', 8)]

/-- The character that an escape denotes, after its backslash. -/
def escaped? : Text → Option (Char × Text)
  | [] => none
  | c :: cs =>
    match numbered.lookup c.char with
    | some count =>
      if cs.length < count then none
      else
        ((Numeral.magnitude? 16 (chars (cs.take count))).filter Nat.isValidChar).map fun n =>
          (Char.ofNat n, cs.drop count)
    | none => (escapes.lookup c.char).map (·, cs)

/-- The rest of a scalar after an opening double quote. After an escaped line break, blanks count
for nothing and further breaks for themselves. -/
def doubleQuoted? : (fuel : Nat) → Text → Option (List Char × Text)
  | 0, _ => none
  | _ + 1, [] => none
  | fuel + 1, c :: cs =>
    if isSpace c.char then
      let g := Gap.ofText (c :: cs)
      if atMarker g.rest then none else prepend g.fold (doubleQuoted? fuel g.rest)
    else if c.char = '"' then some ([], cs)
    else if c.char = '\\' then
      if cs.head?.any (isBreak ·.char) then
        let g := Gap.ofText (cs.drop 1)
        if atMarker g.rest then none else prepend g.breaks (doubleQuoted? fuel g.rest)
      else (escaped? cs).bind fun (d, rest) => prepend [d] (doubleQuoted? fuel rest)
    else prepend [c.char] (doubleQuoted? fuel cs)

/-! ### Plain scalars -/

/-- The characters that part a flow mapping or sequence. -/
def isFlowIndicator (c : Char) : Bool := [',', '[', ']', '\x7b', '\x7d'].contains c

/-- The characters that begin something else than a plain scalar. -/
def isIndicator (c : Char) : Bool :=
  isFlowIndicator c
    || ['-', '?', ':', '#', '&', '*', '!', '|', '>', '\'', '"', '%', '@', '\x60'].contains c

/-- The next word of a plain scalar, which may be empty. In a flow, a colon may not stand before an
indicator. -/
def word? (flow : Bool) : Text → Option (List Char × Text)
  | [] => some ([], [])
  | c :: cs =>
    if isSpace c.char || (c.char = ':' && spaced cs) then some ([], c :: cs)
    else if flow && isFlowIndicator c.char then some ([], c :: cs)
    else if flow && c.char = ':' && nextIn [',', '?', '[', ']', '\x7b', '\x7d'] cs then none
    else prepend [c.char] (word? flow cs)

structure Plain where
  text : List Char
  /-- Whether a line break stands behind the last word. -/
  broken : Bool
  rest : Text

/-- The words after the first one, with the space before each. A scalar ends before a comment,
before a marker and, outside of a flow, before a line that begins left of column `indent`. No tab
may stand left of that column. -/
def moreWords? (flow : Bool) (indent : Nat) : (fuel : Nat) → Text → Option Plain
  | 0, _ => none
  | fuel + 1, cs =>
    let g := Gap.ofText cs
    let ending := some ⟨[], !g.breaks.isEmpty, g.rest⟩
    let beside := (cs.takeWhile (isSpace ·.char)).dropWhile (isBlank ·.char)
    if beside.any fun c => c.char == '\t' && c.column < indent then none
    else if !flow && g.rest.head?.any (·.column < indent) then ending
    else if atMarker g.rest || nextIn ['#'] g.rest then ending
    else
      match word? flow g.rest with
      | none => none
      | some ([], _) => ending
      | some (word, rest) =>
        (moreWords? flow indent fuel rest).map fun p => { p with text := g.fold ++ word ++ p.text }

def plain? (flow : Bool) (indent : Nat) (cs : Text) : Option Plain :=
  (word? flow cs).bind fun (word, rest) =>
    (moreWords? flow indent (rest.length + 1) rest).map fun p => { p with text := word ++ p.text }

/-! ### Blocks -/

/-- What becomes of the line breaks at the end of a block. -/
inductive Chomping where
  | strip | clip | keep
  deriving DecidableEq, Repr, Inhabited

/-- The header of a block: how it ends, and the depth of its lines where it is given. -/
structure Header where
  chomping : Chomping := .clip
  depth : Option Nat := none
  deriving DecidableEq, Repr, Inhabited

namespace Header

def chomping? (c : Cell) : Option Chomping :=
  [('-', Chomping.strip), ('+', Chomping.keep)].lookup c.char

def depth? (c : Cell) : Option Nat :=
  if c.char.isDigit && c.char != '0' then some (c.char.toNat - '0'.toNat) else none

/-- The header, whose two marks stand in either order, up to the end of its line. -/
def ofText? (cs : Text) : Option (Header × Text) :=
  let mark := fun {α : Type} (f : Cell → Option α) (cs : Text) =>
    match cs.head?.bind f with
    | some a => (some a, cs.drop 1)
    | none => (none, cs)
  let (before, cs) := mark chomping? cs
  let (depth, cs) := mark depth? cs
  let (after, cs) := if before.isNone && depth.isSome then mark chomping? cs else (none, cs)
  (lineEnd? cs).map ({ chomping := (before.or after).getD .clip, depth }, ·)

end Header

/-- The line breaks before the first line of a block, and the greatest column among those where the
lines up to it begin. -/
def opening? : Text → Option (Nat × List Char × Text)
  | [] => some (0, [], [])
  | c :: cs =>
    if isBreak c.char then
      (opening? cs).map fun (column, breaks, rest) => (max c.column column, c.char :: breaks, rest)
    else if c.char = ' ' then opening? cs
    else if c.char = '\t' then none
    else some (c.column, [], c :: cs)

/-- The line breaks before the next line with a character at column `indent`. -/
def breaks? (indent : Nat) : Text → Option (List Char × Text)
  | [] => some ([], [])
  | c :: cs =>
    if isBreak c.char then prepend [c.char] (breaks? indent cs)
    else if indent ≤ c.column then some ([], c :: cs)
    else if c.char = ' ' then breaks? indent cs
    else if c.char = '\t' then none
    else some ([], c :: cs)

/-- The end of the line before, with the blank lines after it. -/
structure Joint where
  /-- Whether the line begins with a blank. -/
  indented : Bool := false
  /-- The line break at its end, if it has one. -/
  lineBreak : List Char := []
  breaks : List Char

namespace Joint

/-- What stands between a line and the next one. A line feed between two lines that begin with no
blank is folded as it is in a gap. -/
def fold (j : Joint) (folded indented : Bool) : List Char :=
  if folded && j.lineBreak == ['\n'] && !j.indented && !indented then
    if j.breaks.isEmpty then [' '] else j.breaks
  else j.lineBreak ++ j.breaks

def chomp (j : Joint) : Chomping → List Char
  | .strip => []
  | .clip => j.lineBreak
  | .keep => j.lineBreak ++ j.breaks

end Joint

/-- The lines of a block that begin at column `indent`, with the joint behind the last one. -/
def blockLines? (folded : Bool) (indent : Nat) :
    (fuel : Nat) → Joint → Text → Option (List Char × Joint × Text)
  | 0, _, _ => none
  | _ + 1, j, [] => some ([], j, [])
  | fuel + 1, j, c :: cs =>
    if c.column ≠ indent then some ([], j, c :: cs)
    else do
      let indented := isBlank c.char
      let line := (c :: cs).takeWhile (!isBreak ·.char)
      let rest := (c :: cs).dropWhile (!isBreak ·.char)
      let (breaks, after) ← breaks? indent (rest.drop 1)
      let next := { indented, lineBreak := chars (rest.take 1), breaks }
      let (t, last, r) ← blockLines? folded indent fuel next after
      return (j.fold folded indented ++ chars line ++ t, last, r)

/-- The rest of a block after its opening sign, where `outer` is the column of the mapping around
it. -/
def block? (folded : Bool) (outer : Option Nat) (cs : Text) : Option (List Char × Text) := do
  let (header, rest) ← Header.ofText? cs
  let (indent, breaks, rest) ←
    match header.depth with
    | some depth =>
      let indent := outer.getD 0 + depth
      let (breaks, rest) ← breaks? indent rest
      pure (indent, breaks, rest)
    | none =>
      let (column, breaks, rest) ← opening? rest
      pure (max column (max 1 ((outer.map (· + 1)).getD 0)), breaks, rest)
  let (t, last, rest) ← blockLines? folded indent (rest.length + 1) { breaks } rest
  return (t ++ last.chomp header.chomping, rest)

end Staged.Yaml
