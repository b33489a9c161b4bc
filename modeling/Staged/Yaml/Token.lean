import Staged.Yaml.Scalar

/-!
Tokens: the marks, names, tags and scalars that make up a document. Sequences have no tokens,
because nothing that is read here may hold one. Block mappings have no marks of their own: their
tokens stand for changes of indentation.
-/

namespace Staged.Yaml

inductive Token where
  /-- The directive that names the version of the format. -/
  | version (major minor : Nat)
  /-- The directive that names what a tag handle stands for. -/
  | handle (name expansion : String)
  | documentStart | documentEnd
  | mappingStart | mappingEnd
  | flowStart | flowEnd | flowNext
  | key | value
  | anchor (name : String)
  | alias (name : String)
  | tag (handle suffix : String)
  | scalar (style : Style) (text : String)
  deriving DecidableEq, Repr, Inhabited

namespace Token

/-- The name of an anchor, after its sign. -/
def name? (cs : Text) : Option (String × Text) :=
  let word := cs.takeWhile (isWord ·.char)
  let rest := cs.dropWhile (isWord ·.char)
  let ends := spaced rest || nextIn ['?', ':', ',', ']', '\x7d', '%', '@', '\x60'] rest
  if !word.isEmpty && ends then some (stringOf word, rest) else none

/-! ### Tags -/

def isUriMark (c : Char) : Bool :=
  [';', '/', '?', ':', '@', '&', '=', '+', '$', '.', '!', '~', '*', '\'', '(', ')'].contains c

/-- How many octets follow the first one of a character. -/
def following? (octet : Nat) : Option Nat :=
  if octet < 0x80 then some 0
  else if octet / 0x20 = 6 then some 1
  else if octet / 0x10 = 14 then some 2
  else if octet / 0x8 = 30 then some 3
  else none

/-- The part of a tag at the front of a text, which may be empty. Octets are spelled by a percent
sign and two digits, and each counts as a character; `due` more of them have to follow. -/
def uri? (flowMarks : Bool) : (due : Nat) → Text → Option (List Char × Text)
  | 0, [] => some ([], [])
  | _ + 1, [] => none
  | due, c :: cs =>
    if c.char = '%' then
      match cs with
      | a :: b :: rest => do
        let octet := 16 * (← Numeral.digit? 16 a.char) + (← Numeral.digit? 16 b.char)
        let due ← if due = 0 then following? octet
          else if octet / 0x40 = 2 then some (due - 1) else none
        prepend [Char.ofNat octet] (uri? flowMarks due rest)
      | _ => none
    else if due ≠ 0 then none
    else if isWord c.char || isUriMark c.char || (flowMarks && [',', '[', ']'].contains c.char) then
      prepend [c.char] (uri? flowMarks 0 cs)
    else some ([], c :: cs)

/-- A part of a tag as a text, which ends before a null character. -/
def uriText (cs : List Char) : String := String.ofList (cs.takeWhile (· != '\x00'))

/-- A part of a tag that is not empty. -/
def someUri? (flowMarks : Bool) (cs : Text) : Option (String × Text) :=
  (uri? flowMarks 0 cs).bind fun (t, rest) =>
    if rest.length < cs.length then some (uriText t, rest) else none

/-- A tag after its exclamation mark, as a handle and a suffix: a whole tag between angle brackets,
which has no handle, a tag with a named handle, or a suffix alone. The mark alone is a tag too. -/
def tagParts? : Text → Option (String × String × Text)
  | c :: cs =>
    let rest := (c :: cs).dropWhile (isWord ·.char)
    if c.char = '<' then do
      let (suffix, rest) ← someUri? true cs
      if nextIn ['>'] rest then some ("", suffix, rest.drop 1) else none
    else if nextIn ['!'] rest then do
      let (suffix, after) ← someUri? false (rest.drop 1)
      some ("!" ++ stringOf ((c :: cs).takeWhile (isWord ·.char)) ++ "!", suffix, after)
    else do
      let (suffix, rest) ← uri? false 0 (c :: cs)
      let suffix := uriText suffix
      if suffix.isEmpty then some ("", "!", rest) else some ("!", suffix, rest)
  | [] => some ("", "!", [])

def tag? (flow : Bool) (cs : Text) : Option (Token × Text) := do
  let (head, suffix, rest) ← tagParts? cs
  if spaced rest || (flow && nextIn [','] rest) then some (.tag head suffix, rest) else none

/-! ### Directives -/

/-- A number of at most nine digits. -/
def number? (cs : Text) : Option (Nat × Text) := do
  let digits := cs.takeWhile (·.char.isDigit)
  if 9 < digits.length then none
  let n ← Numeral.magnitude? 10 (chars digits)
  return (n, cs.dropWhile (·.char.isDigit))

def version? (cs : Text) : Option (Token × Text) := do
  let (major, rest) ← number? (dropBlanks cs)
  if !nextIn ['.'] rest then none
  let (minor, rest) ← number? (rest.drop 1)
  return (.version major minor, rest)

def handle? (cs : Text) : Option (Token × Text) := do
  let cs := dropBlanks cs
  if !nextIn ['!'] cs then none
  let word := (cs.drop 1).takeWhile (isWord ·.char)
  let rest := (cs.drop 1).dropWhile (isWord ·.char)
  let name := "!" ++ stringOf word ++ if nextIn ['!'] rest then "!" else ""
  if !word.isEmpty && !nextIn ['!'] rest then none
  let rest := if nextIn ['!'] rest then rest.drop 1 else rest
  if !nextIn [' ', '\t'] rest then none
  let (expansion, rest) ← someUri? true (dropBlanks rest)
  if spaced rest then some (.handle name expansion, rest) else none

/-- A directive after its percent sign, with its whole line. -/
def directive? (cs : Text) : Option (Token × Text) := do
  let rest := cs.dropWhile (isWord ·.char)
  if !spaced rest then none
  let (token, rest) ← match stringOf (cs.takeWhile (isWord ·.char)) with
    | "YAML" => version? rest
    | "TAG" => handle? rest
    | _ => none
  return (token, ← lineEnd? rest)

end Token

end Staged.Yaml
