import Staged.Yaml.Token

/-!
From a text to its tokens. Three things decide what a mark means: the columns of the open block
mappings, how many flow mappings are open, and whether a key may stand at a place. A key is known as
one only by the colon behind it, so the place of a possible key is kept until then, and a key token
is put there afterwards.
-/

namespace Staged.Yaml

/-- A place where a key may begin. -/
structure PossibleKey where
  /-- The number of tokens before it. -/
  index : Nat
  line : Nat
  column : Nat
  /-- Nothing but a key may begin at the column of a block mapping. -/
  required : Bool
  deriving DecidableEq, Repr, Inhabited

/-- A key and its colon stand on one line, and not far apart. -/
def PossibleKey.isStale (k : PossibleKey) (c : Cell) : Bool :=
  k.line < c.line || k.column + 1024 < c.column

structure Layout where
  tokens : Array Token := #[]
  /-- The columns of the open block mappings, the innermost first. -/
  columns : List Nat := []
  key : Option PossibleKey := none
  /-- The possible keys around each open flow mapping, the innermost first. -/
  outer : List (Option PossibleKey) := []
  keyAllowed : Bool := true
  deriving Inhabited

namespace Layout

def isFlow (l : Layout) : Bool := !l.outer.isEmpty

def push (l : Layout) (t : Token) : Layout := { l with tokens := l.tokens.push t }

/-- Closes the block mappings whose columns satisfy `p`, up to the first that does not. Indentation
has no meaning in a flow. -/
def closeWhile (l : Layout) (p : Nat → Bool) : Layout :=
  if l.isFlow then l
  else
    { l with
      tokens := l.tokens ++ Array.replicate (l.columns.takeWhile p).length .mappingEnd
      columns := l.columns.dropWhile p }

/-- Opens a block mapping at a column, unless there is one. -/
def openMapping (l : Layout) (index column : Nat) : Layout :=
  if l.isFlow || l.columns.head?.any (column ≤ ·) then l
  else
    { l with
      tokens := l.tokens.insertIdxIfInBounds index .mappingStart
      columns := column :: l.columns }

def forgetKey? (l : Layout) : Option Layout :=
  if l.key.any (·.required) then none else some { l with key := none }

/-- Forgets the possible keys that are too far from `c`. -/
def forgetStale? (l : Layout) (c : Cell) : Option Layout := do
  let check := fun (key : Option PossibleKey) =>
    if key.any (·.isStale c) then (if key.any (·.required) then none else some none) else some key
  return { l with key := ← check l.key, outer := ← l.outer.mapM check }

/-- Keeps the place of `c` as a possible key, if a key may stand there. -/
def keepKey? (l : Layout) (c : Cell) : Option Layout :=
  if !l.keyAllowed then some l
  else
    l.forgetKey?.map fun l =>
      let required := !l.isFlow && l.columns.head? == some c.column
      { l with key := some ⟨l.tokens.size, c.line, c.column, required⟩ }

/-! ### Marks -/

/-- A marker or a directive, which ends the document before it. -/
def pushBoundary? (l : Layout) (t : Token) : Option Layout :=
  (l.closeWhile fun _ => true).forgetKey?.map fun l => { l with keyAllowed := false }.push t

def startFlow? (l : Layout) (c : Cell) : Option Layout :=
  (l.keepKey? c).map fun l =>
    { l with key := none, outer := l.key :: l.outer, keyAllowed := true }.push .flowStart

def endFlow? (l : Layout) : Option Layout := do
  let l ← l.forgetKey?
  match l.outer with
  | key :: outer => return { l with key, outer, keyAllowed := false }.push .flowEnd
  | [] => none

def pushNext? (l : Layout) : Option Layout :=
  l.forgetKey?.map fun l => { l with keyAllowed := true }.push .flowNext

/-- The mark of a key, which makes a block mapping and needs no colon on its line. -/
def pushKey? (l : Layout) (c : Cell) : Option Layout :=
  if !l.isFlow && !l.keyAllowed then none
  else
    (l.openMapping l.tokens.size c.column).forgetKey?.map fun l =>
      { l with keyAllowed := !l.isFlow }.push .key

/-- The mark of a value. Its key begins at the possible key, or else has a mark of its own. -/
def pushValue? (l : Layout) (c : Cell) : Option Layout :=
  match l.key with
  | some k =>
    let l := { l with tokens := l.tokens.insertIdxIfInBounds k.index .key, key := none }
    some ({ l.openMapping k.index k.column with keyAllowed := false }.push .value)
  | none =>
    if !l.isFlow && !l.keyAllowed then none
    else
      some ({ l.openMapping l.tokens.size c.column with keyAllowed := !l.isFlow }.push .value)

/-! ### Names and scalars -/

/-- A token at `c` that may be a key or belong to one. -/
def pushKept? (l : Layout) (c : Cell) (t : Token) : Option Layout :=
  (l.keepKey? c).map fun l => { l with keyAllowed := false }.push t

/-- A plain scalar may end on a line of its own, and then a key may follow. -/
def plain? (l : Layout) (c : Cell) (cs : Text) : Option (Layout × Text) := do
  let p ← Yaml.plain? l.isFlow ((l.columns.head?.map (· + 1)).getD 0) (c :: cs)
  let l ← l.pushKept? c (.scalar .plain (String.ofList p.text))
  return ({ l with keyAllowed := p.broken }, p.rest)

def quoted? (l : Layout) (c : Cell) (r : Option (List Char × Text)) : Option (Layout × Text) := do
  let (t, rest) ← r
  return (← l.pushKept? c (.scalar .quoted (String.ofList t)), rest)

def block? (l : Layout) (folded : Bool) (cs : Text) : Option (Layout × Text) := do
  let (t, rest) ← Yaml.block? folded l.columns.head? cs
  let l ← l.forgetKey?
  let style := if folded then .folded else .literal
  return ({ l with keyAllowed := true }.push (.scalar style (String.ofList t)), rest)

/-- The token that begins at `c`. -/
def read? (l : Layout) (c : Cell) (cs : Text) : Option (Layout × Text) :=
  if c.column = 0 && c.char = '%' then do
    let (t, rest) ← Token.directive? cs
    return (← l.pushBoundary? t, rest)
  else if isMarker '-' (c :: cs) then (l.pushBoundary? .documentStart).map (·, cs.drop 2)
  else if isMarker '.' (c :: cs) then (l.pushBoundary? .documentEnd).map (·, cs.drop 2)
  else
    match c.char with
    | '\x7b' => (l.startFlow? c).map (·, cs)
    | '\x7d' => l.endFlow?.map (·, cs)
    | ',' => l.pushNext?.map (·, cs)
    | '-' => if spaced cs then none else l.plain? c cs
    | '?' => if l.isFlow || spaced cs then (l.pushKey? c).map (·, cs) else l.plain? c cs
    | ':' => if l.isFlow || spaced cs then (l.pushValue? c).map (·, cs) else l.plain? c cs
    | '&' => do
      let (name, rest) ← Token.name? cs
      return (← l.pushKept? c (.anchor name), rest)
    | '*' => do
      let (name, rest) ← Token.name? cs
      return (← l.pushKept? c (.alias name), rest)
    | '!' => do
      let (t, rest) ← Token.tag? l.isFlow cs
      return (← l.pushKept? c t, rest)
    | '|' => if l.isFlow then none else l.block? false cs
    | '>' => if l.isFlow then none else l.block? true cs
    | '\'' => l.quoted? c (singleQuoted? (cs.length + 1) cs)
    | '"' => l.quoted? c (doubleQuoted? (cs.length + 1) cs)
    | d => if isSpace d || isIndicator d then none else l.plain? c cs

/-! ### Between tokens -/

/-- Passes space and comments, and tells whether a key may follow. A line break outside of a flow
allows it. Where a key may stand in a block, a tab may not. A byte order mark may begin a line. -/
def pass (flow : Bool) : (allowed comment : Bool) → Text → Bool × Text
  | allowed, _, [] => (allowed, [])
  | allowed, comment, c :: cs =>
    if isBreak c.char then pass flow (allowed || !flow) false cs
    else if comment then pass flow allowed true cs
    else if c.char = ' ' || (c.char = '\t' && (flow || !allowed)) then pass flow allowed false cs
    else if c.char = '\ufeff' && c.column = 0 then pass flow allowed false cs
    else if c.char = '#' then pass flow allowed true cs
    else (allowed, c :: cs)

/-- The tokens of a text of less than `fuel` characters. -/
def tokensFrom? : (fuel : Nat) → Layout → Text → Option (List Token)
  | 0, _, _ => none
  | fuel + 1, l, cs =>
    match pass l.isFlow l.keyAllowed false cs with
    | (_, []) => l.forgetKey?.map fun l => (l.closeWhile fun _ => true).tokens.toList
    | (keyAllowed, c :: rest) =>
      match { l with keyAllowed }.forgetStale? c with
      | none => none
      | some l =>
        match (l.closeWhile (c.column < ·)).read? c rest with
        | none => none
        | some (l, rest) => tokensFrom? fuel l rest

end Layout

/-- The tokens of a text, if it has no characters but printable ones. -/
def tokens? (s : String) : Option (List Token) :=
  if s.toList.all isPrintable then
    let cs := Text.ofString s
    Layout.tokensFrom? (cs.length + 1) {} cs
  else none

end Staged.Yaml
