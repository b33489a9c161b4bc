/-!
Digits, and the integer literals of the language. A literal is an optional sign, an announcement of
the radix and digits between which underscores may stand; it denotes a 64-bit integer.
-/

namespace Staged.Numeral

/-- The value of `c` as a digit, letters following the ten figures, if it is below `radix`. -/
def digit? (radix : Nat) (c : Char) : Option Nat :=
  let value :=
    if c.isDigit then c.toNat - '0'.toNat
    else if c.isLower then c.toNat - 'a'.toNat + 10
    else if c.isUpper then c.toNat - 'A'.toNat + 10
    else radix
  if value < radix then some value else none

/-- Appends the digits `cs` to the number `n`. -/
def accumulate? (radix n : Nat) (cs : List Char) : Option Nat :=
  cs.foldlM (fun n c => (digit? radix c).map (radix * n + ·)) n

/-- The number that one or more digits denote. -/
def magnitude? (radix : Nat) : List Char → Option Nat
  | [] => none
  | c :: cs => accumulate? radix 0 (c :: cs)

/-- Whether a minus sign stands in front, and the text without its sign. -/
def signed : List Char → Bool × List Char
  | '-' :: cs => (true, cs)
  | '+' :: cs => (false, cs)
  | cs => (false, cs)

/-- The announced radix, and the text without the announcement. A leading zero before anything
else announces octal digits. -/
def radixed : List Char → Nat × List Char
  | '0' :: 'x' :: cs => (16, cs)
  | '0' :: 'X' :: cs => (16, cs)
  | '0' :: 'o' :: cs => (8, cs)
  | '0' :: 'O' :: cs => (8, cs)
  | '0' :: 'b' :: cs => (2, cs)
  | '0' :: 'B' :: cs => (2, cs)
  | '0' :: c :: cs => (8, c :: cs)
  | cs => (10, cs)

/-- The 64-bit word that one or more digits denote, if a word holds their number. -/
def word? (radix : Nat) (cs : List Char) : Option UInt64 :=
  (magnitude? radix cs).bind fun m => if m < UInt64.size then some m.toUInt64 else none

/-- The integer of a sign and a magnitude, if 64 bits hold it. The least integer has a magnitude
that no other one has. -/
def ofMagnitude? (negative : Bool) (m : UInt64) : Option Int64 :=
  if negative ∧ m = Int64.minValue.toUInt64 then some Int64.minValue
  else if m ≤ Int64.maxValue.toUInt64 then some (if negative then -m.toInt64 else m.toInt64)
  else none

/-- The integer that a literal spells, if it is well formed and 64 bits hold it. -/
def integer? (text : List Char) : Option Int64 :=
  let (negative, body) := signed text
  let (radix, digits) := radixed body
  (word? radix (digits.filter (· != '_'))).bind (ofMagnitude? negative)

/-- The value of an integer literal. A malformed literal, and one beyond 64 bits, counts as zero. -/
def decode (text : String) : Int64 := (integer? text.toList).getD 0

/-- The decimal text of an integer. -/
def encode (n : Int64) : String := n.toInt.repr

end Staged.Numeral
