import Staged.Settings.Document
import Staged.Yaml.Layout

/-!
Reading settings documents from tokens. A node may have an anchor and a tag before it; an alias
stands for the scalar with that anchor. Every reader takes the tokens before it and returns what it
has read with the tokens that it leaves.
-/

namespace Staged

open Yaml

/-- The scalars with anchors. Anchors are numbered, a new one by how many names there are, and a
number stands for the scalar that took it last. -/
structure Anchors where
  /-- The last number of each name. -/
  numbers : List (String × Nat) := []
  /-- The last scalar of a number comes first; a group has a number but no scalar. -/
  scalars : List (Nat × Option Scalar) := []
  deriving Repr, Inhabited

namespace Anchors

def insert (a : Anchors) (name : String) (s : Option Scalar) : Anchors where
  numbers := (name, a.numbers.length) :: a.numbers.filter (·.1 != name)
  scalars := (a.numbers.length, s) :: a.scalars

def find? (a : Anchors) (name : String) : Option Scalar :=
  (a.numbers.lookup name).bind fun number => (a.scalars.lookup number).join

end Anchors

/-- The anchor and the tag of a node. -/
structure Properties where
  anchor : Option String := none
  tag : Option String := none
  deriving DecidableEq, Repr, Inhabited

structure Reader where
  tokens : List Token
  /-- What the handles of tags stand for. -/
  handles : List (String × String)
  anchors : Anchors := {}
  deriving Repr, Inhabited

namespace Reader

/-- A tag without a handle is whole. -/
def resolve? (r : Reader) (handle suffix : String) : Option String :=
  if handle = "" then some suffix else (r.handles.lookup handle).map (· ++ suffix)

/-- An anchor and a tag, in either order, each at most once. -/
def properties? (r : Reader) : Option (Properties × Reader) :=
  match r.tokens with
  | .anchor name :: .tag handle suffix :: tokens
  | .tag handle suffix :: .anchor name :: tokens =>
    (r.resolve? handle suffix).map fun tag => ({ anchor := name, tag }, { r with tokens })
  | .anchor name :: tokens => some ({ anchor := name }, { r with tokens })
  | .tag handle suffix :: tokens =>
    (r.resolve? handle suffix).map fun tag => ({ tag }, { r with tokens })
  | _ => some ({}, r)

def define (r : Reader) (p : Properties) (s : Option Scalar) : Reader :=
  match p.anchor with
  | some name => { r with anchors := r.anchors.insert name s }
  | none => r

/-- The scalar behind its properties, which may be the empty one if it has any. The tag that is the
mark alone says no more than that there is a scalar. -/
def content? (r : Reader) (p : Properties) : Option (Scalar × Reader) :=
  match r.tokens with
  | .scalar style text :: tokens =>
    let s : Scalar := { text, style, tag := p.tag.filter (· != "!") }
    some (s, { r with tokens }.define p s)
  | _ =>
    if p = {} then none
    else
      let s : Scalar := { text := "", tag := p.tag }
      some (s, r.define p s)

def scalar? (r : Reader) : Option (Scalar × Reader) :=
  match r.tokens with
  | .alias name :: tokens => (r.anchors.find? name).map (·, { r with tokens })
  | _ => r.properties?.bind fun (p, r) => r.content? p

/-! ### Entries -/

variable {α : Type}

/-- Whether an entry ends before a token. -/
def endsEntry : Token → Bool
  | .key | .value | .mappingEnd | .flowNext | .flowEnd => true
  | _ => false

/-- The value of an entry, which may be missing with its mark or behind it. -/
def value? (absent : α) (node? : Reader → Option (α × Reader)) (r : Reader) :
    Option (α × Reader) :=
  match r.tokens with
  | .value :: tokens =>
    if tokens.head?.any endsEntry then some (absent, { r with tokens })
    else node? { r with tokens }
  | _ => some (absent, r)

/-- The entries of a block mapping after its start, less than `fuel` of them. -/
def blockEntries? (absent : α) (node? : Reader → Option (α × Reader)) :
    (fuel : Nat) → Reader → Option (List (String × α) × Reader)
  | 0, _ => none
  | fuel + 1, r =>
    match r.tokens with
    | .mappingEnd :: tokens => some ([], { r with tokens })
    | .key :: tokens => do
      let (key, r) ← scalar? { r with tokens }
      let (value, r) ← value? absent node? r
      let (entries, r) ← blockEntries? absent node? fuel r
      return ((key.text, value) :: entries, r)
    | _ => none

/-- The entries of a flow mapping after its start, less than `fuel` of them. A lone scalar is a key
without a value. -/
def flowEntries? (absent : α) (node? : Reader → Option (α × Reader)) :
    (fuel : Nat) → Reader → Option (List (String × α) × Reader)
  | 0, _ => none
  | fuel + 1, r =>
    match r.tokens with
    | .flowEnd :: tokens => some ([], { r with tokens })
    | _ => do
      let (key, value, r) ← match r.tokens with
        | .key :: tokens => do
          let (key, r) ← scalar? { r with tokens }
          let (value, r) ← value? absent node? r
          pure (key, value, r)
        | _ => r.scalar?.map fun (key, r) => (key, absent, r)
      match r.tokens with
      | .flowNext :: tokens =>
        let (entries, r) ← flowEntries? absent node? fuel { r with tokens }
        return ((key.text, value) :: entries, r)
      | .flowEnd :: tokens => return ([(key.text, value)], { r with tokens })
      | _ => none

/-- The entries of a mapping behind its properties, if there is one. -/
def entries? (absent : α) (node? : Reader → Option (α × Reader)) (r : Reader) (p : Properties) :
    Option (List (String × α) × Reader) :=
  let read := fun entries? tokens =>
    entries? absent node? r.tokens.length ({ r with tokens }.define p none)
  match r.tokens with
  | .mappingStart :: tokens => read blockEntries? tokens
  | .flowStart :: tokens => read flowEntries? tokens
  | _ => none

def item? (r : Reader) : Option (Item × Reader) :=
  match r.tokens with
  | .alias _ :: _ => r.scalar?.map fun (s, r) => (.scalar s, r)
  | _ => do
    let (p, r) ← r.properties?
    match r.tokens with
    | .mappingStart :: _ | .flowStart :: _ =>
      (r.entries? .absent scalar? p).map fun (entries, r) => (.group entries, r)
    | _ => (r.content? p).map fun (s, r) => (.scalar s, r)

/-! ### Documents -/

/-- The handles that need no directive. -/
def standardHandles : List (String × String) :=
  [("!", "!"), ("!!", Scalar.coreTag "")]

/-- What is left behind the directives, and the handles that they name, each at most once. The
version, if it is given, is given once. -/
def directives? : (versioned : Bool) → List (String × String) → List Token → Option Reader
  | versioned, handles, .version major minor :: tokens =>
    if !versioned && major = 1 && (minor = 1 || minor = 2) then directives? true handles tokens
    else none
  | versioned, handles, .handle name expansion :: tokens =>
    if (handles.lookup name).isSome then none
    else directives? versioned ((name, expansion) :: handles) tokens
  | _, handles, tokens => some { tokens, handles := handles ++ standardHandles }

/-- The start of a document: directives and a marker, or nothing. -/
def start? (tokens : List Token) : Option Reader :=
  (directives? false [] tokens).bind fun r =>
    match r.tokens with
    | .documentStart :: rest => some { r with tokens := rest }
    | _ => if r.tokens.length = tokens.length then some r else none

/-- Reads the only document of a text. -/
def document? (text : String) : Option Document := do
  let tokens ← tokens? text
  let r ← start? tokens
  let (p, r) ← r.properties?
  let (entries, r) ← r.entries? (.scalar .absent) item? p
  if r.tokens.all (· == .documentEnd) then some entries else none

end Reader

end Staged
