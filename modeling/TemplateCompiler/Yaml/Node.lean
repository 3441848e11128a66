import TemplateCompiler.Text.Inline

/-!
# YAML nodes

The tree of a YAML document in block style: mappings and lists, one entry or
item a line, and on a line scalars and lists in brackets. Every node knows the
line it starts on. A value that is left out is an empty plain scalar.
-/

namespace TemplateCompiler

/-- A node of a YAML document. -/
inductive YamlNode where
  | scalar (line : Nat) (text : Bytes) (quoted : Bool)
  | list (line : Nat) (items : List YamlNode)
  | map (line : Nat) (entries : List (YamlNode × YamlNode))
deriving Repr, Inhabited

/-- Why YAML text cannot be read. -/
structure YamlSyntaxError where
  line : Nat
  reason : Bytes
deriving DecidableEq, Repr, Inhabited

def YamlSyntaxError.message (e : YamlSyntaxError) : Bytes :=
  "yaml: line " ++ Bytes.decimal e.line ++ ": " ++ e.reason

namespace YamlNode

def line : YamlNode → Nat
  | .scalar line .. | .list line _ | .map line _ => line

/-! ### What stands on a line -/

/-- The letters behind a backslash that stand for a byte. -/
def escapes : List (UInt8 × UInt8) :=
  [(0x30, 0x00), (0x61, 0x07), (0x62, 0x08), (0x74, 0x09), (0x6e, 0x0a), (0x76, 0x0b),
    (0x66, 0x0c), (0x72, 0x0d), (0x65, 0x1b), (0x20, 0x20), (0x22, 0x22), (0x2f, 0x2f),
    (0x5c, 0x5c)]

/-- Reads text in single quotes behind the first one. A quote in it is
doubled. -/
def singleQuoted : Bytes → Option (Bytes × Bytes)
  | [] => none
  | Byte.apostrophe :: Byte.apostrophe :: rest => do
    let (text, after) ← singleQuoted rest
    some (Byte.apostrophe :: text, after)
  | Byte.apostrophe :: rest => some ([], rest)
  | b :: rest => do
    let (text, after) ← singleQuoted rest
    some (b :: text, after)

/-- The number of bytes of a plain scalar in front of one of some bytes or a
comment. -/
def plainLength (stops : UInt8 → Bool) (afterBlank : Bool) : Bytes → Nat
  | [] => 0
  | b :: rest =>
    if stops b || (b == Byte.hash && afterBlank) then 0
    else plainLength stops (Byte.isBlank b) rest + 1

/-- Reads a scalar. A plain one ends in front of one of some bytes. -/
def scalar? (line : Nat) (stops : UInt8 → Bool) (bs : Bytes) : Option (YamlNode × Bytes) :=
  let inQuotes : Bytes × Bytes → YamlNode × Bytes := fun (text, rest) =>
    (.scalar line text true, rest)
  match bs with
  | Byte.quote :: rest => (Inline.quoted escapes rest).map inQuotes
  | Byte.apostrophe :: rest => (singleQuoted rest).map inQuotes
  | _ =>
    let text := Bytes.trimEnd Byte.isBlank (bs.take (plainLength stops true bs))
    some (.scalar line text false, bs.drop text.length)

/-- Reads a scalar or a list in brackets. -/
def inline? (line : Nat) (bs : Bytes) : Option (YamlNode × Bytes) :=
  match bs with
  | Byte.openBracket :: rest => do
    let item := scalar? line fun b => b == Byte.comma || b == Byte.closeBracket
    let (items, rest) ← Inline.items item (rest.length + 1) rest
    some (.list line items, rest)
  | _ => scalar? line (fun _ => false) bs

def inline (line : Nat) (bs : Bytes) : Except YamlSyntaxError YamlNode :=
  if Inline.isRest bs then .ok (.scalar line [] false)
  else
    match inline? line (bs.dropWhile Byte.isBlank) with
    | some (node, rest) =>
      if Inline.isRest rest then .ok node else .error ⟨line, "did not find expected key"⟩
    | none => .error ⟨line, "found unexpected end of stream"⟩

/-- Cuts a line behind its key, if it has one. A blank or the end of the line
follows the colon. -/
def key? (line : Nat) (bs : Bytes) : Option (YamlNode × Bytes) := do
  let (key, rest) ← scalar? line (· == Byte.colon) bs
  match rest.dropWhile Byte.isBlank with
  | Byte.colon :: rest => if rest.head?.all Byte.isBlank then some (key, rest) else none
  | _ => none

/-! ### Blocks -/

/-- A line with its number and the column of its first character. -/
structure Line where
  number : Nat
  column : Nat
  content : Bytes

namespace Line

def of (number : Nat) (bs : Bytes) : Line :=
  let content := bs.dropWhile (· == Byte.space)
  ⟨number, bs.length - content.length, content⟩

/-- What stands behind the dash of an item. -/
def item? (l : Line) : Option Bytes :=
  match l.content with
  | Byte.minus :: rest => if rest.head?.all Byte.isBlank then some rest else none
  | _ => none

/-- Cuts lines in front of those that a part of a block starts with: those in
the column of the first one that are items as it is, or are not. -/
def parts (column : Nat) (items : Bool) (ls : List Line) : List (Line × List Line) :=
  (ls.foldr (fun l (below, parts) =>
    if l.column == column && l.item?.isSome == items then ([], (l, below) :: parts)
    else (l :: below, parts)) ([], [])).2

end Line

mutual

/-- The node of a block. `fuel` bounds how deep blocks nest. -/
def block (fuel : Nat) (first : Line) (ls : List Line) : Except YamlSyntaxError YamlNode :=
  match fuel with
  | 0 => .ok (.scalar first.number [] false)
  | fuel + 1 => do
    let isList := first.item?.isSome
    let parts := Line.parts first.column isList (first :: ls)
    if isList then
      return .list first.number (← parts.mapM fun (l, below) =>
        value fuel l.number (l.item?.getD []) below)
    else if parts.length == 1 && (key? first.number first.content).isNone then
      inline first.number first.content
    else
      return .map first.number (← parts.mapM fun (l, below) =>
        match key? l.number l.content with
        | some (key, rest) => return (key, ← value fuel l.number rest below)
        | none => .error ⟨l.number, "could not find expected ':'"⟩)

/-- The node of what follows a key or a dash: the rest of the line, or the lines
below. -/
def value (fuel : Nat) (line : Nat) (bs : Bytes) (below : List Line) :
    Except YamlSyntaxError YamlNode :=
  match fuel, below with
  | fuel + 1, first :: ls =>
    if Inline.isRest bs then block fuel first ls
    else .error ⟨first.number, "did not find expected key"⟩
  | _, _ => inline line bs

end

/-- The tree of a text, if it says something. -/
def ofText (bs : Bytes) : Except YamlSyntaxError (Option YamlNode) :=
  match (Inline.lines bs).map fun (number, line) => Line.of number line with
  | [] => .ok none
  | first :: ls => (block (2 * ls.length + 2) first ls).map some

end YamlNode

end TemplateCompiler
