import TemplateCompiler.Text.Inline
import TemplateCompiler.Text.Quoted
import TemplateCompiler.Yaml.Value

/-!
# TOML documents

The settings of a project may be written in TOML: a line holds a key and its
value, or a header that opens the table of the keys below it. A document is the
list of its keys, headers included, in the order in which they stand, and of
what they stand for. A key is defined once.
-/

namespace TemplateCompiler

/-- A value of a TOML document. The contents of tables are kept by the keys of
the document. -/
inductive TomlValue where
  | text (value : Bytes)
  | flag (value : Bool)
  | integer (value : Int)
  | array (items : List TomlValue)
  | table
deriving Repr, Inhabited

/-- A key: the table that it is in, if any, and its name. -/
abbrev TomlKey := List Bytes

def TomlKey.shown (key : TomlKey) : Bytes := Bytes.join [Byte.dot] key

/-- Why a text is no TOML document. -/
structure TomlError where
  line : Nat
  lastKey : Bytes
  reason : Bytes
deriving DecidableEq, Repr, Inhabited

def TomlError.message (e : TomlError) : Bytes :=
  let key : Bytes := if e.lastKey.isEmpty then [] else " (last key " ++ quoted e.lastKey ++ ")"
  "toml: line " ++ Bytes.decimal e.line ++ key ++ ": " ++ e.reason

/-- A key or a header, what it stands for, and its line. -/
structure TomlEntry where
  key : TomlKey
  value : TomlValue
  line : Nat
deriving Repr, Inhabited

namespace TomlValue

/-- The letters behind a backslash that stand for a byte. -/
def escapes : List (UInt8 × UInt8) :=
  [(0x62, 0x08), (0x74, 0x09), (0x6e, 0x0a), (0x66, 0x0c), (0x72, 0x0d), (0x22, 0x22),
    (0x5c, 0x5c)]

def word? (word : Bytes) : Option TomlValue :=
  if word == "true" then some (.flag true)
  else if word == "false" then some (.flag false)
  else (YamlValue.int? (word.filter (· != Byte.underscore))).map .integer

/-- Reads a value that is no array. -/
def simple? (bs : Bytes) : Option (TomlValue × Bytes) :=
  match bs with
  | Byte.quote :: rest => (Inline.quoted escapes rest).map fun (s, rest) => (.text s, rest)
  | Byte.apostrophe :: rest =>
    match rest.span (· != Byte.apostrophe) with
    | (s, _ :: rest) => some (.text s, rest)
    | (_, []) => none
  | _ =>
    let (word, rest) := bs.span fun b =>
      Byte.isNamePart b || b == Byte.minus || b == Byte.plus
    (word? word).map (·, rest)

def read? (bs : Bytes) : Option (TomlValue × Bytes) :=
  match bs with
  | Byte.openBracket :: rest =>
    (Inline.items simple? (rest.length + 1) rest).map fun (items, rest) => (.array items, rest)
  | _ => simple? bs

end TomlValue

namespace TomlDocument

/-- A byte of a name. -/
def isBare (b : UInt8) : Bool := Byte.isNamePart b && b != Byte.dollar || b == Byte.minus

/-- Reads a header behind its bracket. -/
def header (line : Nat) (bs : Bytes) : Except TomlError TomlEntry :=
  let (name, rest) := (bs.dropWhile Byte.isBlank).span isBare
  match rest.dropWhile Byte.isBlank with
  | Byte.closeBracket :: rest =>
    if name.isEmpty then
      .error ⟨line, [], "unexpected end of table name (table names cannot be empty)"⟩
    else if Inline.isRest rest then .ok ⟨[name], .table, line⟩
    else .error ⟨line, name, "expected a top-level item to end with a newline, comment, or EOF"⟩
  | _ => .error ⟨line, [], "expected '.' or ']' to end table name"⟩

/-- Reads a key and its value in a table. -/
def entry (table : TomlKey) (line : Nat) (bs : Bytes) : Except TomlError TomlEntry :=
  let (name, rest) := bs.span isBare
  let key := table ++ [name]
  match rest.dropWhile Byte.isBlank with
  | Byte.equals :: rest =>
    match TomlValue.read? (rest.dropWhile Byte.isBlank) with
    | some (value, rest) =>
      if Inline.isRest rest then .ok ⟨key, value, line⟩
      else
        .error ⟨line, TomlKey.shown key,
          "expected a top-level item to end with a newline, comment, or EOF"⟩
    | none => .error ⟨line, TomlKey.shown key, "expected value"⟩
  | _ => .error ⟨line, TomlKey.shown table, "expected '.' or '='"⟩

/-- Reads lines behind those that stand for some entries. -/
def read (before : List TomlEntry) (table : TomlKey) :
    List (Nat × Bytes) → Except TomlError (List TomlEntry)
  | [] => .ok before
  | (line, bs) :: lines => do
    let e ← match bs.dropWhile Byte.isBlank with
      | Byte.openBracket :: rest => header line rest
      | content => entry table line content
    if before.any (·.key == e.key) then
      throw ⟨line, TomlKey.shown e.key,
        "Key '" ++ TomlKey.shown e.key ++ "' has already been defined."⟩
    read (before ++ [e]) (match e.value with | .table => e.key | _ => table) lines

def ofText (bs : Bytes) : Except TomlError (List TomlEntry) := read [] [] (Inline.lines bs)

end TomlDocument

end TemplateCompiler
