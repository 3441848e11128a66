import TemplateCompiler.Project.Settings
import TemplateCompiler.Yaml.Node
import TemplateCompiler.Yaml.Value

/-!
# Settings in YAML

A mapping from the names of settings to their values. Reading goes on after a
mistake, so that all of them are reported. A value of nothing leaves a setting
as it is, except that a list becomes no list.
-/

namespace TemplateCompiler

attribute [local instance (2000)] instPowNat

/-- A mistake in a settings file. -/
inductive YamlMistake where
  | unknownField (line : Nat) (name typeName : Bytes)
  | wrongType (line : Nat) (tag : Bytes) (value : Option Bytes) (typeName : Bytes)
  | repeatedKey (line : Nat) (key : Bytes) (firstLine : Nat)
deriving DecidableEq, Repr, Inhabited

namespace YamlMistake

/-- A value in a message. A long one is cut. -/
def shownValue (value : Bytes) : Bytes :=
  " `" ++ (if 10 < value.length then value.take 7 ++ "..." else value) ++ "`"

def message : YamlMistake → Bytes
  | .unknownField line name typeName =>
    "line " ++ Bytes.decimal line ++ ": field " ++ name ++ " not found in type " ++ typeName
  | .wrongType line tag value typeName =>
    "line " ++ Bytes.decimal line ++ ": cannot unmarshal " ++ tag
      ++ (value.map shownValue).getD [] ++ " into " ++ typeName
  | .repeatedKey line key firstLine =>
    "line " ++ Bytes.decimal line ++ ": mapping key " ++ quoted key ++ " already defined at line "
      ++ Bytes.decimal firstLine

def messages (mistakes : List YamlMistake) : Bytes :=
  let line (e : YamlMistake) : Bytes := "\n  " ++ e.message
  "yaml: unmarshal errors:" ++ mistakes.flatMap line

end YamlMistake

namespace YamlSettings

def kindName : SettingKind → Bytes
  | .text => "string"
  | .flag => "bool"
  | .count => "int"
  | .list => "[]string"

def settingsType : Bytes := "config.Config"

/-- The name of the table for what is done to sources. -/
def preprocessType : Bytes := "config.Preprocess"

/-- What tells keys apart: the text of a scalar, and for others only what they
are. -/
def keyOf : YamlNode → Bytes × Nat
  | .scalar _ text _ => (text, 0)
  | .list .. => ([], 1)
  | .map .. => ([], 2)

/-- The keys that come again after their first place. -/
def repeatedKeys : List (YamlNode × YamlNode) → List YamlMistake
  | [] => []
  | (first, _) :: entries =>
    let same := entries.filter fun (again, _) => keyOf again == keyOf first
    same.map (fun (again, _) => .repeatedKey again.line (keyOf first).1 first.line)
      ++ repeatedKeys entries

/-- A node where something else is needed. -/
def wrongType (node : YamlNode) (typeName : Bytes) : List YamlMistake :=
  match node with
  | .scalar line text quoted =>
    [.wrongType line (YamlValue.ofScalar text quoted).tag (some text) typeName]
  | .list line _ => [.wrongType line "!!seq" none typeName]
  | .map line entries =>
    match repeatedKeys entries with
    | [] => [.wrongType line "!!map" none typeName]
    | mistakes => mistakes

/-- The truth value that a word stands for where a truth value is needed. -/
def flagWord? (word : Bytes) : Option Bool :=
  if (["y", "Y", "yes", "on"] : List Bytes).contains word then some true
  else if (["n", "N", "no", "off"] : List Bytes).contains word then some false
  else none

/-- The integer that a number stands for. -/
def wholeNumber? : YamlValue → Option Int
  | .int n => if n < 2 ^ (63 : Nat) then some n else none
  | .float d =>
    if d.isNaN || (d.isInfinite && !d.signBit) then none
    else if d.isInfinite then some (-2 ^ (63 : Nat))
    else
      let n := d.truncate
      let least : Int := -2 ^ (63 : Nat)
      if n ≤ -least then some (if least ≤ n && n < -least then n else least) else none
  | _ => none

/-- The value of a scalar for a setting that holds no list. Nothing has no
value. -/
def scalarValue (kind : SettingKind) (node : YamlNode) :
    Except (List YamlMistake) (Option SettingValue) :=
  let wrong := Except.error (wrongType node (kindName kind))
  match node with
  | .scalar _ text quoted =>
    let value := YamlValue.ofScalar text quoted
    if value == .null then .ok none
    else
      match kind with
      | .text => .ok (some (.text text))
      | .flag =>
        match value with
        | .bool b => .ok (some (.flag b))
        | .text => (flagWord? text).elim wrong fun b => .ok (some (.flag b))
        | _ => wrong
      | .count => (wholeNumber? value).elim wrong fun n => .ok (some (.count n))
      | .list => wrong
  | _ => wrong

def itemTexts (items : List YamlNode) : List Bytes × List YamlMistake :=
  items.foldl (fun (texts, mistakes) item =>
    match scalarValue .text item with
    | .ok (some (.text text)) => (texts ++ [text], mistakes)
    | .ok _ => (texts, mistakes)
    | .error more => (texts, mistakes ++ more)) ([], [])

/-- The value of a node for a setting, if it has one, and the mistakes in
it. -/
def value (kind : SettingKind) (node : YamlNode) : Option SettingValue × List YamlMistake :=
  match kind, node with
  | .list, .list _ items =>
    let (texts, mistakes) := itemTexts items
    (some (.list (some texts)), mistakes)
  | .list, .scalar _ text quoted =>
    if YamlValue.ofScalar text quoted == .null then (some (.list none), [])
    else (none, wrongType node (kindName kind))
  | _, _ =>
    match scalarValue kind node with
    | .ok v => (v, [])
    | .error mistakes => (none, mistakes)

/-- The text of a key. An empty key names nothing. -/
def keyText (key : YamlNode) : Except (List YamlMistake) (Option Bytes) :=
  (scalarValue .text key).map fun
    | some (.text name) => some name
    | _ => none

abbrev Progress := Settings × List YamlMistake

/-- Reads an entry of a table. `others` reads what is no setting of the
table. -/
def readEntry (fields : List (Bytes × SettingField))
    (others : Progress → Nat → Bytes → YamlNode → Progress) (p : Progress)
    (entry : YamlNode × YamlNode) : Progress :=
  match keyText entry.1 with
  | .error more => (p.1, p.2 ++ more)
  | .ok none => p
  | .ok (some name) =>
    match fields.lookup name with
    | some field =>
      let (v, more) := value field.kind entry.2
      ((v.map (p.1.set field ·)).getD p.1, p.2 ++ more)
    | none => others p entry.1.line name entry.2

def readTable (fields : List (Bytes × SettingField))
    (others : Progress → Nat → Bytes → YamlNode → Progress) (typeName : Bytes) (node : YamlNode)
    (p : Progress) : Progress :=
  match node with
  | .map _ entries =>
    match repeatedKeys entries with
    | [] => entries.foldl (readEntry fields others) p
    | mistakes => (p.1, p.2 ++ mistakes)
  | .scalar _ text quoted =>
    if YamlValue.ofScalar text quoted == .null then p
    else (p.1, p.2 ++ wrongType node typeName)
  | .list .. => (p.1, p.2 ++ wrongType node typeName)

def unknown (typeName : Bytes) (p : Progress) (line : Nat) (name : Bytes) (_ : YamlNode) :
    Progress := (p.1, p.2 ++ [.unknownField line name typeName])

def read (s : Settings) (document : YamlNode) : Progress :=
  let others (p : Progress) (line : Nat) (name : Bytes) (node : YamlNode) : Progress :=
    if name == SettingField.preprocessTable then
      readTable SettingField.preprocess (unknown preprocessType) preprocessType node p
    else unknown settingsType p line name node
  readTable SettingField.plain others settingsType document (s, [])

/-- Reads the settings of a text over the settings in force, or says why that
fails. -/
def ofText (s : Settings) (bs : Bytes) : Except Bytes Settings :=
  match YamlNode.ofText bs with
  | .error e => .error e.message
  | .ok none => .ok s
  | .ok (some document) =>
    match read s document with
    | (s, []) => .ok s
    | (_, mistakes) => .error (YamlMistake.messages mistakes)

end YamlSettings

end TemplateCompiler
