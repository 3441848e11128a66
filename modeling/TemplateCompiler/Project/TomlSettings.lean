import TemplateCompiler.Project.Settings
import TemplateCompiler.Toml.Document

/-!
# Settings in TOML

Settings are keys of a TOML document, and case does not matter in their names.
A value of the wrong type ends the reading. Keys that are no settings are
reported together, headers of tables included.
-/

namespace TemplateCompiler

namespace TomlSettings

def valueType : TomlValue → Bytes
  | .text _ => "string"
  | .flag _ => "bool"
  | .integer _ => "int64"
  | .array _ => "[]interface \x7b\x7d"
  | .table => "map[string]interface \x7b\x7d"

def kindName : SettingKind → Bytes
  | .text => "string"
  | .flag => "boolean"
  | .count => "integer"
  | .list => "slice"

/-- The wording for a value of the wrong type. -/
def incompatible (entry : TomlEntry) (value : TomlValue) (wanted : SettingKind) : Bytes :=
  TomlError.message ⟨entry.line, TomlKey.shown entry.key,
    "incompatible types: TOML value has type " ++ valueType value
      ++ "; destination has type " ++ kindName wanted⟩

def itemTexts (entry : TomlEntry) : List TomlValue → Except Bytes (List Bytes)
  | [] => .ok []
  | .text text :: items => (itemTexts entry items).map (text :: ·)
  | item :: _ => .error (incompatible entry item .text)

def value (kind : SettingKind) (entry : TomlEntry) (v : TomlValue) : Except Bytes SettingValue :=
  match kind, v with
  | .text, .text text => .ok (.text text)
  | .flag, .flag b => .ok (.flag b)
  | .count, .integer n => .ok (.count n)
  | .list, .array items => (itemTexts entry items).map fun texts => .list (some texts)
  | _, _ => .error (incompatible entry v kind)

/-- A code point without its case, as far as letters of settings are concerned.
The long s and the sign of kelvins are letters of other cases too. -/
def caseless (code : Nat) : Nat :=
  if 0x41 ≤ code && code ≤ 0x5a then code + 0x20
  else if code == 0x17f then 0x73
  else if code == 0x212a then 0x6b
  else code

/-- Whether two names differ in case only. -/
def sameName (a b : Bytes) : Bool :=
  (Utf8.points a).map caseless == (Utf8.points b).map caseless

/-- The setting with a name. A name in the right case wins. -/
def lookup (fields : List (Bytes × SettingField)) (name : Bytes) : Option SettingField :=
  match fields.lookup name with
  | some field => some field
  | none => (fields.find? fun f => sameName f.1 name).map Prod.snd

/-- Whether a name is that of the table of settings in the document. -/
def isTable (name : Bytes) : Bool := sameName name SettingField.preprocessTable

def fieldOf (key : TomlKey) : Option SettingField :=
  match key with
  | [name] => lookup SettingField.plain name
  | [table, name] => if isTable table then lookup SettingField.preprocess name else none
  | _ => none

def isKnown (key : TomlKey) : Bool := (fieldOf key).isSome || (key.length == 1 && key.all isTable)

/-- Reads what a key stands for over the settings in force. -/
def readEntry (s : Settings) (entry : TomlEntry) : Except Bytes Settings :=
  match fieldOf entry.key, entry.value with
  | some field, v => (value field.kind entry v).map (s.set field)
  | none, .table => .ok s
  | none, v =>
    if isKnown entry.key then
      .error (TomlError.message ⟨entry.line, TomlKey.shown entry.key,
        "type mismatch for config.Preprocess: expected table but found " ++ valueType v⟩)
    else .ok s

/-- Reads the settings of a text over the settings in force, or says why that
fails. -/
def ofText (s : Settings) (bs : Bytes) : Except Bytes Settings :=
  match TomlDocument.ofText bs with
  | .error e => .error e.message
  | .ok entries =>
    match entries.foldlM readEntry s, (entries.map TomlEntry.key).filter (!isKnown ·) with
    | .error reason, _ => .error reason
    | .ok s, [] => .ok s
    | .ok _, unknown => .error ("unknown keys: " ++ Bytes.join ", " (unknown.map TomlKey.shown))

end TomlSettings

end TemplateCompiler
