import TemplateCompiler.NamingScript.Evaluator
import TemplateCompiler.Project.TomlSettings
import TemplateCompiler.Project.YamlSettings

/-!
# Settings files

Settings are read from a file in YAML or TOML, which its extension tells. A
file that nobody asked for may be missing. The naming script that settings
name is read and run here too; if that fails, partials get the names that they
have without a script.
-/

namespace TemplateCompiler

/-- Why there are no settings. -/
inductive SettingsError where
  | file (cause : FileError)
  | unsupportedFormat (extension : Bytes)
  | malformed (path reason : Bytes)
  | invalid (path : Bytes) (complaints : List Complaint)
deriving DecidableEq, Repr, Inhabited

def SettingsError.message : SettingsError → Bytes
  | .file cause => cause.message
  | .unsupportedFormat extension => "unsupported config format " ++ quoted extension
  | .malformed path reason => "decoding config file " ++ path ++ ": " ++ reason
  | .invalid path complaints =>
    "invalid config " ++ path ++ ": " ++ Complaint.messages complaints

/-- A form of settings files. -/
inductive SettingsFormat where
  | yaml | toml
deriving DecidableEq, Repr, Inhabited

/-- The form that the extension of a path tells. A path without an extension is
taken for YAML. -/
def SettingsFormat.ofPath? (path : Bytes) : Option SettingsFormat :=
  let extension := (Path.extension path).map Byte.toLower
  if extension == ".toml" then some .toml
  else if extension == ".yaml" || extension == ".yml" || extension.isEmpty then some .yaml
  else none

namespace Settings

def defaultFile : Bytes := "tmplc.yaml"

/-- Reads settings in a form over the settings in force. -/
def ofText (format : SettingsFormat) (s : Settings) (text : Bytes) : Except Bytes Settings :=
  match format with
  | .yaml => YamlSettings.ofText s text
  | .toml => TomlSettings.ofText s text

def ofContent (path content : Bytes) : Except SettingsError Settings :=
  match SettingsFormat.ofPath? path with
  | none => .error (.unsupportedFormat (Path.extension path))
  | some format =>
    match ofText format {} content with
    | .error reason => .error (.malformed path reason)
    | .ok s =>
      let s := { s with folder := Path.folder path }
      match s.complaints with
      | [] => .ok s
      | complaints => .error (.invalid path complaints)

variable {m : Type → Type} [Monad m] [FileAccess m]

/-- The settings in a file. If nobody asked for the file and it is missing, the
settings that hold where nothing is set. -/
def load (path : Bytes) (explicit : Bool) :
    m (Except SettingsError Settings × List LogRecord) := do
  match ← FileAccess.read path with
  | .ok content => pure (ofContent path content, [])
  | .error e =>
    if e.fault == .missing && !explicit then
      pure (.ok {}, [⟨.debug, "no config file, using defaults", [("path", path)]⟩])
    else pure (.error (.file e), [])

/-- The text of the naming script, empty if it cannot be read. -/
def scriptText (s : Settings) : m Bytes := do
  if s.namingScript.isEmpty then return []
  match ← FileAccess.read (s.path s.namingScript) with
  | .ok text => return text
  | .error _ => return []

def naming (s : Settings) : m (Option Naming × List LogRecord) := do
  if s.namingScript.isEmpty then return (none, [])
  let path := s.path s.namingScript
  let (result, log) ← match ← FileAccess.read path with
    | .ok text => pure (NamingScript.namer path text)
    | .error e => pure (.error ("starlark execution error: " ++ e.message), [])
  match result with
  | .ok naming => return (some naming, log)
  | .error reason =>
    return (none, log ++ [⟨.warn, "ignoring naming script",
      [("script", s.namingScript), ("error", reason)]⟩])

/-- How templates are compiled, with a naming if there is one. -/
def compileOptions (s : Settings) (naming : Option Naming) : CompileOptions :=
  let o : CompileOptions :=
    { moduleMode := s.moduleMode, reserved := s.reserved.getD [], rootName := s.rootName }
  match naming with
  | some naming => { o with naming }
  | none => o

end Settings

end TemplateCompiler
