import TemplateCompiler.Digest.Packed
import TemplateCompiler.Project.Check
import TemplateCompiler.Project.Partials
import TemplateCompiler.Script.Output

/-!
# Settings of a project

What can be set for a project, with the values that hold where nothing is set.
Settings come from a file, and relative paths in them start from the folder of
that file.
-/

namespace TemplateCompiler

/-- The settings of a project. -/
structure Settings where
  /-- The folder of the partials. -/
  views : Bytes := []
  /-- The extensions of template files. -/
  extensions : List Bytes := [LoadOptions.defaultExtension]
  /-- Whether each partial becomes a unit of its own. -/
  moduleMode : Bool := false
  /-- Whether each unit gets a file of its own. -/
  splitModules : Bool := false
  /-- Whether functions are exported. -/
  exported : Bool := true
  /-- Names that are never inputs, if a list of them is given. -/
  reserved : Option (List Bytes) := none
  /-- The name of the root function. -/
  rootName : Bytes := Script.rootName
  /-- The script that names the functions of partials. -/
  namingScript : Bytes := []
  /-- The folder for generated files. -/
  outFolder : Bytes := "dist"
  /-- Whether source maps are written. -/
  sourceMaps : Bool := false
  /-- The folder of the cache. -/
  cacheFolder : Bytes := []
  /-- How many templates are compiled at a time; as many as there are
  processors if no number is given. -/
  jobs : Option Int := none
  /-- Whether assign tags are read as set tags. -/
  assignAsSet : Bool := true
  /-- The folder that relative paths start from. -/
  folder : Bytes := []
deriving DecidableEq, Repr, Inhabited

namespace Settings

/-- Everything that is wrong with settings. -/
def complaints (s : Settings) : List Complaint :=
  Check.all [Check.each Check.extension "extensions" s.extensions,
    Check.noDuplicates "extensions" s.extensions,
    Check.identifier "root_name" s.rootName,
    Check.each Check.identifier "reserved_identifiers" (s.reserved.getD []),
    Check.nonNegative "jobs" (s.jobs.getD 0),
    Check.noTemplate "out_dir" s.outFolder,
    Check.noTemplate "views" s.views]

def path (s : Settings) (p : Bytes) : Bytes :=
  if p.isEmpty || Path.isRooted p || s.folder.isEmpty then p else Path.join [s.folder, p]

/-- How template files are found and read. -/
def loadOptions (s : Settings) : LoadOptions := ⟨s.extensions, s.assignAsSet⟩

/-- How generated code is printed for a file. -/
def printOptions (s : Settings) (file : Bytes) : PrintOptions :=
  { exported := s.exported, sourceMap := s.sourceMaps, file
    split := s.moduleMode && s.splitModules }

/-- The settings that generated code depends on, given the text of the naming
script, and `more`. -/
def packed (s : Settings) (script : Bytes) (more : List (Bytes × Packed)) : Packed :=
  let own : List (Bytes × Packed) := [("module", .bool s.moduleMode), ("split", .bool s.splitModules),
    ("export", .bool s.exported), ("reserved", Packed.texts? s.reserved),
    ("root", .text s.rootName), ("naming", .text script), ("maps", .bool s.sourceMaps),
    ("assign", .bool s.assignAsSet)]
  .map (own ++ more)

end Settings

/-- What a setting holds. -/
inductive SettingKind where
  | text | flag | count | list
deriving DecidableEq, Repr, Inhabited

/-- A value for a setting. -/
inductive SettingValue where
  | text (value : Bytes)
  | flag (value : Bool)
  | count (value : Int)
  | list (value : Option (List Bytes))
deriving DecidableEq, Repr, Inhabited

/-- A setting as a settings file names it. -/
inductive SettingField where
  | views | extensions | moduleMode | splitModules | exported | reserved | rootName
  | namingScript | outFolder | sourceMaps | cacheFolder | jobs | assignAsSet
deriving DecidableEq, Repr, Inhabited

namespace SettingField

/-- The settings outside of any table, by name. -/
def plain : List (Bytes × SettingField) := [
  ("views", .views), ("extensions", .extensions), ("module_mode", .moduleMode),
  ("split_modules", .splitModules), ("export", .exported), ("reserved_identifiers", .reserved),
  ("root_name", .rootName), ("naming_script", .namingScript), ("out_dir", .outFolder),
  ("source_maps", .sourceMaps), ("cache_dir", .cacheFolder), ("jobs", .jobs)]

/-- The table for what is done to sources before they are read. -/
def preprocessTable : Bytes := "preprocess"

def preprocess : List (Bytes × SettingField) := [("assign_as_set", .assignAsSet)]

def kind : SettingField → SettingKind
  | .views | .rootName | .namingScript | .outFolder | .cacheFolder => .text
  | .moduleMode | .splitModules | .exported | .sourceMaps | .assignAsSet => .flag
  | .extensions | .reserved => .list
  | .jobs => .count

end SettingField

/-- The settings with one of them set. A value of another kind changes
nothing. -/
def Settings.set (s : Settings) : SettingField → SettingValue → Settings
  | .views, .text v => { s with views := v }
  | .rootName, .text v => { s with rootName := v }
  | .namingScript, .text v => { s with namingScript := v }
  | .outFolder, .text v => { s with outFolder := v }
  | .cacheFolder, .text v => { s with cacheFolder := v }
  | .moduleMode, .flag v => { s with moduleMode := v }
  | .splitModules, .flag v => { s with splitModules := v }
  | .exported, .flag v => { s with exported := v }
  | .sourceMaps, .flag v => { s with sourceMaps := v }
  | .assignAsSet, .flag v => { s with assignAsSet := v }
  | .extensions, .list v => { s with extensions := v.getD [] }
  | .reserved, .list v => { s with reserved := v }
  | .jobs, .count v => { s with jobs := some v }
  | _, _ => s

end TemplateCompiler
