import TemplateCompiler.Build.Basic

/-!
# Writing generated files

The files of a template go to the folder for generated files, or, if each unit
has a file of its own, to a folder in it that has the template's name. A source
map is written next to its file, which names it in its last line.
-/

namespace TemplateCompiler

namespace CachedFile

def mapName (f : CachedFile) : Bytes := f.name ++ ".map"

/-- What is written for a file: the code, and the name of the source map if
there is one. -/
def content (f : CachedFile) : Bytes :=
  match f.sourceMap with
  | none => f.code
  | some _ => f.code ++ "//# sourceMappingURL=" ++ f.mapName ++ "\n"

end CachedFile

namespace Build

/-- The folder for the files of a template. -/
def outputFolder (b : Build) (name : Bytes) : Bytes :=
  if (b.settings.printOptions []).split then Path.join [b.settings.outFolder, name]
  else b.settings.outFolder

variable {m : Type → Type} [Monad m] [FileAccess m]

def writeFile (path content : Bytes) : m (Except FileError Unit) :=
  FileAccess.replace (path ++ ".tmp") path content

/-- Writes the source map of a generated file, if there is one, and then the
file itself. -/
def writeOutput (folder : Bytes) (f : CachedFile) : m (Except FileError Unit) := do
  match f.sourceMap with
  | none => writeFile (Path.join [folder, f.name]) f.content
  | some map =>
    match ← writeFile (Path.join [folder, f.mapName]) map with
    | .error e => return .error e
    | .ok () => writeFile (Path.join [folder, f.name]) f.content

/-- Writes generated files until one cannot be written. -/
def writeOutputs (folder : Bytes) : List CachedFile → m (Except FileError Unit)
  | [] => pure (.ok ())
  | f :: files => do
    match ← writeOutput folder f with
    | .error e => pure (.error e)
    | .ok () => writeOutputs folder files

def write (b : Build) (name : Bytes) (files : List CachedFile) : m (Except FileError Unit) := do
  let folder := b.outputFolder name
  match ← FileAccess.makeFolders folder with
  | .error e => return .error e
  | .ok () => writeOutputs folder files

end Build

end TemplateCompiler
