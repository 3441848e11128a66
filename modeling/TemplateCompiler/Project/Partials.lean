import TemplateCompiler.Compile.Session
import TemplateCompiler.Files.Access
import TemplateCompiler.Template.Assign

/-!
# Partials of a project

The partials of a project are the template files below its views folder. A
partial's name is its path below that folder without the extension. Of two
files with one name the first in the order of the walk counts.
-/

namespace TemplateCompiler

/-- How template files are found and read. -/
structure LoadOptions where
  /-- The extensions of template files. -/
  extensions : List Bytes := []
  /-- Whether assign tags are read as set tags. -/
  assignAsSet : Bool := false
deriving DecidableEq, Repr, Inhabited

namespace LoadOptions

/-- The extension of template files if none is given. -/
def defaultExtension : Bytes := ".liquid"

def knownExtensions (o : LoadOptions) : List Bytes :=
  if o.extensions.isEmpty then [defaultExtension] else o.extensions

/-- The source that is compiled for a file's content. -/
def preprocess (o : LoadOptions) (content : Bytes) : Bytes :=
  if o.assignAsSet then Template.assignToSet content else content

/-- The name of the partial in a file, if its path has one of the extensions
and is not only an extension. -/
def partialName? (o : LoadOptions) (path : Bytes) : Option Bytes :=
  let path := Path.clean (path.map fun b => if b == Byte.backslash then Byte.slash else b)
  o.knownExtensions.findSome? fun ext =>
    (Bytes.dropSuffix? ext path).filter (!·.isEmpty)

end LoadOptions

namespace Library

/-- Adds the partial in a file. A name that is there already stays as it is. -/
def addFile (o : LoadOptions) (state : Library × List LogRecord) (file : Bytes × Bytes) :
    Library × List LogRecord :=
  match o.partialName? file.1 with
  | none => state
  | some name =>
    if (state.1.source? name).isSome then
      (state.1, state.2 ++ [⟨.warn, "partial defined twice, keeping the first",
        [("name", name), ("path", file.1)]⟩])
    else (⟨state.1.partials ++ [(name, o.preprocess file.2)]⟩, state.2)

/-- The partials in a list of files with their contents, and the log of
collecting them. -/
def ofFiles (o : LoadOptions) (files : List (Bytes × Bytes)) : Library × List LogRecord :=
  let (lib, log) := files.foldl (addFile o) ({}, [])
  (lib, log ++ [⟨.debug, "loaded partials", [("count", Bytes.decimal lib.partials.length)]⟩])

/-- The wording for a partial that is asked for and not there. -/
def notFound (name : Bytes) : Bytes := "partial not found: " ++ name

end Library

/-- Why the partials of a project cannot be loaded. -/
inductive LoadError where
  /-- The views folder cannot be reached. -/
  | views (cause : FileError)
  /-- The views folder is a file. -/
  | notFolder (path : Bytes)
  /-- A template file cannot be read. -/
  | unreadable (path : Bytes) (cause : FileError)
deriving DecidableEq, Repr, Inhabited

def LoadError.message : LoadError → Bytes
  | .views cause => "views directory: " ++ cause.message
  | .notFolder path => "views directory " ++ quoted path ++ " is not a directory"
  | .unreadable path cause => "reading partial " ++ quoted path ++ ": " ++ cause.message

namespace Library

variable {m : Type → Type} [Monad m] [FileAccess m]

/-- The files below a folder that hold partials, with their contents. -/
def readFiles (o : LoadOptions) (folder : Bytes) :
    List Bytes → m (Except LoadError (List (Bytes × Bytes)))
  | [] => pure (.ok [])
  | path :: paths => do
    if (o.partialName? path).isNone then readFiles o folder paths
    else match ← FileAccess.read (Path.join [folder, path]) with
      | .error e => pure (.error (.unreadable path e))
      | .ok content => return (← readFiles o folder paths).map ((path, content) :: ·)

/-- The partials below a folder. No folder means no partials. -/
def load (o : LoadOptions) (folder : Bytes) :
    m (Except LoadError (Library × List LogRecord)) := do
  if folder.isEmpty then return .ok ({}, [])
  match ← FileAccess.isFolder folder with
  | .error e => return .error (.views e)
  | .ok false => return .error (.notFolder folder)
  | .ok true =>
    match ← FileAccess.filesBelow folder with
    | .error e => return .error (.views e)
    | .ok paths => return (← readFiles o folder paths).map (ofFiles o)

end Library

end TemplateCompiler
