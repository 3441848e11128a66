import TemplateCompiler.Files.Error
import TemplateCompiler.Files.Path

/-!
# Access to files

The program reaches files only through the few operations of `FileAccess`.
They are given for a file tree held in memory, about which statements can be
proved, and for the files of the system. What the program builds from them is
written once for both.
-/

namespace TemplateCompiler

/-- Something that files can be read from and written to. -/
class FileAccess (m : Type → Type) where
  /-- The content of a file. -/
  read : Bytes → m (Except FileError Bytes)
  /-- Whether there is a folder, and not a file, at a path. -/
  isFolder : Bytes → m (Except FileError Bool)
  /-- The paths of the files below a folder, relative to it. Each folder's
  entries come in the order of their names. -/
  filesBelow : Bytes → m (Except FileError (List Bytes))
  /-- Makes one folder. -/
  makeFolder : Bytes → m (Except FileError Unit)
  /-- Makes a file or replaces its content. -/
  write : Bytes → Bytes → m (Except FileError Unit)
  /-- Gives a file another path, in place of a file that has it. -/
  rename : Bytes → Bytes → m (Except FileError Unit)
  /-- Removes whatever is at a path. -/
  remove : Bytes → m (Except FileError Unit)
  /-- The folder for caches of the user, if there is one. -/
  userCache : m (Option Bytes)

namespace FileAccess

variable {m : Type → Type} [Monad m] [FileAccess m]

/-- The path in front of the last component, with the slash at its end. -/
def before (path : Bytes) : Bytes :=
  Bytes.trimEnd (· != Byte.slash) (Bytes.trimEnd (· == Byte.slash) path)

/-- Makes a folder and the folders above it where they are missing. -/
def makeFolders (path : Bytes) : m (Except FileError Unit) := do
  match ← isFolder path with
  | .ok true => pure (.ok ())
  | .ok false => pure (.error ⟨.mkdir, [path], .notFolder⟩)
  | .error _ =>
    let up := before path
    if _shorter : up.length < path.length ∧ up ≠ [] then
      match ← makeFolders up with
      | .error e => pure (.error e)
      | .ok () => makeFolder path
    else makeFolder path
termination_by path.length
decreasing_by exact _shorter.1

/-- Replaces the content of a file at once: the new content is written next to
it and then takes its path. -/
def replace (beside path content : Bytes) : m (Except FileError Unit) := do
  match ← write beside content with
  | .error e => pure (.error e)
  | .ok () => rename beside path

end FileAccess

end TemplateCompiler
