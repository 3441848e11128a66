import TemplateCompiler.Text.Bytes

/-!
# File errors

Why an operation on files failed: what was tried, on which path, and what
stood in the way.
-/

namespace TemplateCompiler

/-- What stands in the way of an operation on files. -/
inductive FileFault where
  /-- Nothing has this path. -/
  | missing
  /-- A file stands where the path needs a folder. -/
  | notFolder
  /-- A folder stands where a file is needed. -/
  | isFolder
  /-- Something has this path already. -/
  | occupied
  /-- Anything else, in the words of the system. -/
  | other (reason : Bytes)
deriving DecidableEq, Repr, Inhabited

def FileFault.message : FileFault → Bytes
  | .missing => "no such file or directory"
  | .notFolder => "not a directory"
  | .isFolder => "is a directory"
  | .occupied => "file exists"
  | .other reason => reason

/-- What was tried with files. -/
inductive FileAction where
  | open | read | stat | mkdir | rename
deriving DecidableEq, Repr, Inhabited

def FileAction.name : FileAction → Bytes
  | .open => "open"
  | .read => "read"
  | .stat => "stat"
  | .mkdir => "mkdir"
  | .rename => "rename"

/-- A failed operation on files. -/
structure FileError where
  action : FileAction
  paths : List Bytes
  fault : FileFault
deriving DecidableEq, Repr, Inhabited

def FileError.message (e : FileError) : Bytes :=
  Bytes.join " " (e.action.name :: e.paths) ++ ": " ++ e.fault.message

end TemplateCompiler
