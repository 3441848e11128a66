import TemplateCompiler.CommandLine.Run

/-!
# The program

The command line over the files of the system. All that is decided here is how
the operations on files are done and how their failures are told.
-/

namespace TemplateCompiler

namespace SystemFiles

def pathText (path : Bytes) : String := (String.fromUTF8? ⟨path.toArray⟩).getD ""

/-- What stands in the way, by the error of the system. -/
def faultOf : IO.Error → FileFault
  | .noFileOrDirectory .. => .missing
  | .alreadyExists .. => .occupied
  | .inappropriateType _ code _ => if code == 21 then .isFolder else .notFolder
  | e => .other (Bytes.ofString e.toString)

/-- Does something with files and catches its failure. An empty path leads
nowhere. -/
def attempt {α : Type} (action : FileAction) (paths : List Bytes) (steps : IO α) :
    IO (Except FileError α) := do
  if paths.contains [] then return .error ⟨action, paths, .missing⟩
  try return .ok (← steps)
  catch e => return .error ⟨action, paths, faultOf e⟩

def isFolder (path : Bytes) : IO Bool := do
  let data ← ((← IO.currentDir) / pathText path).metadata
  return data.type == .dir

/-- The files below a folder, each folder's entries in the order of their
names. -/
partial def filesBelow (folder : String) : IO (List String) := do
  let entries ← ((← IO.currentDir) / folder).readDir
  let names := (entries.toList.map (·.fileName)).mergeSort fun a b =>
    Bytes.le (Bytes.ofString a) (Bytes.ofString b)
  let below ← names.mapM fun name => do
    let path := folder ++ "/" ++ name
    if ← ((← IO.currentDir) / path).isDir then
      return (← filesBelow path).map (name ++ "/" ++ ·)
    else return [name]
  return below.flatten

def remove (path : String) : IO Unit := do
  if ← ((← IO.currentDir) / path).isDir then IO.FS.removeDirAll path
  else if ← ((← IO.currentDir) / path).pathExists then IO.FS.removeFile path

/-- Gives a file another path. A folder is never replaced. -/
def rename (old new : Bytes) : IO (Except FileError Unit) := do
  if ← ((← IO.currentDir) / pathText new).isDir then
    return .error ⟨.rename, [old, new], .occupied⟩
  attempt .rename [old, new] (IO.FS.rename (pathText old) (pathText new))

def userCache : IO (Option Bytes) := do
  match ← IO.getEnv "XDG_CACHE_HOME" with
  | some folder => if !folder.isEmpty then return some (Bytes.ofString folder)
  | none => pure ()
  match ← IO.getEnv "HOME" with
  | some home => return if home.isEmpty then none else some (Bytes.ofString (home ++ "/.cache"))
  | none => return none

end SystemFiles

open SystemFiles in
instance : FileAccess IO where
  read path := do
    match ← attempt .open [path] (isFolder path) with
    | .ok true => return .error ⟨.read, [path], .isFolder⟩
    | _ => attempt .open [path] do
      return (← IO.FS.readBinFile (pathText path)).data.toList
  isFolder path := attempt .stat [path] (isFolder path)
  filesBelow path := attempt .open [path] do
    return (← filesBelow (pathText path)).map Bytes.ofString
  makeFolder path := attempt .mkdir [path] (IO.FS.createDir (pathText path))
  write path content := attempt .open [path]
    (IO.FS.writeBinFile (pathText path) ⟨content.toArray⟩)
  rename := rename
  remove path := attempt .open [path] (remove (pathText path))
  userCache := userCache

end TemplateCompiler

open TemplateCompiler in
/-- Runs the command line. The error of a command that fails is logged last. -/
def main (args : List String) : IO UInt32 := do
  let (result, console) ← runCommandLine (args.map Bytes.ofString)
  let (last, code) : List LogRecord × UInt32 := match result with
    | .ok () => ([], 0)
    | .error e => ([⟨.error, "fatal", [("error", e.message)]⟩], 1)
  let console := console.log last
  (← IO.getStdout).write ⟨console.out.toArray⟩
  (← IO.getStderr).write ⟨console.err.toArray⟩
  return code
