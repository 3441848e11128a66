import TemplateCompiler.Files.Access

/-!
# File trees

A file tree held in memory. It is a list of files and folders under their
absolute places, together with the folder that relative paths start from. An
operation resolves its path one component after the other, as the system does,
so a path through a file or through nothing fails even if it comes back.
-/

namespace TemplateCompiler

/-- What stands at a place of a file tree. -/
inductive FileEntry where
  | file (content : Bytes)
  | folder
deriving DecidableEq, Repr, Inhabited

/-- A place in a file tree: the components of its path from the root. -/
abbrev TreePlace := List Bytes

/-- Files and folders under their places. -/
structure FileTree where
  entries : List (TreePlace × FileEntry) := []
  /-- The folder that relative paths start from. -/
  current : TreePlace := []
  /-- The folder for caches of the user. -/
  userCache : Option Bytes := none
deriving DecidableEq, Repr, Inhabited

namespace FileTree

/-- What stands at a place. The root is a folder. -/
def find? (t : FileTree) (place : TreePlace) : Option FileEntry :=
  if place.isEmpty then some .folder else t.entries.lookup place

/-- The tree with `entry` at a place. -/
def put (t : FileTree) (place : TreePlace) (entry : FileEntry) : FileTree :=
  { t with entries := t.entries.filter (·.1 != place) ++ [(place, entry)] }

def drop (t : FileTree) (place : TreePlace) : FileTree :=
  { t with entries := t.entries.filter fun e => !place.isPrefixOf e.1 }

/-- The place that a component leads to from a place that is a folder. -/
def enter (t : FileTree) (place : TreePlace) (c : Bytes) : Except FileFault TreePlace :=
  match t.find? place with
  | none => .error .missing
  | some (.file _) => .error .notFolder
  | some .folder =>
    if c == [Byte.dot] then .ok place
    else if c == Path.parent then .ok place.dropLast
    else .ok (place ++ [c])

def start (t : FileTree) (path : Bytes) : TreePlace :=
  if Path.isRooted path then [] else t.current

/-- The place of a path. Every component but the last has to be a folder, and
there may be nothing at the last. -/
def resolve (t : FileTree) (path : Bytes) : Except FileFault TreePlace :=
  if path.isEmpty then .error .missing
  else ((Bytes.splitOn Byte.slash path).filter (!·.isEmpty)).foldlM t.enter (t.start path)

/-- What stands at a path. A slash at the end asks for a folder. -/
def look (t : FileTree) (path : Bytes) : Except FileFault FileEntry := do
  let place ← t.resolve path
  match t.find? place with
  | none => .error .missing
  | some (.file content) =>
    if path.getLast? == some Byte.slash then .error .notFolder else .ok (.file content)
  | some .folder => .ok .folder

/-- Adds a file and the folders it is in, under a path without parent
components. -/
def addFile (t : FileTree) (path content : Bytes) : FileTree :=
  let place := t.start path ++ Path.components path
  let folders := ((List.range place.length).map place.take).filter fun p => (t.find? p).isNone
  (folders.foldl (fun t p => t.put p .folder) t).put place (.file content)

/-- The order of places: folder by folder, entries by name. -/
def placeLe : TreePlace → TreePlace → Bool
  | [], _ => true
  | _ :: _, [] => false
  | a :: as, b :: bs => if a == b then placeLe as bs else Bytes.le a b

/-- The files below a place, relative to it, in the order of places. -/
def filesAt (t : FileTree) (place : TreePlace) : List (TreePlace × Bytes) :=
  let files := t.entries.filterMap fun e =>
    match e.2, place.isPrefixOf? e.1 with
    | .file content, some rest => if rest.isEmpty then none else some (rest, content)
    | _, _ => none
  files.mergeSort fun a b => placeLe a.1 b.1

def failed {α : Type} (action : FileAction) (paths : List Bytes) (r : Except FileFault α) :
    Except FileError α := r.mapError (⟨action, paths, ·⟩)

def read (t : FileTree) (path : Bytes) : Except FileError Bytes :=
  match t.look path with
  | .error fault => .error ⟨.open, [path], fault⟩
  | .ok .folder => .error ⟨.read, [path], .isFolder⟩
  | .ok (.file content) => .ok content

def isFolder (t : FileTree) (path : Bytes) : Except FileError Bool :=
  failed .stat [path] ((t.look path).map (· == .folder))

def filesBelow (t : FileTree) (path : Bytes) : Except FileError (List Bytes) :=
  failed .open [path] ((t.resolve path).map fun place =>
    (t.filesAt place).map fun f => Bytes.join [Byte.slash] f.1)

def makeFolder (t : FileTree) (path : Bytes) : Except FileError FileTree :=
  failed .mkdir [path] do
    let place ← t.resolve path
    match t.find? place with
    | some _ => .error .occupied
    | none => .ok (t.put place .folder)

def write (t : FileTree) (path content : Bytes) : Except FileError FileTree :=
  failed .open [path] do
    let place ← t.resolve path
    match t.find? place with
    | some .folder => .error .isFolder
    | _ => .ok (t.put place (.file content))

def rename (t : FileTree) (old new : Bytes) : Except FileError FileTree :=
  failed .rename [old, new] do
    let source ← t.resolve old
    match t.find? source with
    | none => .error .missing
    | some entry =>
      let target ← t.resolve new
      match t.find? target with
      | some .folder => .error .occupied
      | _ => .ok ((t.drop source).put target entry)

/-- The tree without what is at a path. A path that leads nowhere changes
nothing. -/
def remove (t : FileTree) (path : Bytes) : FileTree :=
  match t.resolve path with
  | .ok place => t.drop place
  | .error _ => t

end FileTree

/-- The tree that an operation leaves, which is the old one if it fails. -/
def FileTree.change (step : FileTree → Except FileError FileTree) :
    StateM FileTree (Except FileError Unit) :=
  modifyGet fun t =>
    match step t with
    | .ok t' => (.ok (), t')
    | .error e => (.error e, t)

instance : FileAccess (StateM FileTree) where
  read path := return (← get).read path
  isFolder path := return (← get).isFolder path
  filesBelow path := return (← get).filesBelow path
  makeFolder path := FileTree.change (·.makeFolder path)
  write path content := FileTree.change (·.write path content)
  rename old new := FileTree.change (·.rename old new)
  remove path := FileTree.change fun t => .ok (t.remove path)
  userCache := return (← get).userCache

end TemplateCompiler
