import TemplateCompiler.Digest.Unpack

/-!
# Cache entries

What the cache keeps of a compilation: the generated files, and the inputs and
locals of the root function. An entry carries the version of its form and its
own key, so an entry of another version or under another key is recognised.
-/

namespace TemplateCompiler

/-- A generated file as it is kept. -/
structure CachedFile where
  name : Bytes := []
  code : Bytes := []
  sourceMap : Option Bytes := none
deriving DecidableEq, Repr, Inhabited

/-- A kept result. -/
structure CacheEntry where
  schema : Nat := 0
  key : Bytes := []
  files : List CachedFile := []
  inputs : Option (List Bytes) := none
  locals : Option (List Bytes) := none
deriving DecidableEq, Repr, Inhabited

namespace CachedFile

def keys : List Bytes := ["Name", "Code", "SourceMap"]

/-- The packed form of a file. A source map without content is left out. -/
def pack (f : CachedFile) : Packed :=
  let map := f.sourceMap.getD []
  let mapField : List (Bytes × Packed) :=
    if map.isEmpty then [] else [("SourceMap", .binary map)]
  .record (("Name", .text f.name) :: ("Code", .text f.code) :: mapField)

def readField (key : Bytes) : Option (CachedFile → Unpack CachedFile) :=
  if key == "Name" then some fun f => return { f with name := ← Unpack.text }
  else if key == "Code" then some fun f => return { f with code := ← Unpack.text }
  else if key == "SourceMap" then some fun f => return { f with sourceMap := ← Unpack.bytes? }
  else none

end CachedFile

namespace CacheEntry

/-- The version of the form of entries. -/
def version : Nat := 2

def keys : List Bytes := ["Schema", "Key", "Files", "Inputs", "Locals"]

def pack (e : CacheEntry) : Packed :=
  let files := if e.files.isEmpty then .nil else Packed.array (e.files.map CachedFile.pack)
  .record [("Schema", .short e.schema), ("Key", .text e.key), ("Files", files),
    ("Inputs", Packed.texts? e.inputs), ("Locals", Packed.texts? e.locals)]

/-- An entry that is being read. A list of files that is given again is read
over the one before, so what that one had stays where nothing new is said. -/
structure Draft where
  entry : CacheEntry := {}
  /-- The files read so far by their places, also those behind the end of the
  last list. -/
  places : List CachedFile := []
deriving Inhabited

/-- Reads a list of files over those in their places. -/
def readFiles (d : Draft) : Unpack Draft := do
  match ← Unpack.arrayLength (← Unpack.code) with
  | none => return { entry := { d.entry with files := [] }, places := [] }
  | some n =>
    let reader := Unpack.record CachedFile.keys CachedFile.readField {}
    let files ← Unpack.refill reader {} n d.places
    return { entry := { d.entry with files }, places := files ++ d.places.drop n }

/-- How a field is read. No list in place of one does not change it. -/
def readField (key : Bytes) : Option (Draft → Unpack Draft) :=
  let change (f : CacheEntry → Unpack CacheEntry) : Option (Draft → Unpack Draft) :=
    some fun d => return { d with entry := ← f d.entry }
  if key == "Schema" then change fun e => return { e with schema := (← Unpack.word) % 65536 }
  else if key == "Key" then change fun e => return { e with key := ← Unpack.text }
  else if key == "Files" then some readFiles
  else if key == "Inputs" then change fun e => do
    let inputs ← Unpack.array? Unpack.text
    return { e with inputs := inputs.orElse fun _ => e.inputs }
  else if key == "Locals" then change fun e => do
    let locals ← Unpack.array? Unpack.text
    return { e with locals := locals.orElse fun _ => e.locals }
  else none

/-- Reads an entry from its packed form. Bytes behind it do not matter. -/
def unpack (bs : Bytes) : Except UnpackError CacheEntry :=
  (Unpack.record keys readField {} {} bs).map fun (draft, _) => draft.entry

end CacheEntry

end TemplateCompiler
