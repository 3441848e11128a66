import TemplateCompiler.Cache.Entry
import TemplateCompiler.Files.Access
import TemplateCompiler.Text.Quoted

/-!
# The cache on disk

A cache is a folder. An entry is a file in it, named after its key, in a
folder named after the first two bytes of the key. Entries are replaced at
once, so a reader never sees half of one.
-/

namespace TemplateCompiler

/-- A cache in a folder. -/
structure Cache where
  folder : Bytes
deriving DecidableEq, Repr, Inhabited

/-- Why the cache does not answer. -/
inductive CacheError where
  /-- A key that is too short for a path. -/
  | badKey (key : Bytes)
  /-- A file cannot be reached. -/
  | file (cause : FileError)
  /-- A file cannot be read to its end. -/
  | unreadable (key : Bytes) (cause : FileError)
  /-- A file holds no entry. -/
  | malformed (key : Bytes) (cause : UnpackError)
deriving DecidableEq, Repr, Inhabited

namespace CacheError

/-- The wording for an entry that cannot be read. -/
def decoding (key reason : Bytes) : Bytes := "decoding cache entry " ++ key ++ ": " ++ reason

def message : CacheError → Bytes
  | .badKey key => "invalid cache key " ++ quoted key
  | .file cause => cause.message
  | .unreadable key cause => decoding key cause.message
  | .malformed key cause => decoding key cause.message

end CacheError

/-- What a cache has for a key. -/
inductive CacheReply where
  | hit (entry : CacheEntry)
  | miss
  /-- An entry of another version or under another key. -/
  | stale (schema : Nat)
  | failed (cause : CacheError)
deriving DecidableEq, Repr, Inhabited

namespace Cache

/-- Whether a key is long enough to name a file. -/
def isKey (key : Bytes) : Bool := 2 ≤ key.length

def path (c : Cache) (key : Bytes) : Bytes := Path.join [c.folder, key.take 2, key ++ ".mp"]

/-- What the content of a key's file says. -/
def reply (key content : Bytes) : CacheReply :=
  match CacheEntry.unpack content with
  | .error cause => .failed (.malformed key cause)
  | .ok entry =>
    if entry.schema == CacheEntry.version && entry.key == key then .hit entry
    else .stale entry.schema

variable {m : Type → Type} [Monad m] [FileAccess m]

/-- The cache in a folder, which is made if it is missing. Without a folder it
is one for this program among the caches of the user. -/
def start (folder : Bytes) : m (Except Bytes Cache) := do
  let folder ←
    if folder.isEmpty then do
      match ← FileAccess.userCache with
      | some base => pure (Path.join [base, "tmplc"])
      | none => return .error "neither $XDG_CACHE_HOME nor $HOME are defined"
    else pure folder
  match ← FileAccess.makeFolders folder with
  | .error e => return .error e.message
  | .ok () => return .ok ⟨folder⟩

def get (c : Cache) (key : Bytes) : m CacheReply := do
  if !isKey key then return .miss
  match ← FileAccess.read (c.path key) with
  | .ok content => return reply key content
  | .error e =>
    if e.fault == .missing then return .miss
    else if e.action == .read then return .failed (.unreadable key e)
    else return .failed (.file e)

/-- Keeps an entry under a key, in place of the one that was there. -/
def put (c : Cache) (key : Bytes) (e : CacheEntry) : m (Except CacheError Unit) := do
  if !isKey key then return .error (.badKey key)
  let folder := Path.folder (c.path key)
  let content := ({ e with schema := CacheEntry.version, key } : CacheEntry).pack.encode
  match ← FileAccess.makeFolders folder with
  | .error cause => return .error (.file cause)
  | .ok () =>
    match ← FileAccess.replace (Path.join [folder, "tmp-entry"]) (c.path key) content with
    | .error cause => return .error (.file cause)
    | .ok () => return .ok ()

def clear (c : Cache) : m (Except CacheError Unit) := do
  match ← FileAccess.remove c.folder with
  | .error cause => return .error (.file cause)
  | .ok () => return .ok ()

end Cache

end TemplateCompiler
