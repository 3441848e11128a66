import TemplateCompiler.Compile.Session
import TemplateCompiler.Digest.Packed

/-!
# Cache keys

The key of a compilation is a digest of everything that its result depends on:
the source, the partials and the settings. `cacheInput` is the byte sequence
that is digested. Every text in it comes behind its length, so that two texts
never run into each other.
-/

namespace TemplateCompiler

namespace CacheKey

/-- A text behind its length in eight bytes. -/
def field (bs : Bytes) : Bytes := Bytes.bigEndian 8 bs.length ++ bs

/-- The partials in the order of their names. -/
def sortedPartials (lib : Library) : List (Bytes × Bytes) :=
  lib.partials.mergeSort fun a b => Bytes.le a.1 b.1

/-- What is digested: the source, the names and sources of the partials, and
the settings in packed form. -/
def input (source : Bytes) (lib : Library) (settings : Packed) : Bytes :=
  field source ++ (sortedPartials lib).flatMap (fun p => field p.1 ++ field p.2) ++ settings.encode

end CacheKey

/-- The key of a compilation, in hexadecimal. -/
def cacheKey (source : Bytes) (lib : Library) (settings : Packed) : Bytes :=
  Bytes.toHex (sha256 (CacheKey.input source lib settings))

end TemplateCompiler
