import TemplateCompiler.Script.Doc
import TemplateCompiler.Text.Base64
import TemplateCompiler.Text.Json

/-!
# Source maps

A source map relates places in generated text to places in template source.
`SourceMap.ofMarks` collects the marks of a document; of several marks at one
place the first counts. Written out, the mappings are numbers relative to the
mapping before, in base 64 with a continuation bit (`Vlq.encode`), a comma
between the mappings of a line and a semicolon at every line end. All numbers
count from zero.
-/

namespace TemplateCompiler

namespace Vlq

/-- A natural number, five bits a digit, the lowest first. Every digit but
the last has the bit that says that more follow. -/
def encodeNat (n : Nat) : Bytes :=
  if n < 32 then [Base64.digit n] else Base64.digit (n % 32 + 32) :: encodeNat (n / 32)
termination_by n
decreasing_by omega

/-- An integer with its sign in the lowest bit. -/
def encode : Int → Bytes
  | .ofNat n => encodeNat (2 * n)
  | .negSucc n => encodeNat (2 * (n + 1) + 1)

end Vlq

/-- A place in generated text and the place in template source that it was
made from. `source` numbers the source files of the map. All numbers but the
line are integers, since what is written of them are differences. -/
structure Mapping where
  line : Nat
  column : Int
  source : Int
  sourceLine : Int
  sourceColumn : Int
deriving DecidableEq, Repr, Inhabited

namespace Mapping

/-- Whether two mappings are for one generated place. -/
def samePlace (a b : Mapping) : Bool := a.line == b.line && a.column == b.column

/-- The four numbers of a mapping, relative to the mapping before it. Columns
of generated text are relative within a line only. -/
def segment (before m : Mapping) : Bytes :=
  let column : Int := if before.line < m.line then 0 else before.column
  Vlq.encode (m.column - column) ++ Vlq.encode (m.source - before.source)
    ++ Vlq.encode (m.sourceLine - before.sourceLine)
    ++ Vlq.encode (m.sourceColumn - before.sourceColumn)

/-- Mappings written out, after one or, at `fresh`, at the start of a map. -/
def encodeFrom (fresh : Bool) (before : Mapping) : List Mapping → Bytes
  | [] => []
  | m :: ms =>
    let gap : Bytes :=
      if before.line < m.line then Bytes.repeated (m.line - before.line) ";"
      else if fresh then "" else ","
    gap ++ segment before m ++ encodeFrom false m ms

def encode (ms : List Mapping) : Bytes := encodeFrom true ⟨0, 0, 0, 0, 0⟩ ms

end Mapping

/-- A source map for one generated file. -/
structure SourceMap where
  file : Bytes
  sources : List Bytes := []
  mappings : List Mapping := []
deriving DecidableEq, Repr, Inhabited

namespace SourceMap

/-- One more mark. Its source file becomes known even if the place is mapped
already. -/
def add (map : SourceMap) (place : Place) (loc : Location) : SourceMap :=
  let sources := if map.sources.contains loc.file then map.sources else map.sources ++ [loc.file]
  let m : Mapping :=
    { line := place.line, column := place.column, source := sources.idxOf loc.file
      sourceLine := max (loc.line - 1) 0, sourceColumn := max (loc.column - 1) 0 }
  let mapped := map.mappings.getLast?.any (·.samePlace m)
  { map with sources, mappings := if mapped then map.mappings else map.mappings ++ [m] }

/-- The source map of a file whose document has these marks. -/
def ofMarks (file : Bytes) (marks : List (Place × Location)) : SourceMap :=
  marks.foldl (fun map (place, loc) => map.add place loc) { file }

def json (map : SourceMap) : Bytes :=
  let file := if map.file.isEmpty then [] else [Json.member "file" (Json.string map.file)]
  Json.object <|
    [Json.member "version" "3"] ++ file
      ++ [Json.member "sources" (Json.array (map.sources.map Json.string)),
        Json.member "names" (Json.array []),
        Json.member "mappings" (Json.string (Mapping.encode map.mappings))]

end SourceMap

end TemplateCompiler
