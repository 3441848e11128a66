import TemplateCompiler.Code.Basic
import TemplateCompiler.Text.Utf8

/-!
# Generated text with marks

Printing code yields a document: pieces of text and, between them, marks that
say which template source the text that follows was made from. The text of a
document is what is written to a file, and its marks, each at the `Place`
where it stands, become a source map. A place counts lines and, within a
line, UTF-16 units, both from zero.
-/

namespace TemplateCompiler

/-- A place in generated text. -/
structure Place where
  line : Nat
  column : Nat
deriving DecidableEq, Repr, Inhabited

namespace Place

def start : Place := ⟨0, 0⟩

def step (p : Place) (r : Rune) : Place :=
  if r = .point Byte.newline.toNat then ⟨p.line + 1, 0⟩ else ⟨p.line, p.column + Utf8.units r⟩

/-- The place behind a text that starts at `p`. -/
def after (p : Place) (bs : Bytes) : Place := (Utf8.runes bs).foldl step p

end Place

/-- A part of a document. -/
inductive DocItem where
  | text (bs : Bytes)
  | mark (loc : Location)
deriving DecidableEq, Repr

abbrev Doc := List DocItem

namespace Doc

def ofText (bs : Bytes) : Doc := [.text bs]

instance : Coe Bytes Doc := ⟨ofText⟩

def mark (loc : Option Location) : Doc := loc.toList.map .mark

/-- Documents with `sep` between neighbours. -/
def join (sep : Bytes) : List Doc → Doc
  | [] => []
  | [d] => d
  | d :: ds => d ++ ofText sep ++ join sep ds

def text (d : Doc) : Bytes :=
  d.flatMap fun
    | .text bs => bs
    | .mark _ => []

/-- The marks of a document that starts at `p`, each with its place. -/
def marksFrom (p : Place) : Doc → List (Place × Location)
  | [] => []
  | .text bs :: d => marksFrom (p.after bs) d
  | .mark loc :: d => (p, loc) :: marksFrom p d

def marks (d : Doc) : List (Place × Location) := d.marksFrom .start

end Doc

end TemplateCompiler
