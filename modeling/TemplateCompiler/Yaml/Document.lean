import TemplateCompiler.Yaml.Scalar

/-!
# YAML documents

A document is a tree of mappings, lists and scalars, and `Yaml.Document.render`
writes it in block style. The parts of a mapping start at the next multiple of
four columns; inside a list item they stand two columns behind the dash. Lists
of quoted words are written on one line. A key that is no simple key stands on
lines of its own behind a question mark.
-/

namespace TemplateCompiler.Yaml

/-- A document or a part of one. -/
inductive Document where
  | plain (text : Bytes)
  | quoted (text : Bytes)
  /-- Quoted words on one line. -/
  | words (items : List Bytes)
  | list (items : List Document)
  | mapping (entries : List (Bytes × Document))
deriving Repr, Inhabited

namespace Document

/-- The column of the parts of what starts at column `indent`. -/
def inside (indent : Nat) : Nat := 4 * ((indent + 4) / 4)

/-- Writes a key at column `indent` and the colon behind it. -/
def writeKey (indent : Nat) (key : Bytes) (page : Page) : Page :=
  let page := page.indent indent
  let key := Scalar.ofText key
  let column := inside indent
  if key.isSimpleKey then (key.write .plain column true page).mark ":"
  else ((key.write .plain column false (page.blockMark "?")).indent indent).blockMark ":"

/-- Writes quoted words, with a comma behind each but the last. -/
def writeWords (indent : Nat) : List Bytes → Page → Page
  | [], page => page
  | [word], page => (Scalar.ofText word).write .quoted indent false page
  | word :: others, page =>
    writeWords indent others (((Scalar.ofText word).write .quoted indent false page).mark ",")

mutual

/-- Writes a part of a document that starts at column `indent`. -/
def write (indent : Nat) (d : Document) (page : Page) : Page :=
  match d with
  | .plain text => (Scalar.ofText text).write .plain indent false page
  | .quoted text => (Scalar.ofText text).write .quoted indent false page
  | .words items => (writeWords indent items (page.openMark "[")).mark "]"
  | .list [] => (page.openMark "[").mark "]"
  | .mapping [] => (page.openMark "\x7b").mark "\x7d"
  | .list items => writeItems indent items page
  | .mapping entries => writeEntries indent entries page

/-- Writes the entries of a mapping at column `indent`. -/
def writeEntries (indent : Nat) (entries : List (Bytes × Document)) (page : Page) : Page :=
  match entries with
  | [] => page
  | e :: entries => writeEntries indent entries (writeEntry indent e page)

def writeEntry (indent : Nat) (e : Bytes × Document) (page : Page) : Page :=
  match e with
  | (key, value) => value.write (inside indent) (writeKey indent key page)

/-- Writes the items of a list, their dashes at column `indent`. -/
def writeItems (indent : Nat) (items : List Document) (page : Page) : Page :=
  match items with
  | [] => page
  | d :: items =>
    writeItems indent items (d.write (indent + 2) ((page.indent indent).blockMark "-"))

end

/-- A document as text. It ends with a line end. -/
def render (d : Document) : Bytes := ((d.write 0 { }).indent 0).text

end Document

end TemplateCompiler.Yaml
