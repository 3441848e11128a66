import TemplateCompiler.Text.Utf8

/-!
# The page of a YAML document

A document is written on a page from front to back, and what has to stand
between two parts follows from where writing stands: `Page.indent` starts a new
line unless the last one holds nothing yet but indentation and marks, and
`Page.mark` puts a space in front of a mark unless one is there. The writers of
scalars and documents only say what they need.
-/

namespace TemplateCompiler.Yaml

def isBreak (c : Nat) : Bool :=
  c == 0x0a || c == 0x0d || c == 0x85 || c == 0x2028 || c == 0x2029

/-- A document that is being written. -/
structure Page where
  /-- What is written, the last byte first. -/
  written : Bytes := []
  /-- How many characters stand on the last line. -/
  column : Nat := 0
  /-- Whether what comes next needs no space in front of it. -/
  spaced : Bool := true
  /-- Whether the last line holds nothing but indentation and marks. -/
  fresh : Bool := true

namespace Page

def text (page : Page) : Bytes := page.written.reverse

def put (page : Page) (c : Nat) : Page :=
  { page with written := (Utf8.encode c).reverseAux page.written, column := page.column + 1 }

/-- Writes a text of the program, which has one byte for each character. -/
def putBytes (page : Page) (bs : Bytes) : Page :=
  { page with written := bs.reverseAux page.written, column := page.column + bs.length }

def breakLine (page : Page) (c : Nat) : Page :=
  { page.put c with column := 0, fresh := true }

/-- Writes a space unless none is needed. -/
def gap (page : Page) : Page :=
  if page.spaced then page else page.put 0x20

/-- Moves to a column, on a new line if something stands there or before. -/
def indent (page : Page) (column : Nat) : Page :=
  let taken := !page.fresh || column < page.column || (page.column == column && !page.spaced)
  let page := if taken then page.breakLine 0x0a else page
  { page with
    written := List.replicate (column - page.column) Byte.space ++ page.written
    column := max column page.column
    spaced := true }

/-- Writes a mark directly behind what stands there. -/
def mark (page : Page) (bs : Bytes) : Page :=
  { page.putBytes bs with spaced := false, fresh := false }

/-- Writes a mark that opens something: nothing has to stand between it and
what comes next. -/
def openMark (page : Page) (bs : Bytes) : Page :=
  { page.gap.mark bs with spaced := true }

/-- Writes a mark that announces a part of a block. What is announced may
stand on the same line. -/
def blockMark (page : Page) (bs : Bytes) : Page :=
  { page.gap.mark bs with fresh := page.fresh }

end Page

end TemplateCompiler.Yaml
