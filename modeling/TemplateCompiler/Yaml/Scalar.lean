import TemplateCompiler.Text.Base64
import TemplateCompiler.Yaml.Page

/-!
# Scalars of YAML documents

How a text is written as a YAML scalar. A text that asks for no quotes is
written bare where that reads back as the same text; otherwise in single
quotes, where they can hold it, and else in double quotes with escapes. A
text with line feeds is written as a literal block. Nothing is quoted for
looking like a number or another special word. A text that is no UTF-8 is
written in base 64 under a tag.
-/

namespace TemplateCompiler.Yaml

def isBlank (c : Nat) : Bool := c == 0x20 || c == 0x09

/-- A space, a tab, a line end or a zero. -/
def isGap (c : Nat) : Bool := isBlank c || isBreak c || c == 0

def byteOrderMark : Nat := 0xfeff

/-- What can stand in a document as it is. -/
def isPrintable (c : Nat) : Bool :=
  c == 0x0a || (0x20 ≤ c && c ≤ 0x7e) || (0xa0 ≤ c && c ≤ 0xd7ff)
    || (0xe000 ≤ c && c ≤ 0xfffd && c != byteOrderMark)

def blankFollows : List Nat → Bool
  | [] => true
  | c :: _ => isBlank c

/-- The marks that have a meaning at the start of a scalar. -/
def openers : List Nat :=
  [0x23, 0x2c, 0x5b, 0x5d, 0x7b, 0x7d, 0x26, 0x2a, 0x21, 0x7c, 0x3e, 0x27, 0x22, 0x25, 0x40, 0x60]

/-- Whether a mark inside a scalar has a meaning: a colon before a blank, or
a number sign after one. -/
def hasInnerMark (afterGap : Bool) : List Nat → Bool
  | [] => false
  | c :: cs =>
    (c == 0x3a && blankFollows cs) || (c == 0x23 && afterGap) || hasInnerMark (isGap c) cs

/-- Whether a bare scalar would be read as something else. -/
def hasMark (cs : List Nat) : Bool :=
  match cs with
  | [] => false
  | c :: rest =>
    [0x2d, 0x2d, 0x2d].isPrefixOf cs || [0x2e, 0x2e, 0x2e].isPrefixOf cs || openers.contains c
      || ((c == 0x3f || c == 0x3a || c == 0x2d) && blankFollows rest)
      || hasInnerMark (isGap c) rest

/-- Whether two neighbours satisfy `p` and `q`. -/
def hasNeighbours (p q : Nat → Bool) (cs : List Nat) : Bool :=
  (cs.zip cs.tail).any fun (a, b) => p a && q b

def hasSpaceBreak (cs : List Nat) : Bool := hasNeighbours (· == 0x20) isBreak cs

def hasBreakSpace (cs : List Nat) : Bool := hasNeighbours isBreak (· == 0x20) cs

/-- Whether a text has code points that are written as escapes only. -/
def hasSpecial (cs : List Nat) : Bool := cs.any fun c => c != 0x09 && !isPrintable c

/-- Whether a text can stand in single quotes. -/
def fitsSingle (cs : List Nat) : Bool :=
  !hasBreakSpace cs && !hasSpaceBreak cs && !cs.contains 0x09 && !hasSpecial cs

def fitsPlain (cs : List Nat) : Bool :=
  let edge (c : Nat) : Bool := c == 0x20 || isBreak c
  fitsSingle cs && !cs.any isBreak && !cs.head?.any edge && !cs.getLast?.any edge && !hasMark cs

/-- Whether a text can stand as a literal block. -/
def fitsBlock (cs : List Nat) : Bool :=
  cs.getLast? != some 0x20 && !hasSpaceBreak cs && !hasSpecial cs

/-- The escape for a code point in double quotes. -/
def escape (c : Nat) : Bytes :=
  let digits (mark : Bytes) (width : Nat) : Bytes :=
    mark ++ (Bytes.hex width c).map fun b => if Byte.isLower b then b - 0x20 else b
  match c with
  | 0x00 => "\\0"
  | 0x07 => "\\a"
  | 0x08 => "\\b"
  | 0x09 => "\\t"
  | 0x0a => "\\n"
  | 0x0b => "\\v"
  | 0x0c => "\\f"
  | 0x0d => "\\r"
  | 0x1b => "\\e"
  | 0x22 => "\\\""
  | 0x5c => "\\\\"
  | 0x85 => "\\N"
  | 0xa0 => "\\_"
  | 0x2028 => "\\L"
  | 0x2029 => "\\P"
  | _ =>
    if c ≤ 0xff then digits "\\x" 2 else if c ≤ 0xffff then digits "\\u" 4 else digits "\\U" 8

/-- Whether a code point has to be escaped in double quotes. -/
def needsEscape (c : Nat) : Bool := !isPrintable c || isBreak c || c == 0x22 || c == 0x5c

/-- A text in double quotes. If it starts with the mark of byte order, all of
it is escaped. -/
def doubleQuoted (cs : List Nat) : Bytes :=
  let marked := cs.head? == some byteOrderMark
  "\"" ++ cs.flatMap (fun c => if marked || needsEscape c then escape c else Utf8.encode c) ++ "\""

/-- How a literal block ends: `-` says that its last line has no end, `+` that
empty lines follow. -/
def chomping (cs : List Nat) : Bytes :=
  match cs.reverse with
  | [] => "-"
  | [c] => if isBreak c then "+" else "-"
  | c :: d :: _ => if !isBreak c then "-" else if isBreak d then "+" else ""

/-- What stands behind the bar of a literal block: a width, if the text starts
with a blank or a line end, and how the block ends. -/
def blockHints (cs : List Nat) : Bytes :=
  let width : Bytes := if cs.head?.any (fun c => c == 0x20 || isBreak c) then "4" else ""
  width ++ chomping cs

/-- The base 64 form of bytes, in lines of seventy digits if they are
many. -/
def binaryText (bs : Bytes) : Bytes :=
  let digits := Base64.encode bs
  if digits.length < 70 then digits
  else
    let rows := (digits.length + 69) / 70
    (List.range rows).flatMap fun i => (digits.drop (70 * i)).take 70 ++ [Byte.newline]

namespace Page

/-- Writes a text without marks of its own. -/
def plain (page : Page) (cs : List Nat) : Page :=
  if cs.isEmpty then { page with fresh := false }
  else { cs.foldl put page.gap with spaced := false, fresh := false }

/-- Writes a text line by line. A line starts at column `indent`, the first one
too if it is `pending`. A single quote is written `quotes` times. -/
def lines (indent quotes : Nat) (pending : Bool) (page : Page) : List Nat → Page
  | [] => page
  | c :: cs =>
    if isBreak c then (page.breakLine c).lines indent quotes true cs
    else
      let page := if pending then page.indent indent else page
      let page := if c == 0x27 then (List.replicate quotes c).foldl put page else page.put c
      { page with fresh := false : Page }.lines indent quotes false cs

/-- Writes a text in single quotes. A quote inside is doubled, and a new line
is indented. -/
def singleQuoted (page : Page) (indent : Nat) (cs : List Nat) : Page :=
  ((page.gap.mark "'").lines indent 2 false cs).mark "'"

def literal (page : Page) (indent : Nat) (cs : List Nat) : Page :=
  let page := page.gap.mark ("|" ++ blockHints cs)
  { page with spaced := true : Page }.lines indent 1 true cs

def doubleQuoted (page : Page) (cs : List Nat) : Page := page.gap.mark (Yaml.doubleQuoted cs)

end Page

/-- How a scalar asks to be written. -/
inductive Style where
  | plain | quoted
deriving DecidableEq, Repr

/-- A text as it stands in a document: as it is, or in base 64 under a tag. -/
structure Scalar where
  tag : Bytes
  text : Bytes

namespace Scalar

def ofText (bs : Bytes) : Scalar :=
  if Utf8.isValid bs then ⟨[], bs⟩ else ⟨"!!binary", binaryText bs⟩

/-- Whether a scalar is a simple key: one line of at most 128 bytes, the tag
included. -/
def isSimpleKey (s : Scalar) : Bool :=
  !(Utf8.points s.text).any isBreak && s.tag.length + s.text.length ≤ 128

/-- Writes a scalar, its further lines from column `indent` on. An empty key is
quoted. -/
def write (style : Style) (indent : Nat) (isKey : Bool) (s : Scalar) (page : Page) : Page :=
  let page := if s.tag.isEmpty then page else page.gap.mark s.tag
  let cs := Utf8.points s.text
  match style with
  | .quoted => page.doubleQuoted cs
  | .plain =>
    if cs.contains 0x0a then
      if fitsBlock cs && !isKey then page.literal indent cs else page.doubleQuoted cs
    else if fitsPlain cs && !(isKey && cs.isEmpty) then page.plain cs
    else if fitsSingle cs then page.singleQuoted indent cs
    else page.doubleQuoted cs

end Scalar

end TemplateCompiler.Yaml
