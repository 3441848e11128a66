import TemplateCompiler.Template.Lexeme
import TemplateCompiler.Template.Position

/-!
# Syntax errors

What can be wrong with template source. A `SyntaxError` has a cause and the
position it is blamed on; `Fault.message` has the wording.
-/

namespace TemplateCompiler

/-- The three kinds of tags. -/
inductive Delimiter where
  /-- An expression to be written. -/
  | output
  /-- A statement. -/
  | statement
  /-- A comment. -/
  | comment
deriving DecidableEq, Repr, Inhabited

namespace Delimiter

/-- The byte next to the brace. -/
def mark : Delimiter → UInt8
  | .output => Byte.openBrace
  | .statement => Byte.percent
  | .comment => Byte.hash

def closing : Delimiter → Bytes
  | .output => "\x7d\x7d"
  | .statement => "%\x7d"
  | .comment => "#\x7d"

end Delimiter

/-- Blocks whose content is copied without being read. -/
inductive RawWord where
  | raw
  | verbatim
deriving DecidableEq, Repr, Inhabited

namespace RawWord

/-- The word that opens the block. -/
def text : RawWord → Bytes
  | .raw => "raw"
  | .verbatim => "verbatim"

def ending (w : RawWord) : Bytes := "end" ++ w.text

/-- The block that a word opens. -/
def ofText? (name : Bytes) : Option RawWord :=
  if name == RawWord.raw.text then some .raw
  else if name == RawWord.verbatim.text then some .verbatim
  else none

end RawWord

/-- What is wrong with a source. -/
inductive Fault where
  -- tags
  | unterminatedTag (d : Delimiter)
  | unterminatedRaw (w : RawWord)
  | emptyTag
  | unexpectedTag (name : Bytes)
  | unknownTag (name : Bytes)
  -- words
  | unterminatedString
  | unexpectedByte (byte : UInt8)
  -- expressions
  | noExpression
  | unexpected (got : Option Lexeme)
  | expected (op : Op) (got : Option Lexeme)
  | integerRange (digits : Bytes)
  | numberRange (text : Bytes)
  | indexRange (digits : Bytes)
  | noAttribute (got : Option Lexeme)
  | noFilter (got : Option Lexeme)
  -- statements
  | noEndif
  | noEndifAfterElse
  | noLoopIn
  | loopComma (got : Lexeme)
  | loopTarget (got : Lexeme)
  | loopTrailingComma
  | noEndfor
  | noEndforAfterElse
  | noTarget
  | emptyTarget
  | badTarget (kind : Bytes)
  | noEndset
  | noBlockName
  | noEndblock (name : Bytes)
  | endblockName (found opened : Bytes)
deriving DecidableEq, Repr, Inhabited

namespace Fault

/-- The range error of a number that is too large for its type. -/
def outOfRange (reader text : Bytes) : Bytes :=
  reader ++ ": parsing " ++ quoted text ++ ": value out of range"

def message : Fault → Bytes
  | .unterminatedTag d => "unterminated tag, expected '" ++ d.closing ++ "'"
  | .unterminatedRaw w =>
    "unterminated " ++ w.text ++ " block, expected \x7b% " ++ w.ending ++ " %\x7d"
  | .emptyTag => "empty block tag"
  | .unexpectedTag name => "unexpected '" ++ name ++ "'"
  | .unknownTag name => "unknown block tag: " ++ name
  | .unterminatedString => "unterminated string literal"
  | .unexpectedByte byte => "unexpected character " ++ quotedPoint byte.toNat
  | .noExpression => "expected expression"
  | .unexpected got => "unexpected " ++ Lexeme.describe got
  | .expected op got => "expected " ++ quoted op.text ++ ", got " ++ Lexeme.describe got
  | .integerRange digits =>
    "invalid integer " ++ digits ++ ": " ++ outOfRange "strconv.ParseInt" digits
  | .numberRange text =>
    "invalid number " ++ text ++ ": " ++ outOfRange "strconv.ParseFloat" text
  | .indexRange digits => "invalid index " ++ digits
  | .noAttribute got => "expected attribute name after '.', got " ++ Lexeme.describe got
  | .noFilter got => "expected filter name, got " ++ Lexeme.describe got
  | .noEndif => "expected endif"
  | .noEndifAfterElse => "expected endif after else"
  | .noLoopIn => "invalid for statement, expected 'target in iterable'"
  | .loopComma got => "expected ',' in for target, got " ++ Lexeme.describe (some got)
  | .loopTarget got => "invalid for target " ++ Lexeme.describe (some got)
  | .loopTrailingComma => "trailing ',' in for target"
  | .noEndfor => "expected endfor"
  | .noEndforAfterElse => "expected endfor after else"
  | .noTarget => "invalid set statement, expected a target"
  | .emptyTarget => "invalid set statement, empty target"
  | .badTarget kind => "cannot assign to " ++ kind
  | .noEndset => "expected endset"
  | .noBlockName => "block requires a name"
  | .noEndblock name => "expected endblock for block " ++ quoted name
  | .endblockName found opened =>
    "endblock name " ++ quoted found ++ " does not match block name " ++ quoted opened

end Fault

/-- A syntax error: what is wrong, and where. -/
structure SyntaxError where
  pos : Position
  fault : Fault
deriving DecidableEq, Repr, Inhabited

def SyntaxError.message (e : SyntaxError) : Bytes :=
  e.pos.describe ++ ": " ++ e.fault.message

end TemplateCompiler
