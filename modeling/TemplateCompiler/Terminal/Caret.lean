import TemplateCompiler.Terminal.Width

/-!
# Source lines and carets

An error message shows the line at fault and a caret below the column. Lines
count from one, and so do columns, which count bytes. The blanks in front of
the caret repeat the tabs of the line, so that the caret stands right whatever
the width of a tab is.
-/

namespace TemplateCompiler

def sourceLine? (src : Bytes) (line : Nat) : Option Bytes :=
  match line with
  | 0 => none
  | n + 1 => ((Bytes.splitOn Byte.newline src)[n]?).map (Bytes.trimEnd (· == Byte.carriageReturn))

/-- What stands below a step through a line: a tab below a tab, and a space
below every column of any other character. -/
def Rune.padding : Rune → Bytes
  | .point code => if code == 0x09 then [Byte.tab] else List.replicate (pointWidth code) Byte.space
  | r@(.stray _) => List.replicate r.width Byte.space

/-- The blanks in front of a caret below a column of a line. A column behind
the line stands for its end. -/
def caretPadding (line : Bytes) (column : Nat) : Bytes :=
  (Utf8.runes (line.take (column - 1))).flatMap Rune.padding

end TemplateCompiler
