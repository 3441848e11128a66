import TemplateCompiler.Number.Double

/-!
# Literal values

The values that literals of templates and of generated code hold. Integers
and numbers in double precision are kept apart. Two further cases reach the
compiler only from an embedding program: `plain` is an integer that is a
value but never an index, and `words` is a list of strings, for which there
is no literal at all.
-/

namespace TemplateCompiler

/-- What a literal stands for. -/
inductive Literal where
  | string (text : Bytes)
  | int (value : Int)
  | float (value : Double)
  | bool (value : Bool)
  | null
  | plain (value : Int)
  | words (items : List Bytes)
deriving DecidableEq, Repr, Inhabited

namespace Literal

def boolText (b : Bool) : Bytes := if b then "true" else "false"

/-- The bare text of a value: no quotes, words in brackets. -/
def text : Literal → Bytes
  | .string s => s
  | .int n | .plain n => Bytes.integer n
  | .float d => d.text
  | .bool b => boolText b
  | .null => "<nil>"
  | .words items => "[" ++ Bytes.join " " items ++ "]"

end Literal

end TemplateCompiler
