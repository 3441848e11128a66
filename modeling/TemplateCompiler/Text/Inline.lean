import TemplateCompiler.Text.Utf8

/-!
# Values on one line

Files with settings are read line by line. What stands on a line is text in
quotes, a list in brackets or a plain word, and a comment may follow it. Each
reader returns what it has read and what follows that, and fails at an end of
line that comes too early.
-/

namespace TemplateCompiler

namespace Inline

/-- The lines of a text that say something, with their numbers from one. -/
def lines (bs : Bytes) : List (Nat × Bytes) :=
  let trimmed := (bs.splitOn Byte.newline).map (Bytes.trimEnd Byte.isBlank)
  let saysNothing (line : Bytes) : Bool :=
    let content := line.dropWhile Byte.isBlank
    content.isEmpty || content.head? == some Byte.hash
  (trimmed.zipIdx 1).filterMap fun (line, i) => if saysNothing line then none else some (i, line)

/-- Whether nothing but a comment follows a value. -/
def isRest (bs : Bytes) : Bool :=
  match bs.dropWhile Byte.isBlank with
  | [] => true
  | b :: rest => b == Byte.hash && rest.length + 1 < bs.length

def hexCode? (digits : Bytes) : Option Bytes := do
  let values ← digits.mapM Byte.hexValue?
  let code := values.foldl (fun n d => 16 * n + d) 0
  if code.isValidChar then some (Utf8.encode code) else none

/-- Reads text in double quotes behind the first one. `letters` are the letters
behind a backslash that stand for a byte. -/
def quoted (letters : List (UInt8 × UInt8)) : Bytes → Option (Bytes × Bytes)
  | [] => none
  | Byte.quote :: rest => some ([], rest)
  | Byte.backslash :: 0x75 :: a :: b :: c :: d :: rest => do
    let code ← hexCode? [a, b, c, d]
    let (text, after) ← quoted letters rest
    some (code ++ text, after)
  | Byte.backslash :: letter :: rest => do
    let byte ← letters.lookup letter
    let (text, after) ← quoted letters rest
    some (byte :: text, after)
  | b :: rest => do
    let (text, after) ← quoted letters rest
    some (b :: text, after)

/-- Reads items with commas between them behind a bracket, up to the closing
one. `fuel` bounds how many. -/
def items {α : Type} (item : Bytes → Option (α × Bytes)) (fuel : Nat) (bs : Bytes) :
    Option (List α × Bytes) :=
  match fuel, bs.dropWhile Byte.isBlank with
  | 0, _ => none
  | _, Byte.closeBracket :: rest => some ([], rest)
  | fuel + 1, bs => do
    let (first, rest) ← item bs
    match rest.dropWhile Byte.isBlank with
    | Byte.comma :: rest => do
      let (more, rest) ← items item fuel rest
      some (first :: more, rest)
    | Byte.closeBracket :: rest => some ([first], rest)
    | _ => none

end Inline

end TemplateCompiler
