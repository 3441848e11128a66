import TemplateCompiler.Text.Letter
import TemplateCompiler.Text.Quoted
import TemplateCompiler.Yaml.Value

/-!
# Tokens of naming scripts

The functions of partials may be named by a script in a small language of
expressions and functions, whose blocks are marked by indentation.
`Token.scan` cuts a script into tokens. Line ends inside brackets and blank
lines mean nothing, and deeper and shallower lines are tokens of their own. A
token knows where it starts and where the scanner stood behind it. If the text
cannot be scanned on, the list ends with a token that says why.
-/

namespace TemplateCompiler

attribute [local instance (2000)] instPowNat

namespace NamingScript

/-- A place in a script, counted from one. -/
structure Spot where
  line : Nat := 1
  column : Nat := 1
deriving DecidableEq, Repr, Inhabited

def Spot.describe (spot : Spot) (file : Bytes) : Bytes :=
  file ++ ":" ++ Bytes.decimal spot.line ++ ":" ++ Bytes.decimal spot.column

/-- Something wrong at a place. -/
structure Mistake where
  spot : Spot
  reason : Bytes
  /-- An earlier place, which the reason names at its end. -/
  earlier : Option Spot := none
deriving DecidableEq, Repr, Inhabited

def Mistake.message (file : Bytes) (m : Mistake) : Bytes :=
  m.spot.describe file ++ ": " ++ m.reason ++ (m.earlier.map (·.describe file)).getD []

/-- What a token is. -/
inductive Mark where
  | ended
  | newline
  | indent
  | outdent
  | name (text : Bytes)
  | int (value : Nat)
  | float (value : Double)
  | string (value : Bytes)
  | sign (text : Bytes)
  | keyword (text : Bytes)
  /-- A word that the language keeps for later. -/
  | illegal
  /-- The scanner cannot go on. -/
  | broken (spot : Spot) (reason : Bytes)
deriving DecidableEq, Repr

def Mark.describe : Mark → Bytes
  | .ended | .broken .. => "end of file"
  | .newline => "newline"
  | .indent => "indent"
  | .outdent => "outdent"
  | .name _ => "identifier"
  | .int _ => "int literal"
  | .float _ => "float literal"
  | .string _ => "string literal"
  | .sign text => "'" ++ text ++ "'"
  | .keyword text => text
  | .illegal => "illegal token"

/-- A token, where it starts, and where the scanner stood behind it. -/
structure Token where
  mark : Mark
  spot : Spot
  after : Spot
deriving DecidableEq, Repr

/-- A scanner on its way through a script. -/
structure Scanner where
  rest : List Nat
  spot : Spot := {}
  /-- How many brackets are open. -/
  depth : Nat := 0
  /-- The indentations of the open blocks, the innermost first. -/
  indents : List Nat := [0]
  /-- Blocks to open, or to close if negative, before the next token. -/
  pending : Int := 0
  /-- Whether a line starts here. -/
  lineStart : Bool := true
deriving Repr

namespace Scanner

def behind (spot : Spot) (c : Nat) : Spot :=
  if c == 0x0a then ⟨spot.line + 1, 1⟩ else ⟨spot.line, spot.column + 1⟩

/-- The scanner behind `n` characters. -/
def skip (s : Scanner) (n : Nat) : Scanner :=
  { s with rest := s.rest.drop n, spot := (s.rest.take n).foldl behind s.spot }

/-- A token of the next `n` characters. -/
def token (s : Scanner) (mark : Mark) (n : Nat) : Token × Scanner :=
  let s' := s.skip n
  (⟨mark, s.spot, s'.spot⟩, s')

/-- The token that ends the list: an error at a place. -/
def fail (s : Scanner) (spot : Spot) (reason : Bytes) : Token × Scanner :=
  (⟨.broken spot reason, spot, spot⟩, { s with rest := [] })

/-- A line's indentation and the number of characters it takes. A tab goes to
the next column that is a multiple of eight. -/
def indentation (spot : Spot) : List Nat → Nat × Nat
  | 0x20 :: rest =>
    let (width, n) := indentation (behind spot 0x20) rest
    (width + 1, n + 1)
  | 0x09 :: rest =>
    let (width, n) := indentation (behind spot 0x09) rest
    (width + (8 - (spot.column - 1) % 8), n + 1)
  | _ => (0, 0)

/-- Whether a text ends here. A zero character ends it too. -/
def isEnd : List Nat → Bool
  | [] => true
  | c :: _ => c == 0

/-- Whether a line holds nothing but a comment. -/
def isBlankLine (rest : List Nat) : Bool :=
  isEnd rest || rest.head? == some 0x23 || rest.head? == some 0x0a

/-- Notes the blocks that a line's indentation opens or closes. -/
def measure (s : Scanner) (width : Nat) : Except Bytes Scanner :=
  let current := s.indents.headD 0
  if current < width then .ok { s with pending := s.pending + 1, indents := width :: s.indents }
  else
    let kept := s.indents.dropWhile (width < ·)
    let closed := s.indents.length - kept.length
    if kept.headD 0 == width then .ok { s with pending := s.pending - closed, indents := kept }
    else .error "unindent does not match any outer indentation level"

def keywords : List Bytes :=
  ["and", "break", "continue", "def", "elif", "else", "for", "if", "in", "lambda", "load", "not",
    "or", "pass", "return", "while"]

/-- The words that the language keeps for later. -/
def keptWords : List Bytes :=
  ["as", "class", "del", "except", "finally", "from", "global", "import", "is", "nonlocal",
    "raise", "try", "with", "yield"]

def isNameStart (c : Nat) : Bool :=
  (0x61 ≤ c && c ≤ 0x7a) || (0x41 ≤ c && c ≤ 0x5a) || c == 0x5f || (0x80 ≤ c && isLetter c)

def isDigit (c : Nat) : Bool := 0x30 ≤ c && c ≤ 0x39

def isNamePart (c : Nat) : Bool := isNameStart c || isDigit c

def wordMark (word : Bytes) : Mark :=
  if keywords.contains word then .keyword word
  else if keptWords.contains word then .illegal
  else .name word

/-- The signs, longer ones before their beginnings. -/
def signs : List String :=
  ["//=", "<<=", ">>=", "==", "!=", "<=", ">=", "+=", "-=", "*=", "/=", "%=", "&=", "|=", "^=",
    "**", "//", "<<", ">>", "+", "-", "*", "/", "%", "&", "|", "^", "~", ",", "=", ";", ":", "<",
    ">", "(", ")", "[", "]", "\x7b", "\x7d"]

def sign? (rest : List Nat) : Option String :=
  signs.find? fun sign => (sign.toList.map Char.toNat).isPrefixOf rest

/-- How a sign changes the number of open brackets. -/
def depthAfter (depth : Nat) (sign : String) : Nat :=
  if ["(", "[", "\x7b"].contains sign then depth + 1
  else if [")", "]", "\x7d"].contains sign then depth - 1
  else depth

/-! ### Numbers -/

def digitsIn (base : Nat) (digits : List Nat) : Nat :=
  digits.foldl (fun n c => base * n + (Byte.hexValue? (UInt8.ofNat c)).getD 0) 0

def isDigitIn (base : Nat) (c : Nat) : Bool :=
  c < 0x80 && ((Byte.hexValue? (UInt8.ofNat c)).any (· < base))

/-- The number of characters of an exponent, if there is a sound one. -/
def exponentLength (rest : List Nat) : Option Nat :=
  match rest with
  | e :: sign :: more =>
    if e != 0x65 && e != 0x45 then some 0
    else if sign == 0x2b || sign == 0x2d then
      match (more.takeWhile isDigit).length with
      | 0 => none
      | n => some (n + 2)
    else some (((sign :: more).takeWhile isDigit).length + 1)
  | [e] => if e == 0x65 || e == 0x45 then some 1 else some 0
  | [] => some 0

/-- A number in a base that its beginning names. In the bases two and eight it
is less than `2 ^ 63`. -/
def based (s : Scanner) (base : Nat) (kind : Bytes) : Token × Scanner :=
  let digits := (s.rest.drop 2).takeWhile (isDigitIn base)
  let value := digitsIn base digits
  if digits.isEmpty then
    s.fail (if base == 16 then s.spot else (s.skip 2).spot) ("invalid " ++ kind ++ " literal")
  else if base != 16 && 2 ^ (63 : Nat) ≤ value then s.fail s.spot "invalid int literal"
  else s.token (.int value) (digits.length + 2)

/-- A decimal number: an integer unless it has a point or an exponent. -/
def decimal (s : Scanner) : Token × Scanner :=
  let whole := s.rest.takeWhile isDigit
  let rest := s.rest.drop whole.length
  let hasPoint := rest.head? == some 0x2e
  let decimals := if hasPoint then (rest.drop 1).takeWhile isDigit else []
  let pointed := whole.length + (if hasPoint then decimals.length + 1 else 0)
  match exponentLength (s.rest.drop pointed) with
  | none => s.fail (s.skip (pointed + 2)).spot "invalid float literal"
  | some exp =>
    if hasPoint || 0 < exp then
      match YamlValue.float? (Utf8.ofPoints (s.rest.take (pointed + exp))) with
      | some d => s.token (.float d) (pointed + exp)
      | none => s.fail (s.skip (pointed + exp)).spot "invalid float literal"
    else if whole.head? == some 0x30 && whole.any (· != 0x30) then
      if whole.all (· ≤ 0x37) then
        s.fail (s.skip whole.length).spot
          ("obsolete form of octal literal; use 0o" ++ Utf8.ofPoints (whole.drop 1))
      else s.fail s.spot "invalid int literal"
    else s.token (.int (digitsIn 10 whole)) whole.length

def number (s : Scanner) : Token × Scanner :=
  match s.rest with
  | 0x30 :: mark :: _ =>
    if mark == 0x78 || mark == 0x58 then s.based 16 "hex"
    else if mark == 0x6f || mark == 0x4f then s.based 8 "octal"
    else if mark == 0x62 || mark == 0x42 then s.based 2 "binary"
    else s.decimal
  | _ => s.decimal

/-! ### Strings -/

/-- How many characters the body of a string takes up to its closing quotes. -/
inductive StringEnd where
  | closed (length : Nat)
  | brokenLine
  | ended
deriving DecidableEq, Repr

/-- One character more in front of the end. -/
def StringEnd.shift (n : Nat) : StringEnd → StringEnd
  | .closed length => .closed (length + n)
  | e => e

/-- Finds the end of a string in single or triple quotes. A backslash guards
the character behind it. -/
def stringEnd (quote : Nat) (triple guarded : Bool) : List Nat → StringEnd
  | [] => .ended
  | c :: rest =>
    if guarded then (stringEnd quote triple false rest).shift 1
    else if c == quote && (!triple || [quote, quote].isPrefixOf rest) then .closed 0
    else if c == 0x0a && !triple then .brokenLine
    else (stringEnd quote triple (c == 0x5c) rest).shift 1

/-! ### Escapes -/

def letterEscape? (b : UInt8) : Option UInt8 :=
  ([(0x61, 0x07), (0x62, 0x08), (0x66, 0x0c), (0x6e, 0x0a), (0x72, 0x0d), (0x74, 0x09),
    (0x76, 0x0b), (0x5c, 0x5c), (0x27, 0x27), (0x22, 0x22)] : List (UInt8 × UInt8)).lookup b

/-- A code in base sixteen with four upper-case digits or more. -/
def codeText (code : Nat) : Bytes :=
  let shown := Bytes.toUpper (Bytes.inBase 16 code)
  List.replicate (4 - shown.length) Byte.zero ++ shown

/-- The error of an escape that gives a byte above those of ASCII. -/
def beyondAscii (kind shown : Bytes) (code : Nat) : Bytes :=
  "non-ASCII " ++ kind ++ " escape " ++ shown ++ " (use \\u" ++ codeText code
    ++ " for the UTF-8 encoding of U+" ++ codeText code ++ ")"

def octalEscape (digits : Bytes) : Except Bytes Bytes :=
  let code := digits.foldl (fun n d => 8 * n + (d.toNat - 0x30)) 0
  if 0x7f < code then .error (beyondAscii "octal" ("\\" ++ Bytes.inBase 8 code) code)
  else .ok [UInt8.ofNat code]

/-- What an escape of a fixed number of digits in base sixteen stands for.
`text` starts with its backslash and goes on to the end of the string, and
`size` counts the backslash and the letter too. Two digits give a byte of
ASCII, more of them any character. -/
def hexEscape (size : Nat) (text : Bytes) : Except Bytes Bytes :=
  let shown := text.take size
  let digits := (shown.drop 2).map Byte.hexValue?
  let code := digits.foldl (fun n d => 16 * n + d.getD 0) 0
  if text.length < size then .error ("truncated escape sequence " ++ text)
  else if digits.any Option.isNone then .error ("invalid escape sequence " ++ shown)
  else if size == 4 && 0x7f < code then .error (beyondAscii "hex" shown code)
  else if 0x10ffff < code then
    .error ("code point out of range: " ++ shown ++ " (max \\U" ++ Bytes.hex 8 code ++ ")")
  else if 0xd800 ≤ code && code < 0xe000 then
    .error ("invalid Unicode code point U+" ++ codeText code)
  else .ok (Utf8.encode code)

/-- What an escape stands for, given the bytes behind its backslash: its text
and how many of them it takes. -/
def escape (rest : Bytes) : Except Bytes (Bytes × Nat) :=
  let hex (size : Nat) : Except Bytes (Bytes × Nat) :=
    return (← hexEscape size (Byte.backslash :: rest), size - 1)
  match rest with
  | [] => .error "truncated escape sequence \\"
  | b :: _ =>
    match letterEscape? b with
    | some code => .ok ([code], 1)
    | none =>
      let octal := (rest.take 3).takeWhile fun d => Byte.isDigit d && d < 0x38
      if b == 0x0a then .ok ([], 1)
      else if b == 0x78 then hex 4
      else if b == 0x75 then hex 6
      else if b == 0x55 then hex 10
      else if octal.isEmpty then .error ("invalid escape sequence \\" ++ Utf8.encode b.toNat)
      else return (← octalEscape octal, octal.length)

/-- The text of a string's body. `taken` bytes belong to an escape that was
read before. -/
def unescape (taken : Nat) : Bytes → Except Bytes Bytes
  | [] => .ok []
  | b :: rest =>
    match taken with
    | n + 1 => unescape n rest
    | 0 =>
      if b == Byte.backslash then do
        let (text, n) ← escape rest
        return text ++ (← unescape n rest)
      else return b :: (← unescape 0 rest)

/-- A string. `raw` strings start with a letter and have no escapes. -/
def string (s : Scanner) (raw : Bool) : Token × Scanner :=
  let lead := if raw then 1 else 0
  let body := s.rest.drop lead
  let quote := body.headD 0
  let triple := [quote, quote, quote].isPrefixOf body
  let quotes := if triple then 3 else 1
  let inner := body.drop quotes
  match stringEnd quote triple false inner with
  | .ended => s.fail s.spot "unexpected EOF in string"
  | .brokenLine => s.fail s.spot "unexpected newline in string"
  | .closed length =>
    let text := Utf8.ofPoints (inner.take length)
    let value := if raw then .ok text else unescape 0 text
    match value with
    | .ok value => s.token (.string value) (lead + length + 2 * quotes)
    | .error reason => s.fail s.spot reason

/-! ### Tokens -/

/-- The token at a character that starts one. -/
def lexeme (s : Scanner) (c : Nat) : Token × Scanner :=
  let following := (s.rest.drop 1).headD 0
  if (c == 0x22 || c == 0x27) then s.string false
  else if c == 0x72 && (following == 0x22 || following == 0x27) then s.string true
  else if isNameStart c then
    let word := s.rest.takeWhile isNamePart
    s.token (wordMark (Utf8.ofPoints word)) word.length
  else if isDigit c || (c == 0x2e && isDigit following) then s.number
  else if c == 0x2e then s.token (.sign ".") 1
  else
    match sign? s.rest with
    | some sign =>
      if depthAfter 1 sign == 0 && s.depth == 0 then
        s.fail s.spot ("unexpected " ++ quotedPoint c)
      else
        let (t, s') := s.token (.sign (Bytes.ofString sign)) sign.length
        (t, { s' with depth := depthAfter s.depth sign })
    | none =>
      if c == 0x5c then s.fail (s.skip 1).spot "stray backslash in program"
      else if c == 0x21 then s.fail s.spot "unexpected '!'"
      else s.fail s.spot ("unexpected input character " ++ quotedPoint c)

/-- The next token. `fuel` bounds the blank lines in front of it. -/
def next (fuel : Nat) (s : Scanner) : Token × Scanner :=
  match fuel with
  | 0 => s.token .ended 0
  | fuel + 1 =>
    let atStart := s.lineStart
    let (width, n) := if atStart then indentation s.spot s.rest else (0, 0)
    let s := { s.skip n with lineStart := false }
    let blank := atStart && isBlankLine s.rest
    match if atStart && !blank && s.depth == 0 then s.measure width else .ok s with
    | .error reason => s.fail s.spot reason
    | .ok s =>
      if s.pending < 0 then
        let (t, s') := s.token .outdent 0
        (t, { s' with pending := s.pending + 1 })
      else if 0 < s.pending then
        let (t, s') := s.token .indent 0
        (t, { s' with pending := s.pending - 1 })
      else
        let s := s.skip (s.rest.takeWhile fun c => c == 0x20 || c == 0x09).length
        let s := if s.rest.head? == some 0x23 then
          s.skip (s.rest.takeWhile fun c => c != 0x0a && c != 0).length else s
        match if isEnd s.rest then [] else s.rest with
        | [] =>
          if s.indents.length ≤ 1 then s.token .ended 0
          else if atStart then
            next fuel { s with pending := 1 - (s.indents.length : Int), indents := [0] }
          else
            let (t, s') := s.token .newline 0
            (t, { s' with lineStart := true })
        | c :: after =>
          if c == 0x0a then
            if 0 < s.depth || blank then next fuel { s.skip 1 with lineStart := true }
            else
              let (t, s') := s.token .newline 1
              (t, { s' with lineStart := true })
          else if c == 0x5c && after.head? == some 0x0a then next fuel (s.skip 2)
          else s.lexeme c

/-- The tokens of the rest of a script. `fuel` bounds their number. -/
def tokens (fuel : Nat) (s : Scanner) : List Token :=
  match fuel with
  | 0 => []
  | fuel + 1 =>
    let (t, s') := s.next (s.rest.length + 2)
    match t.mark with
    | .ended | .broken .. => [t]
    | _ => t :: tokens fuel s'

/-- The characters of a script with one kind of line end. -/
def normalized : List Nat → List Nat
  | 0x0d :: 0x0a :: rest => 0x0a :: normalized rest
  | 0x0d :: rest => 0x0a :: normalized rest
  | c :: rest => c :: normalized rest
  | [] => []

end Scanner

/-- The tokens of a script. The last one ends it. -/
def Token.scan (text : Bytes) : List Token :=
  let codes := Scanner.normalized (Utf8.points text)
  -- a character opens or closes at most one block
  Scanner.tokens (3 * codes.length + 3) { rest := codes }

end NamingScript

end TemplateCompiler
