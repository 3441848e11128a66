import TemplateCompiler.Text.Quoted

/-!
# Numbers and truth values on a command line

An integer is written with a sign or without, in base ten or behind a mark for
another base: `0x`, `0o` or only `0`, and `0b`. Single underscores may stand
between digits and behind a mark of two letters. A truth value has a few
spellings. A text that is neither is refused with the wording of
`ReadFault.message`.
-/

namespace TemplateCompiler

attribute [local instance (2000)] instPowNat

/-- Why a text is no value of its kind. -/
inductive ReadFault where
  /-- The text has another form. -/
  | malformed
  /-- The number does not fit into 64 bits. -/
  | outOfRange
deriving DecidableEq, Repr, Inhabited

namespace ReadFault

def reason : ReadFault → Bytes
  | .malformed => "invalid syntax"
  | .outOfRange => "value out of range"

/-- The wording of a fault in a text, which names the reader that refuses it. -/
def message (reader text : Bytes) (fault : ReadFault) : Bytes :=
  "strconv." ++ reader ++ ": parsing " ++ quoted text ++ ": " ++ fault.reason

end ReadFault

namespace Integer

def baseOfMark? (letter : UInt8) : Option Nat :=
  match Byte.toLower letter with
  | 0x62 => some 2
  | 0x6f => some 8
  | 0x78 => some 16
  | _ => none

/-- The base of a number without its sign, its digits, and whether there is a
mark of two letters in front of them. -/
def splitBase (text : Bytes) : Nat × Bytes × Bool :=
  match text with
  | Byte.zero :: letter :: d :: rest =>
    match baseOfMark? letter with
    | some base => (base, d :: rest, true)
    | none => (8, text, false)
  | Byte.zero :: _ => (8, text, false)
  | _ => (10, text, false)

/-- Whether the underscores among digits stand where they may: each behind a
digit or a mark, and in front of a digit. -/
def underscoresFit (marked : Bool) (digits : Bytes) : Bool :=
  match Bytes.splitOn Byte.underscore digits with
  | [] => true
  | first :: rest => (marked || !first.isEmpty || rest.isEmpty) && rest.all (!·.isEmpty)

def value? (base : Nat) (digits : Bytes) : Option Nat :=
  digits.foldl (fun value? d => do
    let value ← value?
    let digit ← Byte.hexValue? d
    if digit < base then some (value * base + digit) else none) (some 0)

def magnitude? (text : Bytes) : Option Nat :=
  let (base, digits, marked) := splitBase text
  if text.isEmpty || !underscoresFit marked digits then none
  else value? base (digits.filter (· != Byte.underscore))

def read (text : Bytes) : Except ReadFault Int :=
  let (negative, body) := match text with
    | Byte.minus :: rest => (true, rest)
    | Byte.plus :: rest => (false, rest)
    | _ => (false, text)
  match magnitude? body with
  | none => .error .malformed
  | some n =>
    if negative then
      if n ≤ 2 ^ (63 : Nat) then .ok (-n) else .error .outOfRange
    else if n < 2 ^ (63 : Nat) then .ok n else .error .outOfRange

end Integer

namespace Truth

def trueWords : List Bytes := ["1", "t", "T", "TRUE", "true", "True"]

def falseWords : List Bytes := ["0", "f", "F", "FALSE", "false", "False"]

def read (text : Bytes) : Except ReadFault Bool :=
  if trueWords.contains text then .ok true
  else if falseWords.contains text then .ok false
  else .error .malformed

end Truth

end TemplateCompiler
