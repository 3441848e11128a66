import TemplateCompiler.Template.SyntaxError

/-!
# Cutting expressions into words

`Token.scan` cuts the source of an expression into words, each with the
position where it stands, and skips blanks. A word is always as long as it
can be: `===` is one operator, and `1.5` one number, while the dot of `1.a`
is an operator of its own.
-/

namespace TemplateCompiler

/-- A word of an expression and where it stands. -/
structure Token where
  lexeme : Lexeme
  pos : Position
deriving DecidableEq, Repr, Inhabited

namespace Token

/-- What a byte after a backslash stands for in a string. -/
def unescape (b : UInt8) : UInt8 :=
  if b == 0x6e then Byte.newline
  else if b == 0x74 then Byte.tab
  else if b == 0x72 then Byte.carriageReturn
  else b

/-- Reads a string up to its closing quote `q`: its value, the bytes it takes
and what follows; `none` if the quote does not come. -/
def spanString (q : UInt8) : Bytes → Option (Bytes × Bytes × Bytes)
  | [] => none
  | Byte.backslash :: e :: rest =>
    (spanString q rest).map fun (value, taken, after) =>
      (unescape e :: value, Byte.backslash :: e :: taken, after)
  | c :: rest =>
    if c == q then some ([], [c], rest)
    else (spanString q rest).map fun (value, taken, after) => (c :: value, c :: taken, after)

/-- A word at the front of `src`: the bytes it takes and what follows. -/
structure Lexed (src : Bytes) where
  lexeme : Lexeme
  taken : Bytes
  rest : Bytes
  /-- At least one byte is taken. -/
  shorter : rest.length < src.length

/-- A string and what follows it make up the source. -/
theorem spanString_append {q : UInt8} {src value taken rest : Bytes}
    (h : spanString q src = some (value, taken, rest)) : taken ++ rest = src := by
  fun_induction spanString q src generalizing value taken rest with
  | case1 => cases h
  | case2 e more ih =>
    obtain ⟨⟨v, t, r⟩, inner, same⟩ := Option.map_eq_some_iff.1 h
    cases same
    rw [← ih inner]
    rfl
  | case3 => cases h; rfl
  | case4 c more _ _ ih =>
    obtain ⟨⟨v, t, r⟩, inner, same⟩ := Option.map_eq_some_iff.1 h
    cases same
    rw [← ih inner]
    rfl

/-- What follows a run is no longer than where the run starts. -/
theorem length_dropWhile_le (p : UInt8 → Bool) (bs : Bytes) :
    (bs.dropWhile p).length ≤ bs.length :=
  (List.dropWhile_sublist p).length_le

/-- A number at the front of `c :: rest`, where `c` is a digit: digits, and
with a dot before a further digit also its fraction. -/
def number (c : UInt8) (rest : Bytes) : Lexed (c :: rest) :=
  let digits := c :: rest.takeWhile Byte.isDigit
  let plain : Lexed (c :: rest) :=
    ⟨.int digits, digits, rest.dropWhile Byte.isDigit, by
      simpa [Nat.lt_succ_iff] using length_dropWhile_le Byte.isDigit rest⟩
  match h : rest.dropWhile Byte.isDigit with
  | Byte.dot :: d :: more =>
    if Byte.isDigit d then
      let text := digits ++ Byte.dot :: d :: more.takeWhile Byte.isDigit
      ⟨.float text, text, more.dropWhile Byte.isDigit, by
        have h₁ := length_dropWhile_le Byte.isDigit rest
        have h₂ := length_dropWhile_le Byte.isDigit more
        simp only [h, List.length_cons] at h₁ ⊢
        omega⟩
    else plain
  | _ => plain

/-- A name at the front of `c :: rest`, where `c` may start one. -/
def name (c : UInt8) (rest : Bytes) : Lexed (c :: rest) :=
  let text := c :: rest.takeWhile Byte.isNamePart
  ⟨.name text, text, rest.dropWhile Byte.isNamePart, by
    simpa [Nat.lt_succ_iff] using length_dropWhile_le Byte.isNamePart rest⟩

/-- The operator at the front of a text, the longest there is. -/
def operator? (src : Bytes) : Option Op := Op.all.find? fun op => op.text.isPrefixOf src

/-- Every operator takes a byte. -/
theorem length_op_text_pos (op : Op) : 0 < op.text.length := by
  cases op <;> decide

/-- The word at the front of `c :: rest`, where `c` is no blank. -/
def lex (pos : Position) (c : UInt8) (rest : Bytes) : Except SyntaxError (Lexed (c :: rest)) :=
  if c == Byte.quote || c == Byte.apostrophe then
    match h : spanString c rest with
    | some (value, taken, after) =>
      .ok ⟨.string value, c :: taken, after, by
        have := congrArg List.length (spanString_append h)
        simp only [List.length_append, List.length_cons] at this ⊢
        omega⟩
    | none => .error ⟨pos, .unterminatedString⟩
  else if Byte.isDigit c then .ok (number c rest)
  else if Byte.isNameStart c then .ok (name c rest)
  else match operator? (c :: rest) with
    | some op =>
      .ok ⟨.op op, op.text, (c :: rest).drop op.text.length, by
        have := length_op_text_pos op
        simp only [List.length_drop, List.length_cons]
        omega⟩
    | none => .error ⟨pos, .unexpectedByte c⟩

/-- The words of `src`, which starts at `pos`. -/
def scan (pos : Position) (src : Bytes) : Except SyntaxError (List Token) :=
  match src with
  | [] => .ok []
  | c :: rest =>
    if Byte.isBlank c then scan (pos.step c) rest
    else
      match lex pos c rest with
      | .error e => .error e
      | .ok word =>
        match scan (pos.after word.taken) word.rest with
        | .error e => .error e
        | .ok more => .ok (⟨word.lexeme, pos⟩ :: more)
termination_by src.length
decreasing_by
  · simp
  · exact word.shorter

end Token

end TemplateCompiler
