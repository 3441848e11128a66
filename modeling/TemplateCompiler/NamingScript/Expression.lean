import TemplateCompiler.NamingScript.Syntax

/-!
# Reading expressions of naming scripts

A reader takes tokens from the front of a list and fails at the first that
cannot stand where it stands. Operators of one level group to the left, and
comparisons do not group at all.
-/

namespace TemplateCompiler

namespace NamingScript

/-- A step of reading: it knows the tokens left. -/
abbrev Parse := StateT (List Token) (Except Mistake)

namespace Parse

def failAt {α : Type} (spot : Spot) (reason : Bytes) : Parse α := throw { spot, reason }

def current : Parse Token := do
  match ← get with
  | t :: _ => pure t
  | [] => pure ⟨.ended, {}, {}⟩

def mark : Parse Mark := return (← current).mark

def isSign (text : Bytes) : Parse Bool := return (← mark) == .sign text

def isKeyword (text : Bytes) : Parse Bool := return (← mark) == .keyword text

/-- Fails if the scanner could not go on. -/
def checkScan : Parse Unit := do
  match ← mark with
  | .broken spot reason => failAt spot reason
  | _ => pure ()

/-- Passes over the next token. Its place is returned. -/
def advance : Parse Spot := do
  let t ← current
  match ← get with
  | _ :: t' :: rest => set (t' :: rest)
  | _ => pure ()
  checkScan
  pure t.spot

/-- The error for a token that cannot stand here. -/
def unexpected {α : Type} (wanted : Bytes) : Parse α := do
  let t ← current
  failAt t.after ("got " ++ t.mark.describe ++ ", want " ++ wanted)

/-- Passes over a token that has to come next. -/
def expect (wanted : Mark) : Parse Spot := do
  if (← mark) == wanted then advance else unexpected wanted.describe

/-- Passes over a sign that has to come next. -/
def expectSign (text : Bytes) : Parse Spot := expect (.sign text)

def ident : Parse Ident := do
  let t ← current
  match t.mark with
  | .name name => do
    let _ ← advance
    pure ⟨t.spot, name⟩
  | _ => failAt t.after "not an identifier"

def negationLevel : Nat := 2

def operandLevel : Nat := 6

/-- The operator that a token stands for. -/
def binaryOp? : Mark → Option BinaryOp
  | .sign text | .keyword text => BinaryOp.ofText? text
  | _ => none

def unarySign? (text : Bytes) : Option UnaryOp :=
  [UnaryOp.minus, .plus].find? (·.text == text)

/-- Reads `not in` as one operator. -/
def joinNotIn : Parse Unit := do
  if ← isKeyword "not" then
    let _ ← advance
    if ← isKeyword "in" then
      let t ← current
      modify fun tokens => { t with mark := .keyword "not in" } :: tokens.drop 1
    else unexpected "in"

def endsList : Mark → Bool
  | .ended | .newline => true
  | .sign text => (["=", "\x7d", "]", ")", ";"] : List Bytes).contains text
  | _ => false

mutual

/-- Reads an expression, which may be a tuple without parentheses. `fuel`
bounds the depth of all these steps. -/
def expr (fuel : Nat) (inParens : Bool) : Parse Expr := do
  match fuel with
  | 0 => unexpected "primary expression"
  | fuel + 1 =>
    let first ← test fuel
    if ← isSign "," then return .tuple first.start (first :: (← moreItems fuel inParens))
    else pure first

def moreItems (fuel : Nat) (trailing : Bool) : Parse (List Expr) := do
  match fuel with
  | 0 => pure []
  | fuel + 1 =>
    if ← isSign "," then
      let spot ← advance
      if endsList (← mark) then
        if trailing then pure [] else failAt spot "unparenthesized tuple with trailing comma"
      else return (← test fuel) :: (← moreItems fuel trailing)
    else pure []

/-- Reads an expression that is no tuple. -/
def test (fuel : Nat) : Parse Expr := do
  match fuel with
  | 0 => unexpected "primary expression"
  | fuel + 1 =>
    let value ← operation fuel 0
    if ← isKeyword "if" then
      let spot ← advance
      let condition ← operation fuel 0
      if !(← isKeyword "else") then failAt spot "conditional expression without else clause"
      let _ ← advance
      return .conditional condition value (← test fuel)
    else pure value

/-- Reads an operation of operators of a level or tighter ones. -/
def operation (fuel level : Nat) : Parse Expr := do
  match fuel with
  | 0 => unexpected "primary expression"
  | fuel + 1 =>
    if operandLevel ≤ level then suffixed fuel
    else if level == negationLevel && (← isKeyword "not") then
      let spot ← advance
      return .unary spot .not (← operation fuel level)
    else
      let left ← operation fuel (level + 1)
      operands fuel level left none

/-- Reads the operators of a level and their right operands. `before` is the
operator in front. Comparisons do not follow an operator of this level. -/
def operands (fuel level : Nat) (left : Expr) (before : Option BinaryOp) : Parse Expr := do
  match fuel with
  | 0 => pure left
  | fuel + 1 =>
    joinNotIn
    match binaryOp? (← mark) with
    | none => pure left
    | some op =>
      if op.level < level then pure left
      else
        if let some earlier := before then
          if op.level == BinaryOp.isIn.level then
            failAt (← current).after
              (earlier.text ++ " does not associate with " ++ op.text ++ " (use parens)")
        let _ ← advance
        let right ← operation fuel (op.level + 1)
        operands fuel level (.binary op left right) (some op)

/-- Reads an operand and what follows it directly. -/
def suffixed (fuel : Nat) : Parse Expr := do
  match fuel with
  | 0 => unexpected "primary expression"
  | fuel + 1 => do suffixes fuel (← operand fuel)

/-- Reads calls and indices behind an operand. -/
def suffixes (fuel : Nat) (object : Expr) : Parse Expr := do
  match fuel with
  | 0 => pure object
  | fuel + 1 =>
    if ← isSign "[" then
      let _ ← advance
      let key ← expr fuel false
      let _ ← expectSign "]"
      suffixes fuel (.index object key)
    else if ← isSign "(" then
      let _ ← advance
      let args ← arguments fuel true
      let _ ← expectSign ")"
      suffixes fuel (.call object args)
    else pure object

def arguments (fuel : Nat) (first : Bool) : Parse (List (Option Ident × Expr)) := do
  match fuel with
  | 0 => pure []
  | fuel + 1 =>
    if (← isSign ")") || (← mark) == .ended then return []
    if !first then
      let _ ← expectSign ","
    if ← isSign ")" then return []
    let value ← test fuel
    if ← isSign "=" then
      match value with
      | .ident id =>
        let _ ← advance
        let value ← test fuel
        return (some id, value) :: (← arguments fuel false)
      | _ => failAt (← current).after "keyword argument must have form name=expr"
    else return (none, value) :: (← arguments fuel false)

/-- Reads the entries of a dict behind its brace. -/
def entries (fuel : Nat) : Parse (List (Expr × Expr)) := do
  match fuel with
  | 0 => pure []
  | fuel + 1 =>
    let key ← test fuel
    let _ ← expectSign ":"
    let value ← test fuel
    if ← isSign "," then
      let _ ← advance
      if ← isSign "\x7d" then return [(key, value)]
      return (key, value) :: (← entries fuel)
    else return [(key, value)]

def operand (fuel : Nat) : Parse Expr := do
  match fuel with
  | 0 => unexpected "primary expression"
  | fuel + 1 =>
    let t ← current
    match t.mark with
    | .name _ => return .ident (← ident)
    | .int value => do
      let _ ← advance
      pure (.int t.spot value)
    | .float value => do
      let _ ← advance
      pure (.float t.spot value)
    | .string value => do
      let _ ← advance
      pure (.string t.spot value)
    | .sign text =>
      if text == "[" then
        let _ ← advance
        if ← isSign "]" then
          let _ ← advance
          return .list t.spot []
        let first ← test fuel
        let more ← moreItems fuel true
        let _ ← expectSign "]"
        return .list t.spot (first :: more)
      else if text == "\x7b" then
        let _ ← advance
        let found ← if ← isSign "\x7d" then pure [] else entries fuel
        let _ ← expectSign "\x7d"
        return .dict t.spot found
      else if text == "(" then
        let _ ← advance
        if ← isSign ")" then
          let _ ← advance
          return .tuple t.spot []
        let value ← expr fuel true
        let _ ← expectSign ")"
        return .paren t.spot value
      else
        match unarySign? text with
        | some op => do
          let _ ← advance
          return .unary t.spot op (← suffixed fuel)
        | none => unexpected "primary expression"
    | _ => unexpected "primary expression"

end

end Parse

end NamingScript

end TemplateCompiler
