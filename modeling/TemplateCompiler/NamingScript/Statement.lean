import TemplateCompiler.NamingScript.Expression

/-!
# Reading naming scripts

A script is a list of functions and of statements, one on a line. A block is
what follows a colon: the rest of its line, or deeper lines.
-/

namespace TemplateCompiler

namespace NamingScript

namespace Parse

def smallStatement (fuel : Nat) : Parse Stmt := do
  let m ← mark
  if m == .keyword "return" then
    let spot ← advance
    let next ← mark
    if next == .ended || next == .newline || next == .sign ";" then return .giveBack spot none
    return .giveBack spot (some (← expr fuel false))
  else if m == .keyword "pass" then
    let _ ← advance
    return .pass
  else
    let target ← expr fuel false
    if ← isSign "=" then
      let _ ← advance
      return .assign target (← expr fuel false)
    else return .expr target

def lineStatements (fuel : Nat) : Parse (List Stmt) := do
  match fuel with
  | 0 => pure []
  | fuel + 1 =>
    let first ← smallStatement fuel
    if ← isSign ";" then
      let _ ← advance
      let next ← mark
      if next == .ended then return [first]
      if next == .newline then
        let _ ← advance
        return [first]
      return first :: (← lineStatements fuel)
    if (← mark) != .ended then
      let _ ← expect .newline
    return [first]

mutual

def statement (fuel : Nat) : Parse (List Stmt) := do
  match fuel with
  | 0 => pure []
  | fuel + 1 => if ← isKeyword "if" then return [← choice fuel] else lineStatements fuel

/-- Reads a condition, its block and the alternatives. -/
def choice (fuel : Nat) : Parse Stmt := do
  match fuel with
  | 0 => pure .pass
  | fuel + 1 =>
    let spot ← advance
    let condition ← test fuel
    let _ ← expectSign ":"
    let yes ← block fuel
    if ← isKeyword "elif" then return .choice spot condition yes [← choice fuel]
    if ← isKeyword "else" then
      let _ ← advance
      let _ ← expectSign ":"
      return .choice spot condition yes (← block fuel)
    return .choice spot condition yes []

def block (fuel : Nat) : Parse (List Stmt) := do
  match fuel with
  | 0 => pure []
  | fuel + 1 =>
    if (← mark) == .newline then
      let _ ← advance
      let _ ← expect .indent
      let body ← blockStatements fuel
      let _ ← expect .outdent
      pure body
    else lineStatements fuel

def blockStatements (fuel : Nat) : Parse (List Stmt) := do
  match fuel with
  | 0 => pure []
  | fuel + 1 =>
    let m ← mark
    if m == .outdent || m == .ended then return []
    return (← statement fuel) ++ (← blockStatements fuel)

end

/-- Reads the names of parameters, `before` apart. -/
def params (fuel : Nat) (before : List Ident) : Parse (List Ident) := do
  match fuel with
  | 0 => pure before
  | fuel + 1 =>
    if (← isSign ")") || (← mark) == .ended then return before
    if !before.isEmpty then
      let _ ← expectSign ","
    if ← isSign ")" then return before
    params fuel (before ++ [← ident])

/-- Reads a function behind its keyword. -/
def function (fuel : Nat) : Parse Stmt := do
  let id ← ident
  let _ ← expectSign "("
  let names ← params fuel []
  let _ ← expectSign ")"
  let _ ← expectSign ":"
  return .define id names (← block fuel)

def script (fuel : Nat) : Parse (List Stmt) := do
  match fuel with
  | 0 => pure []
  | fuel + 1 =>
    let m ← mark
    if m == .ended then return []
    if m == .newline then
      let _ ← advance
      script fuel
    else if m == .keyword "def" then
      let _ ← advance
      let f ← function fuel
      return f :: (← script fuel)
    else return (← statement fuel) ++ (← script fuel)

/-- Runs a reader on a text. Each step of a reader takes a token or goes one
of the few levels down to the next that does. -/
def onText {α : Type} (text : Bytes) (reader : Nat → Parse α) : Except Mistake α := do
  let tokens := Token.scan text
  let steps : Parse α := do
    checkScan
    reader (20 * tokens.length + 40)
  return (← steps.run tokens).1

end Parse

def parse (text : Bytes) : Except Mistake (List Stmt) := Parse.onText text Parse.script

/-- The expression that a text consists of. -/
def parseExpr (text : Bytes) : Except Mistake Expr :=
  Parse.onText text fun fuel => do
    let value ← Parse.expr fuel false
    if (← Parse.mark) == .newline then
      let _ ← Parse.advance
    let t ← Parse.current
    if t.mark != .ended then
      Parse.failAt t.after ("got " ++ t.mark.describe ++ " after expression, want EOF")
    pure value

end NamingScript

end TemplateCompiler
