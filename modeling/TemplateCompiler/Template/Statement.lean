import TemplateCompiler.Template.Expression
import TemplateCompiler.Template.Piece

/-!
# The arguments of statements

What stands between a statement's name and the end of its tag: the names and
the iterable of a loop, the targets and the value of an assignment, the
template of an include.
-/

namespace TemplateCompiler.Statement

/-- The words of the arguments. -/
def tokens (s : Statement) : Except SyntaxError (List Token) := Token.scan s.argsPos s.args

/-- The position behind the arguments. -/
def stop (s : Statement) : Position := s.argsPos.after s.args

def expression (s : Statement) : Except SyntaxError Node := Expression.parse s.argsPos s.args

/-- How a word changes the depth in brackets, `none` if it is no bracket. -/
def depthChange? : Lexeme → Option Int
  | .op o => if o.isOpening then some 1 else if o.isClosing then some (-1) else none
  | _ => none

/-- Cuts words at the first one outside brackets that satisfies `p`: what
stands before it, the word, and what stands behind. -/
def cut? (p : Lexeme → Bool) (depth : Int) :
    List Token → Option (List Token × Token × List Token)
  | [] => none
  | t :: rest =>
    let skip (change : Int) :=
      (cut? p (depth + change) rest).map fun (before, found, after) => (t :: before, found, after)
    match depthChange? t.lexeme with
    | some change => skip change
    | none => if depth == 0 && p t.lexeme then some ([], t, rest) else skip 0

/-- Cuts words at the commas outside brackets. -/
def parts (depth : Int) : List Token → List (List Token)
  | [] => [[]]
  | t :: rest =>
    let change := depthChange? t.lexeme
    let more := parts (depth + change.getD 0) rest
    if change.isNone && depth == 0 && t.lexeme == .op .comma then [] :: more
    else match more with
      | [] => [[t]]
      | part :: more => (t :: part) :: more

/-- The names of a loop, with commas between them. `loopIn` is the word that
ends them. -/
def loopNames (loopIn : Token) : List Token → Except SyntaxError (List Node)
  | [] => .error ⟨loopIn.pos, .loopTrailingComma⟩
  | [t] =>
    match t.lexeme with
    | .name name => .ok [.symbol t.pos name]
    | got => .error ⟨t.pos, .loopTarget got⟩
  | t :: comma :: rest =>
    match t.lexeme with
    | .name name =>
      if comma.lexeme == .op .comma then do
        let more ← loopNames loopIn rest
        .ok (.symbol t.pos name :: more)
      else .error ⟨comma.pos, .loopComma comma.lexeme⟩
    | got => .error ⟨t.pos, .loopTarget got⟩

/-- The loop variables and the iterable of a loop whose tag stands at `pos`:
one name is a symbol, several are an array. -/
def loop (pos : Position) (s : Statement) : Except SyntaxError (Node × Node) := do
  let ts ← s.tokens
  match cut? (· == .name "in") 0 ts with
  | none | some ([], _) => .error ⟨pos, .noLoopIn⟩
  | some (first :: more, loopIn, after) =>
    let names ← loopNames loopIn (first :: more)
    let vars := match names with
      | [name] => name
      | names => .array first.pos names
    let iterable ← Expression.ofTokens s.stop after
    .ok (vars, iterable)

/-- One target of an assignment: a name or a member. `pos` is where the tag
stands. -/
def target (pos : Position) (part : List Token) : Except SyntaxError Node :=
  match part with
  | [] => .error ⟨pos, .emptyTarget⟩
  | first :: more => do
    let node ← Expression.ofTokens (more.getLastD first).pos part
    match node with
    | .symbol .. | .lookup .. => .ok node
    | other => .error ⟨first.pos, .badTarget other.kind⟩

/-- The targets of an assignment; a comma may stand behind the last. -/
def targets (pos : Position) (ts : List Token) : Except SyntaxError (List Node) :=
  match ts with
  | [] => .error ⟨pos, .noTarget⟩
  | _ =>
    let found := parts 0 ts
    let found := if found.getLast? == some [] then found.dropLast else found
    found.mapM (target pos)

/-- The targets of an assignment and, behind an equals sign, its value. -/
def assignment (pos : Position) (s : Statement) : Except SyntaxError (List Node × Option Node) := do
  let ts ← s.tokens
  match cut? (· == .op .assign) 0 ts with
  | none =>
    let found ← targets pos ts
    .ok (found, none)
  | some (before, _, after) =>
    let found ← targets pos before
    let value ← Expression.ofTokens s.stop after
    .ok (found, some value)

/-- The template of an include, and whether it may be missing. -/
def embedding (s : Statement) : Except SyntaxError (Node × Bool) := do
  let ts ← s.tokens
  match ts.reverse with
  | last :: before :: rest =>
    if last.lexeme == .name "missing" && before.lexeme == .name "ignore" then
      let template ← Expression.ofTokens s.stop rest.reverse
      .ok (template, true)
    else
      let template ← Expression.ofTokens s.stop ts
      .ok (template, false)
  | _ =>
    let template ← Expression.ofTokens s.stop ts
    .ok (template, false)

end TemplateCompiler.Statement
