import TemplateCompiler.NamingScript.Syntax
import TemplateCompiler.Text.CaseFold
import TemplateCompiler.Text.EditDistance

/-!
# Names in naming scripts

Before a script runs, every name in it has to mean something. A name that a
function assigns is local to the whole function, otherwise it belongs to the
script, then to what is given to every script. A script assigns each of its own
names once, and conditions and returns stand in functions. `Expr.check` and
`check` find the first mistake: what is misplaced, from the front to the back,
comes before unknown names, and those in functions before those outside.
-/

namespace TemplateCompiler

namespace NamingScript

/-! ### Spelling -/

def foldedName (name : Bytes) : Bytes :=
  Utf8.ofPoints ((Utf8.points name).flatMap fun c =>
    if c == 0x5f then []
    else
      match caseFold [c] with
      | [small] => [small]
      | _ => [c])

/-- The candidate nearest to a name, if fewer than half of the bytes are
wrong. The first of the nearest wins. -/
def nearest (name : Bytes) (candidates : List Bytes) : Option Bytes :=
  let target := foldedName name
  (candidates.foldl (fun (best, bound) candidate =>
    let d := editDistance target (foldedName candidate)
    if d < bound then (some candidate, d) else (best, bound)) (none, (target.length + 1) / 2)).1

/-- A remark about a likely spelling, if there is one. -/
def spellingHint (name : Bytes) (candidates : List Bytes) : Bytes :=
  match nearest name candidates with
  | some best => " (did you mean " ++ best ++ "?)"
  | none => ""

/-! ### What is assigned and used -/

/-- An expression without the parentheses around it. -/
def Expr.bare : Expr → Expr
  | .paren _ inner => inner.bare
  | e => e

/-- The name that an assignment to an expression assigns. -/
def Expr.target? (e : Expr) : Option Ident :=
  match e.bare with
  | .ident id => some id
  | _ => none

mutual

/-- The names that a statement assigns. -/
def Stmt.targets : Stmt → List Ident
  | .assign target _ => target.target?.toList
  | .define id .. => [id]
  | .choice _ _ yes no => targetsOfBlock yes ++ targetsOfBlock no
  | .expr _ | .giveBack .. | .pass => []

def targetsOfBlock : List Stmt → List Ident
  | [] => []
  | s :: ss => s.targets ++ targetsOfBlock ss

end

/-- The names that a function assigns: its parameters and what its body
assigns. -/
def localNames (params : List Ident) (body : List Stmt) : List Bytes :=
  (params ++ targetsOfBlock body).map Ident.name

mutual

/-- The names that an expression uses, in order. -/
def Expr.uses : Expr → List Ident
  | .int .. | .float .. | .string .. => []
  | .ident id => [id]
  | .list _ items | .tuple _ items => usesOfAll items
  | .dict _ entries => usesOfEntries entries
  | .paren _ inner => inner.uses
  | .unary _ _ operand => operand.uses
  | .binary _ left right => left.uses ++ right.uses
  | .conditional test yes no => test.uses ++ yes.uses ++ no.uses
  | .index object key => object.uses ++ key.uses
  | .call function args => function.uses ++ usesOfArguments args

/-- The names that some expressions use. -/
def usesOfAll : List Expr → List Ident
  | [] => []
  | e :: es => e.uses ++ usesOfAll es

def usesOfEntries : List (Expr × Expr) → List Ident
  | [] => []
  | (key, value) :: entries => key.uses ++ value.uses ++ usesOfEntries entries

def usesOfArguments : List (Option Ident × Expr) → List Ident
  | [] => []
  | (_, value) :: args => value.uses ++ usesOfArguments args

end

mutual

/-- The names that a statement uses, those of functions apart. -/
def Stmt.uses : Stmt → List Ident
  | .expr value | .assign _ value | .giveBack _ (some value) => value.uses
  | .choice _ test yes no => test.uses ++ usesOfBlock yes ++ usesOfBlock no
  | .define .. | .giveBack _ none | .pass => []

def usesOfBlock : List Stmt → List Ident
  | [] => []
  | stmt :: stmts => stmt.uses ++ usesOfBlock stmts

end

/-! ### Unknown names -/

/-- What is known outside of all functions: the names of the script, and what
is given to every script. -/
structure Surroundings where
  script : List Bytes := []
  given : Bytes → Bool

namespace Surroundings

def setName : Bytes := "set"

/-- Looks a name up outside of functions. `known` are names that may have been
meant. -/
def find (s : Surroundings) (known : List Bytes) (id : Ident) : Except Mistake Unit :=
  if s.script.contains id.name || s.given id.name then .ok ()
  else if id.name == setName then
    .error { spot := id.spot, reason := "this Starlark dialect does not support sets" }
  else
    let candidates := Bytes.sorted (known ++ s.script)
    .error { spot := id.spot
             reason := "undefined: " ++ id.name ++ spellingHint id.name candidates }

/-- Looks up the names that a function uses. A name that was found is known in
the function from then on. -/
def findInFunction (s : Surroundings) (known : List Bytes) : List Ident → Except Mistake Unit
  | [] => .ok ()
  | id :: ids => do
    if !known.contains id.name then s.find known id
    s.findInFunction (id.name :: known) ids

/-- Looks up the names that functions among statements use. -/
def findInFunctions (s : Surroundings) : List Stmt → Except Mistake Unit
  | [] => .ok ()
  | .define _ params body :: stmts => do
    s.findInFunction (localNames params body) (usesOfBlock body)
    s.findInFunctions stmts
  | _ :: stmts => s.findInFunctions stmts

end Surroundings

/-! ### Misplaced parts -/

/-- An inspection. It stops at the first mistake, and knows the names that the
script has assigned so far. -/
abbrev Inspect := StateT (List Ident) (Except Mistake)

def reportIf (wrong : Bool) (spot : Spot) (reason : Bytes) : Inspect Unit :=
  if wrong then throw { spot, reason } else pure ()

/-- Assigns a name. The names of the script are assigned once. -/
def assignOnce (inFunction : Bool) (id : Ident) : Inspect Unit := do
  if inFunction then return ()
  match (← get).find? (·.name == id.name) with
  | some first =>
    throw { spot := id.spot, reason := "cannot reassign global " ++ id.name ++ " declared at "
            earlier := some first.spot }
  | none => modify (· ++ [id])

/-- Inspects the names of parameters, which are new. -/
def inspectParams (before : List Bytes) : List Ident → Inspect Unit
  | [] => pure ()
  | id :: ids => do
    reportIf (before.contains id.name) id.spot ("duplicate parameter: " ++ id.name)
    inspectParams (id.name :: before) ids

/-- A call takes no more than a number of arguments of each kind. -/
def checkCounts (args : List (Option Ident × Expr)) (spot : Spot) : Inspect Unit := do
  let tooMany (n : Nat) (kind : Bytes) : Inspect Unit :=
    reportIf (256 ≤ n) spot
      (Bytes.decimal n ++ " " ++ kind ++ " arguments in call, limit is 255")
  let named := (args.filter (·.1.isSome)).length
  tooMany (args.length - named) "positional"
  tooMany named "keyword"

mutual

def Expr.inspect : Expr → Inspect Unit
  | .ident _ | .int .. | .float .. | .string .. => pure ()
  | .list _ items | .tuple _ items => inspectAll items
  | .dict _ entries => inspectEntries entries
  | .paren _ inner => inner.inspect
  | .unary _ _ operand => operand.inspect
  | .binary _ left right => do
    left.inspect
    right.inspect
  | .conditional test yes no => do
    test.inspect
    yes.inspect
    no.inspect
  | .index object key => do
    object.inspect
    key.inspect
  | .call function args => do
    function.inspect
    inspectArguments [] args
    checkCounts args function.start

def inspectAll : List Expr → Inspect Unit
  | [] => pure ()
  | e :: es => do
    e.inspect
    inspectAll es

def inspectEntries : List (Expr × Expr) → Inspect Unit
  | [] => pure ()
  | (key, value) :: entries => do
    key.inspect
    value.inspect
    inspectEntries entries

/-- Inspects arguments. `names` are those of the arguments before them. -/
def inspectArguments (names : List Bytes) : List (Option Ident × Expr) → Inspect Unit
  | [] => pure ()
  | (some id, value) :: args => do
    reportIf (names.contains id.name) id.spot
      ("keyword argument " ++ quoted id.name ++ " is repeated")
    value.inspect
    inspectArguments (id.name :: names) args
  | (none, value) :: args => do
    reportIf (!names.isEmpty) value.start "positional argument may not follow named"
    value.inspect
    inspectArguments names args

end

/-- What an expression that cannot be assigned to is called. -/
def Expr.fixedKind : Expr → Bytes
  | .int .. | .float .. | .string .. => "literal"
  | .dict .. => "dictexpr"
  | .unary .. => "unaryexpr"
  | .binary .. => "binaryexpr"
  | .conditional .. => "condexpr"
  | .call .. => "callexpr"
  | _ => "expr"

mutual

def Stmt.inspect (inFunction : Bool) : Stmt → Inspect Unit
  | .expr value => value.inspect
  | .pass => pure ()
  | .assign target value => do
    value.inspect
    match target.target? with
    | some id => assignOnce inFunction id
    | none =>
      let target := target.bare
      throw { spot := target.start, reason := "can't assign to " ++ target.fixedKind }
  | .define id params body => do
    assignOnce inFunction id
    inspectParams [] params
    inspectBlock true body
  | .giveBack spot value => do
    reportIf (!inFunction) spot "return statement not within a function"
    match value with
    | some value => value.inspect
    | none => pure ()
  | .choice spot test yes no => do
    reportIf (!inFunction) spot "if statement not within a function"
    test.inspect
    inspectBlock inFunction yes
    inspectBlock inFunction no

def inspectBlock (inFunction : Bool) : List Stmt → Inspect Unit
  | [] => pure ()
  | s :: ss => do
    s.inspect inFunction
    inspectBlock inFunction ss

end

/-- Checks an expression by itself. -/
def Expr.check (given : Bytes → Bool) (e : Expr) : Except Mistake Unit := do
  let _ ← e.inspect.run []
  let around : Surroundings := { given }
  e.uses.forM (around.find [])

def check (given : Bytes → Bool) (body : List Stmt) : Except Mistake Unit := do
  let (_, globals) ← (inspectBlock false body).run []
  let around : Surroundings := { script := globals.map Ident.name, given }
  around.findInFunctions body
  (usesOfBlock body).forM (around.find [])

end NamingScript

end TemplateCompiler
