import TemplateCompiler.Compile.Session
import TemplateCompiler.NamingScript.Call
import TemplateCompiler.NamingScript.Datum
import TemplateCompiler.NamingScript.Statement

/-!
# Evaluators and naming functions

An evaluator runs expressions and scripts one after the other. What a script
assigns is known to those after it. `namer` makes a naming of a script that
defines a function `unit_name`. Where the function fails, the naming falls back
on the names that partials have without a script. What a script prints goes to
the log.
-/

namespace TemplateCompiler

namespace NamingScript

/-- What is given to scripts and what they have defined. -/
structure Evaluator where
  /-- Functions of the program. -/
  builtins : List Binding
  /-- What was set or defined. -/
  globals : List Binding := []
  machine : Machine := {}
deriving Repr, Inhabited

namespace Evaluator

def hostFunctions : List Bytes := ["fold", "replace_all"]

/-- An evaluator with the functions that every script is given, and more. -/
def start (more : List Bytes) : Evaluator :=
  { builtins := (hostFunctions ++ more).map fun name => (name, .builtin name) }

/-- What the next script is given. What was defined hides what is built in. -/
def given (e : Evaluator) : List Binding := e.globals ++ e.builtins

def knows (e : Evaluator) (name : Bytes) : Bool := (givenValue? e.given name).isSome

def run {α : Type} (e : Evaluator) (step : Run α) : Except Bytes α × Evaluator :=
  let (result, machine) := step.run.run e.machine
  (result, { e with machine })

def set (e : Evaluator) (name : Bytes) (d : Datum) : Evaluator :=
  { e with globals := bindValue e.globals name d.toValue }

/-- The value of a name that was set or defined. -/
def get? (e : Evaluator) (name : Bytes) : Option Datum :=
  (e.globals.lookup name).map Value.toDatum

/-- An evaluator with room for one more script that assigns some names and has
a length, and the number of the script. -/
def addScript (e : Evaluator) (names : List Bytes) (length : Nat) : Nat × Evaluator :=
  let m := e.machine
  let scripts := m.scripts.push { names, given := e.given }
  (m.scripts.size, { e with machine := { m with scripts, size := m.size + length } })

/-- The file that expressions are said to be in. -/
def exprFile : Bytes := "<eval>"

def scriptFile : Bytes := "<script>"

def eval (e : Evaluator) (text : Bytes) : Except Bytes Datum × Evaluator :=
  let failed (reason : Bytes) : Bytes := "starlark evaluation error: " ++ reason
  let checked : Except Mistake Expr := do
    let expr ← parseExpr text
    expr.check e.knows
    pure expr
  match checked with
  | .error cause => (.error (failed (cause.message exprFile)), e)
  | .ok expr =>
    let (script, e) := e.addScript [] text.length
    let (result, e) := e.run (expr.eval (invoke e.machine.size []) ⟨script, none⟩)
    ((result.map Value.toDatum).mapError failed, e)

/-- Runs a script. The names that it assigns are returned in order, and known
from then on unless it fails. -/
def exec (e : Evaluator) (file text : Bytes) : Except Bytes (List Bytes) × Evaluator :=
  let failed (reason : Bytes) : Bytes := "starlark execution error: " ++ reason
  let checked : Except Mistake (List Stmt) := do
    let body ← parse text
    check e.knows body
    pure body
  match checked with
  | .error cause => (.error (failed (cause.message file)), e)
  | .ok body =>
    let (script, e) := e.addScript ((targetsOfBlock body).map Ident.name) text.length
    let (result, e) := e.run (runBlock (invoke e.machine.size []) ⟨script, none⟩ body)
    match result with
    | .error reason => (.error (failed reason), e)
    | .ok _ =>
      let values := (e.machine.scripts.getD script default).values
      (.ok (Bytes.sorted (values.map Prod.fst)),
        { e with globals := values.foldl (fun gs p => bindValue gs p.1 p.2) e.globals })

def isFunction : Value → Bool
  | .builtin _ | .function .. => true
  | _ => false

def function? (e : Evaluator) (name : Bytes) : Option Value :=
  (e.globals.lookup name).filter isFunction

/-- Calls a function that was defined with texts. It has to give a text. -/
def call (e : Evaluator) (name : Bytes) (args : List Bytes) : Except Bytes Bytes × Evaluator :=
  match e.function? name with
  | none => (.error (name ++ " is not a function"), e)
  | some f =>
    let (result, e) := e.run (invoke e.machine.size [] f (args.map .string) [])
    match result with
    | .error reason => (.error ("calling " ++ name ++ ": " ++ reason), e)
    | .ok (.string s) => (.ok s, e)
    | .ok v => (.error (name ++ " returned " ++ v.typeName ++ ", want string"), e)

/-- The records of what was printed, under the name of what was run. -/
def log (e : Evaluator) (thread : Bytes) : List LogRecord :=
  e.machine.printed.map fun text => ⟨.info, "starlark", [("thread", thread), ("msg", text)]⟩

end Evaluator

def namingFunction : Bytes := "unit_name"

/-- The naming by a script that was run. A failure is reported, and so is an
empty name; then the partial gets the name that it has without a script. -/
def namingOf (file : Bytes) (e : Evaluator) : Naming := fun name =>
  let quiet := { e with machine := { e.machine with printed := [] } }
  let (result, e) := quiet.call namingFunction [name]
  let log := e.log namingFunction
  let fallback (reason : Bytes) : Bytes × List LogRecord :=
    (UnitName.ofPartial name, log ++ [⟨.warn, "naming script failed, using default name",
      [("script", file), ("partial", name), ("error", reason)]⟩])
  match result with
  | .error reason => fallback reason
  | .ok [] => fallback "<nil>"
  | .ok given => (given, log)

def namer (file text : Bytes) : Except Bytes Naming × List LogRecord :=
  let (result, e) := (Evaluator.start ["default_name"]).exec file text
  let log := e.log file
  match result with
  | .error reason => (.error reason, log)
  | .ok _ =>
    match e.function? namingFunction with
    | none => (.error (file ++ ": no " ++ namingFunction ++ "(name) function defined"), log)
    | some _ => (.ok (namingOf file e), log)

end NamingScript

end TemplateCompiler
