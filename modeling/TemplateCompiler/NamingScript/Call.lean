import TemplateCompiler.Compile.UnitName
import TemplateCompiler.NamingScript.Interpreter
import TemplateCompiler.Text.Replace

/-!
# Calls in naming scripts

How arguments become the values of parameters, and what the functions of the
language and of the program do. A function is never called while it is
running, so calls nest no deeper than there are functions, and running ends.
-/

namespace TemplateCompiler

namespace NamingScript

/-! ### Functions of scripts -/

def plural (n : Nat) (word : Bytes) : Bytes := if n == 1 then word else word ++ "s"

namespace FunctionCode

def bindNamed (f : FunctionCode) (bound : List Binding) (arg : Binding) :
    Except Bytes (List Binding) :=
  if !f.params.any (·.name == arg.1) then
    .error ("function " ++ f.name ++ " got an unexpected keyword argument " ++ quoted arg.1)
  else if (bound.lookup arg.1).isSome then
    .error ("function " ++ f.name ++ " got multiple values for parameter " ++ quoted arg.1)
  else .ok (bound ++ [arg])

/-- The values of the parameters for some arguments. -/
def bind (f : FunctionCode) (args : List Value) (named : List Binding) :
    Except Bytes (List Binding) := do
  let names := f.params.map Ident.name
  let count := names.length
  if names.isEmpty then
    let given := args.length + named.length
    if given == 0 then return []
    throw ("function " ++ f.name ++ " accepts no arguments (" ++ Bytes.decimal given ++ " given)")
  if count < args.length then
    throw ("function " ++ f.name ++ " accepts " ++ Bytes.decimal count ++ " "
      ++ plural count "positional argument" ++ " (" ++ Bytes.decimal args.length ++ " given)")
  let bound ← named.foldlM f.bindNamed (names.zip args)
  let missing := names.filter fun name => (bound.lookup name).isNone
  if !missing.isEmpty then
    throw ("function " ++ f.name ++ " missing " ++ Bytes.decimal missing.length ++ " "
      ++ plural missing.length "argument" ++ " (" ++ Bytes.join ", " missing ++ ")")
  return bound

end FunctionCode

/-! ### Functions of the language and of the program -/

/-- Checks the number of arguments of a function that takes them by place. -/
def checkCount (name : Bytes) (count : Nat) (args : List Value) (named : List Binding) :
    Except Bytes Unit := do
  if !named.isEmpty then throw (name ++ ": unexpected keyword arguments")
  if args.length != count then
    throw (name ++ ": got " ++ Bytes.decimal args.length ++ " arguments, want "
      ++ Bytes.decimal count)

def stringArguments (name : Bytes) (place : Nat) : List Value → Except Bytes (List Bytes)
  | [] => .ok []
  | .string s :: args => return s :: (← stringArguments name (place + 1) args)
  | v :: _ => .error (name ++ ": for parameter " ++ Bytes.decimal place ++ ": got " ++ v.typeName
      ++ ", want string")

def oneArgument (name : Bytes) (args : List Value) (named : List Binding) : Except Bytes Value :=
  if !named.isEmpty then .error (name ++ " does not accept keyword arguments")
  else
    match args with
    | [v] => .ok v
    | _ => .error (name ++ ": got " ++ Bytes.decimal args.length ++ " arguments, want exactly 1")

/-- The separator among arguments by name. It is the only one of its
functions. -/
def separator (name : Bytes) (before : Option Bytes) : List Binding → Except Bytes Bytes
  | [] => .ok (before.getD " ")
  | (key, v) :: named =>
    if key == "sep" then
      match before, v with
      | some _, _ => .error (name ++ ": got multiple values for keyword argument " ++ quoted key)
      | none, .string s => separator name (some s) named
      | none, _ => .error (name ++ ": for parameter " ++ quoted key ++ ": got " ++ v.typeName
          ++ ", want string")
    else
      .error (name ++ ": unexpected keyword argument " ++ quoted key ++ spellingHint key ["sep"])

/-- The result of a function of the language or of the program around the
script. It does not print. -/
def builtinResult (name : Bytes) (args : List Value) (named : List Binding) :
    Except Bytes Value := do
  let texts (count : Nat) : Except Bytes (List Bytes) := do
    checkCount name count args named
    stringArguments name 1 args
  if name == "fold" then
    let s := (← texts 1).headD []
    return .string (Utf8.ofPoints (caseFold (Utf8.points s)))
  else if name == "default_name" then
    return .string (UnitName.ofPartial ((← texts 1).headD []))
  else if name == "replace_all" then
    match ← texts 3 with
    | [s, old, new] => return .string (Bytes.replaceAll s old new)
    | _ => return .none
  else if name == "len" then
    checkCount name 1 args named
    let v := args.headD .none
    match v.length? with
    | some n => return .int n
    | none => throw ("len: value of type " ++ v.typeName ++ " has no len")
  else if name == "str" then return .string (← oneArgument name args named).text
  else if name == "type" then return .string (← oneArgument name args named).typeName
  else throw (name ++ ": not available in naming scripts")

def printValues (args : List Value) (named : List Binding) : Run Value := do
  let sep ← Run.ofExcept (separator "print" none named)
  modify fun m => { m with printed := m.printed ++ [Bytes.join sep (args.map Value.text)] }
  pure .none

/-! ### Calling a value -/

/-- Calls a value. `depth` bounds how deep calls nest, and `running` are the
functions that are running. -/
def invoke (depth : Nat) (running : List Nat) : Caller :=
  fun f args named => do
    match f with
    | .builtin name =>
      if name == "print" then printValues args named
      else Run.ofExcept (builtinResult name args named)
    | .function id name =>
      let code := (← get).functions.getD id default
      match depth with
      | 0 => throw ("function " ++ name ++ " called recursively")
      | depth + 1 =>
        if running.contains id then throw ("function " ++ name ++ " called recursively")
        let values ← Run.ofExcept (code.bind args named)
        let number := (← get).calls.size
        let names := localNames code.params code.body
        modify fun m => { m with calls := m.calls.push { names, values } }
        let given ← runBlock (invoke depth (id :: running)) ⟨code.script, some number⟩ code.body
        return given.getD .none
    | v => throw ("invalid call of non-function (" ++ v.typeName ++ ")")

end NamingScript

end TemplateCompiler
