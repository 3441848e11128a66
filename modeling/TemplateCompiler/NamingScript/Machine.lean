import TemplateCompiler.NamingScript.Operator
import TemplateCompiler.NamingScript.Resolve

/-!
# Machines that run naming scripts

A machine holds what scripts have defined: the variables of each script, the
functions, and the variables of each call. It also keeps what was printed.
-/

namespace TemplateCompiler

namespace NamingScript

abbrev Binding := Bytes × Value

/-- A function of a script. -/
structure FunctionCode where
  name : Bytes
  params : List Ident
  body : List Stmt
  /-- The script that it is part of. -/
  script : Nat
deriving Repr, Inhabited

/-- The variables of a call or of a script. -/
structure Variables where
  /-- The names that are assigned. -/
  names : List Bytes
  values : List Binding := []
deriving Repr, Inhabited

/-- A script that was run. -/
structure Scope extends Variables where
  /-- What it was given. -/
  given : List Binding
deriving Repr, Inhabited

/-- What scripts have defined. -/
structure Machine where
  functions : Array FunctionCode := #[]
  calls : Array Variables := #[]
  scripts : Array Scope := #[]
  /-- The length of all scripts, which bounds the number of functions. -/
  size : Nat := 0
  /-- The texts that were printed, in order. -/
  printed : List Bytes := []
deriving Repr, Inhabited

abbrev Run := ExceptT Bytes (StateM Machine)

/-- Where a step stands: in a script, and in a call of one of its functions. -/
structure Context where
  script : Nat
  call : Option Nat := none

/-- A list with one more binding, which takes the place of an older one. -/
def bindValue (values : List Binding) (name : Bytes) (v : Value) : List Binding :=
  if (values.lookup name).isSome then
    values.map fun p => if p.1 == name then (name, v) else p
  else values ++ [(name, v)]

def languageFunctions : List Bytes :=
  ["abs", "all", "any", "bool", "bytes", "chr", "dict", "dir", "enumerate", "fail", "float",
    "getattr", "hasattr", "hash", "int", "len", "list", "max", "min", "ord", "print", "range",
    "repr", "reversed", "sorted", "str", "tuple", "type", "zip"]

def languageValue? (name : Bytes) : Option Value :=
  if name == "None" then some .none
  else if name == "True" then some (.bool true)
  else if name == "False" then some (.bool false)
  else if languageFunctions.contains name then some (.builtin name)
  else none

/-- What a name means in a script that is given some values, besides its own
names. -/
def givenValue? (given : List Binding) (name : Bytes) : Option Value :=
  (given.lookup name).orElse fun _ => languageValue? name

/-- The value of a variable, unless it is not one of these. `kind` is what they
are called. -/
def Variables.value? (vs : Variables) (kind name : Bytes) : Option (Except Bytes Value) :=
  match vs.values.lookup name with
  | some v => some (.ok v)
  | none =>
    if vs.names.contains name then
      some (.error (kind ++ " variable " ++ name ++ " referenced before assignment"))
    else none

def Variables.assign (vs : Variables) (name : Bytes) (v : Value) : Variables :=
  { vs with values := bindValue vs.values name v }

namespace Machine

def valueOf (m : Machine) (c : Context) (name : Bytes) : Except Bytes Value :=
  let scope := m.scripts.getD c.script default
  let local? := (c.call.bind (m.calls[·]?)).bind (·.value? "local" name)
  match local?, scope.value? "global" name, givenValue? scope.given name with
  | some r, _, _ | none, some r, _ => r
  | none, none, some v => .ok v
  | none, none, none => .error ("undefined: " ++ name)

/-- A machine in which a name has a value: in the call, or in the script. -/
def assign (m : Machine) (c : Context) (name : Bytes) (v : Value) : Machine :=
  match c.call with
  | some id => { m with calls := m.calls.modify id (·.assign name v) }
  | none =>
    { m with scripts := m.scripts.modify c.script fun s =>
        { s with toVariables := s.toVariables.assign name v } }

end Machine

namespace Run

/-- The outcome of an operation that changes nothing. -/
def ofExcept {α : Type} (r : Except Bytes α) : Run α :=
  match r with
  | .ok a => pure a
  | .error reason => throw reason

def valueOf (c : Context) (name : Bytes) : Run Value := do ofExcept ((← get).valueOf c name)

def assignName (c : Context) (name : Bytes) (v : Value) : Run Unit :=
  modify fun m => m.assign c name v

def makeFunction (code : FunctionCode) : Run Value :=
  modifyGet fun m =>
    (.function m.functions.size code.name, { m with functions := m.functions.push code })

end Run

end NamingScript

end TemplateCompiler
