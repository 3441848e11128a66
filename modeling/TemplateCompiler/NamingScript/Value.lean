import TemplateCompiler.NamingScript.Syntax
import TemplateCompiler.Number.Arithmetic

/-!
# Values of naming scripts

What expressions stand for. No value ever changes. Integers have any size. An
integer and a float are equal if they are the same number, values of other
different types never are. The order of values is total on each type that has
one, on floats too, where what is no number comes last. Values are compared to
a limited depth only.
-/

namespace TemplateCompiler

namespace NamingScript

/-- A value. -/
inductive Value where
  | none
  | bool (value : Bool)
  | int (value : Int)
  | float (value : Double)
  | string (value : Bytes)
  | tuple (items : List Value)
  | list (items : List Value)
  /-- A dict: its entries in their order. -/
  | dict (entries : List (Value × Value))
  /-- A function of the language or of the program around the script. -/
  | builtin (name : Bytes)
  /-- A function of a script, by its number. -/
  | function (id : Nat) (name : Bytes)
deriving Repr, Inhabited

/-- The entries of a dict in their order. -/
abbrev Entries := List (Value × Value)

namespace Value

def typeName : Value → Bytes
  | .none => "NoneType"
  | .bool _ => "bool"
  | .int _ => "int"
  | .float _ => "float"
  | .string _ => "string"
  | .tuple _ => "tuple"
  | .list _ => "list"
  | .dict _ => "dict"
  | .builtin _ => "builtin_function_or_method"
  | .function .. => "function"

def length? : Value → Option Nat
  | .string s => some s.length
  | .tuple items | .list items => some items.length
  | .dict entries => some entries.length
  | _ => Option.none

def truth : Value → Bool
  | .none => false
  | .bool b => b
  | .int n => n != 0
  | .float d => !d.isZero
  | .string s => !s.isEmpty
  | .tuple items | .list items => !items.isEmpty
  | .dict entries => !entries.isEmpty
  | .builtin _ | .function .. => true

/-! ### Texts -/

/-- The text of a float: it always shows a point or an exponent. `upper` shows
it with a capital. -/
def floatText (upper : Bool) (d : Double) : Bytes :=
  if d.isNaN then "nan"
  else if d.isInfinite then (if d.signBit then "-inf" else "+inf")
  else
    let text := if upper then Bytes.toUpper d.text else d.text
    if text.any (fun b => b == Byte.dot || Byte.toLower b == 0x65) then text else text ++ ".0"

mutual

/-- The text of a value as a script would write it. -/
def repr : Value → Bytes
  | .none => "None"
  | .bool true => "True"
  | .bool false => "False"
  | .int n => Bytes.integer n
  | .float d => floatText false d
  | .string s => quoted s
  | .tuple items =>
    "(" ++ Bytes.join ", " (reprs items) ++ (if items.length == 1 then "," else "") ++ ")"
  | .list items => "[" ++ Bytes.join ", " (reprs items) ++ "]"
  | .dict entries => "\x7b" ++ Bytes.join ", " (reprsOfEntries entries) ++ "\x7d"
  | .builtin name => "<built-in function " ++ name ++ ">"
  | .function _ name => "<function " ++ name ++ ">"

def reprs : List Value → List Bytes
  | [] => []
  | v :: vs => v.repr :: reprs vs

def reprsOfEntries : List (Value × Value) → List Bytes
  | [] => []
  | (key, v) :: entries => (key.repr ++ ": " ++ v.repr) :: reprsOfEntries entries

end

def text : Value → Bytes
  | .string s => s
  | v => v.repr

/-! ### Keys -/

mutual

def keyFault? : Value → Option Bytes
  | .list _ => some "unhashable type: list"
  | .dict _ => some "unhashable type: dict"
  | .tuple items => keyFaultOfAll? items
  | _ => Option.none

def keyFaultOfAll? : List Value → Option Bytes
  | [] => Option.none
  | v :: vs => v.keyFault?.orElse fun _ => keyFaultOfAll? vs

end

/-- Whether two values that are no tuples are equal keys. -/
def sameAtom (x y : Value) : Bool :=
  match x, y with
  | .none, .none => true
  | .bool a, .bool b => a == b
  | .int a, .int b => a == b
  | .int a, .float b => Double.compareInt a b == .eq
  | .float a, .int b => Double.compareInt b a == .eq
  | .float a, .float b => Double.order a b == .eq
  | .string a, .string b => a == b
  | .builtin a, .builtin b => a == b
  | .function a _, .function b _ => a == b
  | _, _ => false

mutual

def sameKey (x y : Value) : Bool :=
  match x with
  | .tuple xs =>
    match y with
    | .tuple ys => sameKeys xs ys
    | _ => false
  | _ => sameAtom x y

def sameKeys (xs ys : List Value) : Bool :=
  match xs, ys with
  | [], [] => true
  | x :: xs, y :: ys => x.sameKey y && sameKeys xs ys
  | _, _ => false

end

mutual

/-- How many tuples a value is nested in itself. -/
def depth : Value → Nat
  | .tuple items => depthOfAll items
  | _ => 0

/-- One more than the depth of the deepest of some values; nothing for
none. -/
def depthOfAll : List Value → Nat
  | [] => 0
  | v :: vs => max (v.depth + 1) (depthOfAll vs)

end

/-! ### Comparisons -/

def compareLimit : Nat := 10

def tooDeep : Bytes := "comparison exceeded maximum recursion depth"

def find? (entries : Entries) (key : Value) : Except Bytes (Option Value) :=
  match key.keyFault? with
  | some fault => .error fault
  | Option.none =>
    match entries.find? fun e => e.1.sameKey key with
    | some e => if compareLimit ≤ key.depth then .error tooDeep else .ok (some e.2)
    | Option.none => .ok Option.none

/-- The wording for a comparison that does not exist. -/
def notImplemented (op : Comparison) (x y : Value) : Bytes :=
  x.typeName ++ " " ++ op.text ++ " " ++ y.typeName ++ " not implemented"

def textOrder (a b : Bytes) : Ordering := if a == b then .eq else if Bytes.le a b then .lt else .gt

/-- Compares two lists, of which `same` compares the items: the first unequal
items decide, as `decided` says, then the lengths. -/
def comparePairs (op : Comparison) (same decided : Value → Value → Except Bytes Bool) :
    List Value → List Value → Except Bytes Bool
  | x :: xs, y :: ys => do
    if ← same x y then comparePairs op same decided xs ys
    else
      match op with
      | .equal => .ok false
      | .unequal => .ok true
      | _ => decided x y
  | xs, ys => .ok (op.holds (compare xs.length ys.length))

/-- Compares two sequences. Those of different lengths are unequal without a
look at the items. -/
def compareItems (op : Comparison) (same decided : Value → Value → Except Bytes Bool)
    (xs ys : List Value) : Except Bytes Bool :=
  if xs.length != ys.length && (op == .equal || op == .unequal) then .ok (op == .unequal)
  else comparePairs op same decided xs ys

def equalEntries (same : Value → Value → Except Bytes Bool) (ys : Entries) :
    Entries → Except Bytes Bool
  | [] => .ok true
  | (key, x) :: xs =>
    match find? ys key with
    | .ok (some y) => do if ← same x y then equalEntries same ys xs else .ok false
    | _ => .ok false

def compareWithin (depth : Nat) (op : Comparison) (x y : Value) : Except Bytes Bool :=
  match depth with
  | 0 => .error tooDeep
  | depth + 1 =>
    let same := compareWithin depth .equal
    let sequences := compareItems op same (compareWithin depth op)
    let equality (b : Bool) : Except Bytes Bool :=
      match op with
      | .equal => .ok b
      | .unequal => .ok !b
      | _ => .error (notImplemented op x y)
    match x, y with
    | .bool a, .bool b => .ok (op.holds (compare a.toNat b.toNat))
    | .int a, .int b => .ok (op.holds (compare a b))
    | .int a, .float b => .ok (op.holds (Double.compareInt a b))
    | .float a, .int b => .ok (op.holds (Double.compareInt b a).swap)
    | .float a, .float b => .ok (op.holds (Double.order a b))
    | .string a, .string b => .ok (op.holds (textOrder a b))
    | .tuple xs, .tuple ys | .list xs, .list ys => sequences xs ys
    | .dict xs, .dict ys =>
      if op == .equal || op == .unequal then do
        let eq ← if xs.length == ys.length then equalEntries same ys xs else .ok false
        equality eq
      else .error (notImplemented op x y)
    | _, _ => equality (sameAtom x y)

def compareWith (op : Comparison) (x y : Value) : Except Bytes Bool :=
  compareWithin compareLimit op x y

end Value

end NamingScript

end TemplateCompiler
