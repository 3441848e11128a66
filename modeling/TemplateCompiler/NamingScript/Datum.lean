import TemplateCompiler.NamingScript.Value

/-!
# Data of scripts and of the program

What the program hands to scripts and gets back from them: plain data without
functions. `Datum.toValue` makes a value of data, and `Value.toDatum` data of a
value. Integers of more than 64 bits and functions become their texts, tuples
become lists, and keys become texts.
-/

namespace TemplateCompiler

attribute [local instance (2000)] instPowNat

namespace NamingScript

/-- Plain data. -/
inductive Datum where
  | none
  | bool (value : Bool)
  | int (value : Int)
  | float (value : Double)
  | string (value : Bytes)
  | list (items : List Datum)
  | dict (entries : List (Bytes × Datum))
deriving Repr, Inhabited

mutual

/-- The value of data. The entries of a dict are in the order of their
keys. -/
def Datum.toValue : Datum → Value
  | .none => .none
  | .bool b => .bool b
  | .int n => .int n
  | .float d => .float d
  | .string s => .string s
  | .list items => .list (valuesOf items)
  | .dict entries =>
    .dict (((entriesOf entries).mergeSort fun a b => Bytes.le a.1 b.1).map
      fun e => (.string e.1, e.2))

def valuesOf : List Datum → List Value
  | [] => []
  | d :: ds => d.toValue :: valuesOf ds

def entriesOf : List (Bytes × Datum) → List (Bytes × Value)
  | [] => []
  | (key, d) :: ds => (key, d.toValue) :: entriesOf ds

end

/-- Entries with one more, which takes the place of an older one under the same
key. -/
def Datum.insert (entries : List (Bytes × Datum)) (key : Bytes) (d : Datum) :
    List (Bytes × Datum) :=
  entries.filter (·.1 != key) ++ [(key, d)]

namespace Value

mutual

def toDatum : Value → Datum
  | .none => .none
  | .bool b => .bool b
  | .int n =>
    if -(2 ^ (63 : Nat)) ≤ n && n < 2 ^ (63 : Nat) then .int n else .string (Bytes.integer n)
  | .float d => .float d
  | .string s => .string s
  | .tuple items | .list items => .list (dataOf items)
  | .dict entries => .dict (dataOfEntries [] entries)
  | .builtin name => .string (repr (.builtin name))
  | .function id name => .string (repr (.function id name))

def dataOf : List Value → List Datum
  | [] => []
  | v :: vs => v.toDatum :: dataOf vs

def dataOfEntries (before : List (Bytes × Datum)) : List (Value × Value) → List (Bytes × Datum)
  | [] => before
  | (key, v) :: entries => dataOfEntries (Datum.insert before key.text v.toDatum) entries

end

end Value

end NamingScript

end TemplateCompiler
