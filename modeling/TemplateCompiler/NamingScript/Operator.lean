import TemplateCompiler.NamingScript.Format

/-!
# Operators of naming scripts

What operators do with values, and how they fail. Division and remainder of
integers go to the floor.
-/

namespace TemplateCompiler

attribute [local instance (2000)] instPowNat

namespace NamingScript

namespace Value

/-- The wording for an operator that has no meaning for two values. -/
def unknownBinary (op : BinaryOp) (x y : Value) : Bytes :=
  "unknown binary op: " ++ x.typeName ++ " " ++ op.text ++ " " ++ y.typeName

/-! ### Numbers -/

def toDouble (n : Int) : Except Bytes Double :=
  match Double.ofInt? n with
  | some d => .ok d
  | Option.none => .error "int too large to convert to float"

/-- The remainder of floats has the sign of the divisor. -/
def floatModulo (a b : Double) : Double :=
  if a.isNaN || a.isInfinite || b.isNaN then ⟨0x7ff8000000000001⟩
  else
    let z := if b.isInfinite then a else Double.remainder a b
    if !z.isZero && z.signBit != b.signBit then Double.ofFloat (z.toFloat + b.toFloat) else z

def floatOperation? (op : BinaryOp) (a b : Double) : Option (Except Bytes Value) :=
  let x := a.toFloat
  let y := b.toFloat
  let result (f : Float) : Except Bytes Value := .ok (.float (Double.ofFloat f))
  match op with
  | .plus => some (result (x + y))
  | .minus => some (result (x - y))
  | .times => some (result (x * y))
  | .divide =>
    some (if b.isZero then .error "floating-point division by zero" else result (x / y))
  | .floorDivide =>
    some (if b.isZero then .error "floored division by zero" else result (x / y).floor)
  | .modulo =>
    some (if b.isZero then .error "floating-point modulo by zero" else .ok (.float (floatModulo a b)))
  | _ => Option.none

/-- Computes with integers, if the operator is one of numbers. -/
def intOperation? (op : BinaryOp) (a b : Int) : Option (Except Bytes Value) :=
  let result (n : Int) : Except Bytes Value := .ok (.int n)
  match op with
  | .plus => some (result (a + b))
  | .minus => some (result (a - b))
  | .times => some (result (a * b))
  | .divide => some do
    let x ← toDouble a
    let y ← toDouble b
    (floatOperation? op x y).getD (.ok .none)
  | .floorDivide =>
    some (if b == 0 then .error "floored division by zero" else result (a.fdiv b))
  | .modulo => some (if b == 0 then .error "integer modulo by zero" else result (a.fmod b))
  | _ => Option.none

/-! ### Repetition -/

/-- How many items a repetition may have. -/
def repeatLimit : Nat := 2 ^ (30 : Nat)

/-- How often a sequence of some length is repeated. An empty one is never
repeated, and a negative number counts as zero. -/
def repeatCount (length : Nat) (n : Int) : Except Bytes Nat :=
  if length == 0 then .ok 0
  else
    match smallInt? n with
    | Option.none => .error ("repeat count " ++ Bytes.integer n ++ " too large")
    | some n =>
      if repeatLimit ≤ length * n.toNat then
        .error ("excessive repeat (" ++ Bytes.decimal length ++ " * " ++ Bytes.integer n
          ++ " elements)")
      else .ok n.toNat

def repeatItems {α : Type} (items : List α) (n : Int) : Except Bytes (List α) :=
  return (List.replicate (← repeatCount items.length n) items).flatten

/-! ### Binary operators -/

def isAmong (x : Value) : List Value → Except Bytes Bool
  | [] => .ok false
  | item :: items => do if ← item.compareWith .equal x then .ok true else isAmong x items

/-- Whether a value is in another. What cannot be a key is in no dict. -/
def member (x y : Value) : Except Bytes Bool :=
  match y with
  | .tuple items | .list items => isAmong x items
  | .dict entries =>
    match find? entries x with
    | .ok found => .ok found.isSome
    | .error _ => .ok false
  | .string s =>
    match x with
    | .string part => .ok (Bytes.contains part s)
    | _ => .error ("'in <string>' requires string as left operand, not " ++ x.typeName)
  | _ => .error (unknownBinary .isIn x y)

def repeated (x : Value) (n : Int) : Option (Except Bytes Value) :=
  match x with
  | .string s => some ((repeatItems s n).map .string)
  | .tuple items => some ((repeatItems items n).map .tuple)
  | .list items => some ((repeatItems items n).map .list)
  | _ => Option.none

/-- What an operator does with two values that are not both numbers. -/
def structured? (op : BinaryOp) (x y : Value) : Option (Except Bytes Value) :=
  match op, x, y with
  | .plus, .string a, .string b => some (.ok (.string (a ++ b)))
  | .plus, .tuple a, .tuple b => some (.ok (.tuple (a ++ b)))
  | .plus, .list a, .list b => some (.ok (.list (a ++ b)))
  | .times, v, .int n | .times, .int n, v => repeated v n
  | .modulo, .string format, source => some ((formatted format source).map .string)
  | _, _, _ => Option.none

/-- What an operator does with two numbers. An integer that is divided becomes
a float before anything else. -/
def numeric? (op : BinaryOp) (x y : Value) : Option (Except Bytes Value) :=
  match x, y with
  | .int a, .int b => intOperation? op a b
  | .float a, .float b => floatOperation? op a b
  | .int a, .float b => mixed a (fun x => floatOperation? op x b)
  | .float a, .int b => mixed b (fun y => floatOperation? op a y)
  | .int a, _ =>
    if op == .divide then
      match toDouble a with
      | .error reason => some (.error reason)
      | .ok _ => Option.none
    else Option.none
  | _, _ => Option.none
where
  /-- Computes with the float of an integer. -/
  mixed (n : Int) (f : Double → Option (Except Bytes Value)) : Option (Except Bytes Value) :=
    match toDouble n with
    | .ok d => f d
    | .error reason => (f ⟨0⟩).map fun _ => .error reason

def binary (op : BinaryOp) (x y : Value) : Except Bytes Value :=
  match op with
  | .compare c => (compareWith c x y).map .bool
  | .isIn => (member x y).map .bool
  | .notIn => (member x y).map fun found => .bool !found
  | _ =>
    match numeric? op x y, structured? op x y with
    | some result, _ => result
    | Option.none, some result => result
    | Option.none, Option.none => .error (unknownBinary op x y)

/-! ### Unary operators -/

def unary (op : UnaryOp) (x : Value) : Except Bytes Value :=
  match op, x with
  | .not, _ => .ok (.bool (!x.truth))
  | .minus, .int n => .ok (.int (-n))
  | .plus, .int _ | .plus, .float _ => .ok x
  | .minus, .float d => .ok (.float d.neg)
  | _, _ => .error ("unknown unary op: " ++ op.text ++ " " ++ x.typeName)

/-! ### Indices -/

def asIndex (v : Value) : Except Bytes Int :=
  match v with
  | .int n =>
    match smallInt? n with
    | some n => .ok n
    | Option.none => .error (Bytes.integer n ++ " out of range")
  | _ => .error ("got " ++ v.typeName ++ ", want int")

/-- The place of an index in a sequence. A negative one counts from the
end. -/
def place (object : Value) (length : Nat) (i : Int) : Except Bytes Nat :=
  let j := if i < 0 then i + length else i
  if 0 ≤ j && j < length then .ok j.toNat
  else if length == 0 then
    .error ("index " ++ Bytes.integer i ++ " out of range: empty " ++ object.typeName)
  else
    .error (object.typeName ++ " index " ++ Bytes.integer i ++ " out of range ["
      ++ Bytes.integer (-(length : Int)) ++ ":" ++ Bytes.decimal (length - 1) ++ "]")

def index (object key : Value) : Except Bytes Value :=
  let placed (length : Nat) : Except Bytes Nat :=
    match asIndex key with
    | .error reason => .error (object.typeName ++ " index: " ++ reason)
    | .ok i => place object length i
  match object with
  | .dict entries => do
    match ← find? entries key with
    | some v => .ok v
    | Option.none => .error ("key " ++ key.repr ++ " not in dict")
  | .list items | .tuple items => do .ok (items.getD (← placed items.length) .none)
  | .string s => do .ok (.string ((s.drop (← placed s.length)).take 1))
  | _ => .error ("unhandled index operation " ++ object.typeName ++ "[" ++ key.typeName ++ "]")

end Value

end NamingScript

end TemplateCompiler
