import TemplateCompiler.NamingScript.Machine

/-!
# Running expressions and statements

`Expr.eval` gives the value of an expression and `runBlock` runs statements, in
a place that says which variables are known. How a value is called is a
parameter, so both follow the tree of the script.
-/

namespace TemplateCompiler

namespace NamingScript

abbrev Caller := Value → List Value → List Binding → Run Value

def addEntry (entries : Entries) (key v : Value) : Except Bytes Entries := do
  match ← Value.find? entries key with
  | some _ => .error ("duplicate key: " ++ key.repr)
  | none => .ok (entries ++ [(key, v)])

mutual

def Expr.eval (call : Caller) (c : Context) : Expr → Run Value
  | .ident id => Run.valueOf c id.name
  | .int _ n => pure (.int n)
  | .float _ d => pure (.float d)
  | .string _ s => pure (.string s)
  | .list _ items => return .list (← evalAll call c items)
  | .tuple _ items => return .tuple (← evalAll call c items)
  | .dict _ entries => return .dict (← evalEntries call c [] entries)
  | .paren _ inner => inner.eval call c
  | .unary _ op operand => do
    let v ← operand.eval call c
    Run.ofExcept (v.unary op)
  | .binary op left right => do
    let x ← left.eval call c
    match op with
    | .and => if x.truth then right.eval call c else pure x
    | .or => if x.truth then pure x else right.eval call c
    | _ =>
      let y ← right.eval call c
      Run.ofExcept (Value.binary op x y)
  | .conditional test yes no => do
    let b ← test.eval call c
    if b.truth then yes.eval call c else no.eval call c
  | .index object key => do
    let x ← object.eval call c
    let y ← key.eval call c
    Run.ofExcept (x.index y)
  | .call function args => do
    let f ← function.eval call c
    let (positional, named) ← evalArguments call c args
    call f positional named

def evalAll (call : Caller) (c : Context) : List Expr → Run (List Value)
  | [] => pure []
  | e :: es => do
    let v ← e.eval call c
    return v :: (← evalAll call c es)

def evalEntries (call : Caller) (c : Context) (before : Entries) :
    List (Expr × Expr) → Run Entries
  | [] => pure before
  | (key, value) :: entries => do
    let k ← key.eval call c
    let v ← value.eval call c
    let found ← Run.ofExcept (addEntry before k v)
    evalEntries call c found entries

/-- The values of arguments by place and by name. -/
def evalArguments (call : Caller) (c : Context) :
    List (Option Ident × Expr) → Run (List Value × List Binding)
  | [] => pure ([], [])
  | (name, e) :: args => do
    let v ← e.eval call c
    let (positional, named) ← evalArguments call c args
    match name with
    | none => return (v :: positional, named)
    | some id => return (positional, (id.name, v) :: named)

end

mutual

/-- Runs a statement. If it ends the function, the function's value is
returned. -/
def Stmt.run (call : Caller) (c : Context) : Stmt → Run (Option Value)
  | .expr value => do
    let _ ← value.eval call c
    pure none
  | .assign target value => do
    let v ← value.eval call c
    match target.target? with
    | some id => Run.assignName c id.name v
    | none => pure ()
    pure none
  | .define id params body => do
    let f ← Run.makeFunction { name := id.name, params, body, script := c.script }
    Run.assignName c id.name f
    pure none
  | .giveBack _ none => return some .none
  | .giveBack _ (some value) => return some (← value.eval call c)
  | .choice _ test yes no => do
    let b ← test.eval call c
    if b.truth then runBlock call c yes else runBlock call c no
  | .pass => pure none

def runBlock (call : Caller) (c : Context) : List Stmt → Run (Option Value)
  | [] => pure none
  | s :: ss => do
    match ← s.run call c with
    | none => runBlock call c ss
    | some v => return some v

end

end NamingScript

end TemplateCompiler
