import TemplateCompiler.Code.Basic

/-!
# Locating code

`Code.stamp` gives one position to a piece of code and to everything below it
that has no location yet. What has a location keeps it, with all that is below
it. Locations are numbered in the order of the walk, a piece before its parts.
-/

namespace TemplateCompiler

/-- A location for the next piece of code. The state counts locations. -/
def Location.next (file : Bytes) (pos : Position) : StateM Nat Location := do
  let index ← get
  set (index + 1)
  pure { file, line := pos.line, column := pos.column, index }

namespace Identifier

/-- Locates a name that has no location. -/
def stamp (file : Bytes) (pos : Position) (id : Identifier) : StateM Nat Identifier :=
  match id.loc with
  | some _ => pure id
  | none => do
    let loc ← Location.next file pos
    pure { id with loc := some loc }

end Identifier

namespace Code

mutual

/-- Locates a piece of code and what is below it. -/
def stamp (file : Bytes) (pos : Position) (c : Code) : StateM Nat Code := do
  match c with
  | .missing => pure .missing
  | .literal none kind value => do
    let loc ← Location.next file pos
    pure (.literal loc kind value)
  | .identifier id => do
    pure (.identifier (← id.stamp file pos))
  | .member none target key computed => do
    let loc ← Location.next file pos
    let target ← target.stamp file pos
    let key ← key.stamp file pos
    pure (.member loc target key computed)
  | .call none callee args => do
    let loc ← Location.next file pos
    let callee ← callee.stamp file pos
    let args ← stampAll file pos args
    pure (.call loc callee args)
  | .unary none op arg => do
    let loc ← Location.next file pos
    let arg ← arg.stamp file pos
    pure (.unary loc op arg)
  | .binary none op left right => do
    let loc ← Location.next file pos
    let left ← left.stamp file pos
    let right ← right.stamp file pos
    pure (.binary loc op left right)
  | .logical none op left right => do
    let loc ← Location.next file pos
    let left ← left.stamp file pos
    let right ← right.stamp file pos
    pure (.logical loc op left right)
  | .conditional none test consequent alternate => do
    let loc ← Location.next file pos
    let test ← test.stamp file pos
    let consequent ← consequent.stamp file pos
    let alternate ← alternate.stamp file pos
    pure (.conditional loc test consequent alternate)
  | .array none elements => do
    let loc ← Location.next file pos
    pure (.array loc (← stampAll file pos elements))
  | .object none props => do
    let loc ← Location.next file pos
    pure (.object loc (← stampProps file pos props))
  | .sequence none exprs => do
    let loc ← Location.next file pos
    pure (.sequence loc (← stampAll file pos exprs))
  | .interpolation none tag runs holes => do
    let loc ← Location.next file pos
    pure (.interpolation loc tag runs (← stampAll file pos holes))
  | .assign none target value => do
    let loc ← Location.next file pos
    let target ← target.stamp file pos
    let value ← value.stamp file pos
    pure (.assign loc target value)
  | .lambda none params body block => do
    let loc ← Location.next file pos
    let params ← stampAll file pos params
    let body ← body.stamp file pos
    let block ← stampAll file pos block
    pure (.lambda loc params body block)
  | .destructure ⟨none, names, keys⟩ => do
    let loc ← Location.next file pos
    let names ← names.mapM (·.stamp file pos)
    pure (.destructure ⟨loc, names, keys⟩)
  | .function ⟨none, name, source, params, locals, statements, body, imports⟩ => do
    let loc ← Location.next file pos
    let params ← stampAll file pos params
    let statements ← stampAll file pos statements
    let body ← body.stamp file pos
    pure (.function ⟨loc, name, source, params, locals, statements, body, imports⟩)
  | .importRef ⟨none, unit, source⟩ => do
    let loc ← Location.next file pos
    pure (.importRef ⟨loc, unit, source⟩)
  | located => pure located

/-- Locates each piece in turn. -/
def stampAll (file : Bytes) (pos : Position) : List Code → StateM Nat (List Code)
  | [] => pure []
  | c :: cs => do
    let c ← c.stamp file pos
    let cs ← stampAll file pos cs
    pure (c :: cs)

/-- Locates the values of an object. -/
def stampProps (file : Bytes) (pos : Position) :
    List (Bytes × Code) → StateM Nat (List (Bytes × Code))
  | [] => pure []
  | (key, c) :: props => do
    let c ← c.stamp file pos
    let props ← stampProps file pos props
    pure ((key, c) :: props)

end

end Code

end TemplateCompiler
