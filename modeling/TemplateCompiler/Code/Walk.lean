import TemplateCompiler.Code.Basic

/-!
# Walking through code

`Code.inspect` lists a piece of code and what is below it, each before its
parts, and goes below only where it is told to. The parts come in the order
in which they are evaluated; the name of a static member counts as a part.
-/

namespace TemplateCompiler.Code

/-- `parts`, where `descend` lets the walk go below `c`. -/
def partsOf (descend : Code → Bool) (c : Code) (parts : List Code) : List Code :=
  if descend c then parts else []

mutual

/-- A piece of code and the pieces below it, in preorder; nothing below those
that `descend` rejects. -/
def inspect (descend : Code → Bool) (c : Code) : List Code :=
  match c with
  | .missing => []
  | .literal .. | .identifier .. | .importRef .. => [c]
  | .member _ o p _ => c :: partsOf descend c (o.inspect descend ++ p.inspect descend)
  | .call _ f args => c :: partsOf descend c (f.inspect descend ++ inspectAll descend args)
  | .unary _ _ a => c :: partsOf descend c (a.inspect descend)
  | .binary _ _ l r | .logical _ _ l r | .assign _ l r =>
    c :: partsOf descend c (l.inspect descend ++ r.inspect descend)
  | .conditional _ t a b =>
    c :: partsOf descend c (t.inspect descend ++ a.inspect descend ++ b.inspect descend)
  | .array _ es | .sequence _ es | .interpolation _ _ _ es =>
    c :: partsOf descend c (inspectAll descend es)
  | .object _ props => c :: partsOf descend c (inspectProps descend props)
  | .lambda _ params body block =>
    c :: partsOf descend c
      (inspectAll descend params ++ body.inspect descend ++ inspectAll descend block)
  | .destructure d => c :: partsOf descend c (d.names.map .identifier)
  | .function ⟨_, _, _, params, _, statements, body, _⟩ =>
    c :: partsOf descend c
      (inspectAll descend params ++ inspectAll descend statements ++ body.inspect descend)

/-- `inspect` of each piece in turn. -/
def inspectAll (descend : Code → Bool) : List Code → List Code
  | [] => []
  | c :: cs => c.inspect descend ++ inspectAll descend cs

/-- `inspect` of the values of an object. -/
def inspectProps (descend : Code → Bool) : List (Bytes × Code) → List Code
  | [] => []
  | (_, c) :: props => c.inspect descend ++ inspectProps descend props

end

/-- A piece of code and all pieces below it. -/
def preorder (c : Code) : List Code := c.inspect fun _ => true

/-- How many pieces a piece of code has. -/
def count (c : Code) : Nat := c.preorder.length

end TemplateCompiler.Code
