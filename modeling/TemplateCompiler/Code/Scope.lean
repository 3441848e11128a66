import TemplateCompiler.Code.Basic
import TemplateCompiler.Script.Names

/-!
# Scopes

Which names a piece of code needs from outside, and which it assigns.
`Code.occurrences` lists, in the order of evaluation, every place where a
name is read or assigned that no enclosing function binds. A `Scope` is read
off that list: the names assigned are the declared ones, and the names read
but never assigned are the free ones. Names known to the script, such as the
runtime helpers, are in neither.

A static member name is no reference, and neither is a parameter. Assigning
to a name does not read it; assigning to a member reads what is in front of
it.
-/

namespace TemplateCompiler

/-- A place where a name that no function binds is read or assigned. -/
inductive Occurrence where
  | read (name : Bytes)
  | assigned (name : Bytes)
deriving DecidableEq, Repr

namespace Occurrence

/-- The name that is read here. -/
def read? : Occurrence → Option Bytes
  | .read name => some name
  | .assigned _ => none

/-- The name that is assigned here. -/
def assigned? : Occurrence → Option Bytes
  | .read _ => none
  | .assigned name => some name

end Occurrence

namespace Code

/-- The names that a parameter binds. -/
def binders : Code → List Bytes
  | .identifier id => [id.name]
  | .destructure d => d.names.map Identifier.name
  | _ => []

/-- A reference, unless it is to a bound name or to a known one. -/
def reference (bound : List Bytes) (id : Identifier) : List Occurrence :=
  if id.builtin || bound.contains id.name then [] else [.read id.name]

def assignment (bound : List Bytes) (name : Bytes) : List Occurrence :=
  if bound.contains name then [] else [.assigned name]

mutual

/-- The places in a piece of code where names outside `bound` are read or
assigned, in the order of evaluation. -/
def occurrences (bound : List Bytes) : Code → List Occurrence
  | .missing | .literal .. | .importRef .. => []
  | .identifier id => reference bound id
  | .member _ o p computed =>
    o.occurrences bound ++ if computed then p.occurrences bound else []
  | .call _ f args => f.occurrences bound ++ occurrencesAll bound args
  | .unary _ _ a => a.occurrences bound
  | .binary _ _ l r | .logical _ _ l r => l.occurrences bound ++ r.occurrences bound
  | .conditional _ t a b =>
    t.occurrences bound ++ a.occurrences bound ++ b.occurrences bound
  | .array _ es | .sequence _ es | .interpolation _ _ _ es => occurrencesAll bound es
  | .object _ props => occurrencesProps bound props
  | .assign _ target value =>
    (match target with
      | .identifier id => assignment bound id.name
      | _ => target.occurrences bound) ++ value.occurrences bound
  | .lambda _ params body block =>
    let inner := params.flatMap binders ++ bound
    body.occurrences inner ++ occurrencesAll inner block
  | .destructure d => d.names.flatMap (reference bound)
  | .function ⟨_, _, _, params, _, statements, body, _⟩ =>
    let inner := params.flatMap binders ++ bound
    occurrencesAll inner statements ++ body.occurrences inner

/-- `occurrences` of each piece in turn. -/
def occurrencesAll (bound : List Bytes) : List Code → List Occurrence
  | [] => []
  | c :: cs => c.occurrences bound ++ occurrencesAll bound cs

/-- `occurrences` of the values of an object. -/
def occurrencesProps (bound : List Bytes) : List (Bytes × Code) → List Occurrence
  | [] => []
  | (_, c) :: props => c.occurrences bound ++ occurrencesProps bound props

end

end Code

/-- The names that a piece of code assigns, and those it needs from outside.
Both are in the order of their first occurrence. -/
structure Scope where
  declared : List Bytes
  free : List Bytes
deriving DecidableEq, Repr, Inhabited

namespace Scope

/-- The names that are never inputs: the runtime helpers and the names
reserved for the embedding program. -/
def reservedNames (reserved : List Bytes) : List Bytes :=
  Script.helpers ++ reserved.map Script.bindingName

/-- The scope that a list of occurrences makes, names in `known` left out. -/
def ofOccurrences (known : List Bytes) (places : List Occurrence) : Scope :=
  let declared := ((places.filterMap Occurrence.assigned?).filter (!known.contains ·)).eraseDups
  let reads := ((places.filterMap Occurrence.read?).filter (!known.contains ·)).eraseDups
  ⟨declared, reads.filter (!declared.contains ·)⟩

def ofCode (reserved : List Bytes) (c : Code) : Scope :=
  ofOccurrences (reservedNames reserved) (c.occurrences [])

/-- The scope of what a unit runs: its statements and its body. Its
parameters do not count as bound, so this tells which ones it needs. -/
def ofUnit (reserved : List Bytes) (u : CodeUnit) : Scope :=
  ofOccurrences (reservedNames reserved)
    (Code.occurrencesAll [] u.statements ++ u.body.occurrences [])

end Scope

end TemplateCompiler
