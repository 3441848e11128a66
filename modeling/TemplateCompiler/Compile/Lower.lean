import TemplateCompiler.Code.Scope
import TemplateCompiler.Compile.Session

/-!
# From template trees to code

`Node.lower` compiles a node. It follows the tree, and it leaves includes to
its `Site`: the file that is being compiled, and what an include in it stands
for. Every piece of code it makes is located: at the node it was made from, or
where a part of that node says otherwise.

Text and expressions of a body become one interpolation: neighbouring texts
are merged into a run, and every other node fills a hole. A body that is all
text is a string, and a body of one node is what that node gives.
-/

namespace TemplateCompiler

attribute [local instance (2000)] instPowNat

/-- An include that names a partial. -/
structure Inclusion where
  pos : Position
  name : Bytes
  /-- Whether the partial may be missing. -/
  optional : Bool
deriving DecidableEq, Repr, Inhabited

/-- Where lowering takes place. -/
structure Site where
  /-- The file that is being compiled. -/
  file : Bytes
  /-- What an include stands for. -/
  expand : Inclusion → Compile Code

namespace Site

def locate (site : Site) (pos : Position) (c : Code) : Compile Code :=
  Compile.locating (c.stamp site.file pos)

end Site

/-- What a node of a body gives: text, or code for a hole. -/
inductive BodyPart where
  | text (pos : Position) (content : Bytes)
  | hole (code : Code)
deriving Repr, Inhabited

namespace BodyPart

def text? : BodyPart → Option Bytes
  | .text _ content => some content
  | .hole _ => none

def hole? : BodyPart → Option Code
  | .text .. => none
  | .hole code => some code

/-- The runs of text before, between and behind the holes. -/
def runs : List BodyPart → List Bytes
  | [] => [[]]
  | .hole _ :: parts => [] :: runs parts
  | .text _ content :: parts =>
    match runs parts with
    | [] => [content]
    | run :: more => (content ++ run) :: more

def assemble (site : Site) (pos : Position) (parts : List BodyPart) : Compile Code :=
  match parts with
  | [.text textPos content] => site.locate textPos (.str content)
  | [.hole code] => pure code
  | _ =>
    match parts.filterMap hole? with
    | [] => site.locate pos (.str (parts.filterMap text?).flatten)
    | holes => site.locate pos (.interpolation none Script.htmlTag (runs parts) holes)

end BodyPart

namespace BinaryOp

/-- The operator of generated code. The two additions are one there, and so
are the two divisions. -/
def combine? (op : BinaryOp) (left right : Code) : Option Code :=
  match op with
  | .or => some (.logical none "||" left right)
  | .and => some (.logical none "&&" left right)
  | .isIn => some (.binary none "in" left right)
  | .is => some (.binary none "===" left right)
  | .add | .concat => some (.binary none "+" left right)
  | .sub => some (.binary none "-" left right)
  | .mul => some (.binary none "*" left right)
  | .div | .floorDiv => some (.binary none "/" left right)
  | .mod => some (.binary none "%" left right)
  | .pow => some (.binary none "**" left right)
  | .other _ => none

end BinaryOp

namespace Literal

/-- A literal as the key of an object: what the script makes of it there. -/
def keyText : Literal → Bytes
  | .null => "null"
  | value => value.text

end Literal

namespace Node

/-- The error for a node that cannot be compiled. -/
def unsupported (n : Node) (reason : Bytes) : CompileError :=
  match n with
  | .missing => .unsupported "nil" none []
  | _ => .unsupported n.kind (some n.pos) reason

/-- The name that generated code uses for a name of the template. A name
spelled like the stand-in for a keyword is refused, so the two never meet. -/
def binding (n : Node) (name : Bytes) : Except CompileError Identifier :=
  let plain := Script.templateName name
  if plain == name then .ok { name := Script.bindingName name }
  else .error (n.unsupported
    ("name " ++ quoted name ++ " is reserved for the keyword " ++ quoted plain))

/-- An integer in base ten as it would be written: no sign but a minus, no
leading zeros, and in the range of 64 bits. -/
def canonicalInt? (text : Bytes) : Option Int :=
  let digits := text.dropWhile (· == Byte.minus)
  let value : Int := Bytes.digitsValue digits
  let n := if text.head? == some Byte.minus then -value else value
  if digits.all Byte.isDigit && Bytes.integer n == text && -(2 ^ (63 : Nat)) ≤ n
      && n < 2 ^ (63 : Nat) then some n
  else none

/-- The member that a literal key names, and whether it is computed. Keys that
are integers or names are written as such. -/
def memberKey? : Node → Option (Code × Bool)
  | .literal _ (.int n) => some (.int n, true)
  | .literal _ (.string s) =>
    match canonicalInt? s with
    | some n => some (.int n, true)
    | none => if Script.isIdentifier s then some (.ident s, false) else none
  | _ => none

/-- The filter with a name, which may have dots in it. -/
def filterPath (name : Bytes) : Code :=
  (Bytes.splitOn Byte.dot name).foldl
    (fun path word => .member none path (.ident word) false) (.ident Script.filterNamespace)

/-- The key of a dictionary entry. -/
def dictKey (key : Node) : Except CompileError Bytes :=
  match key with
  | .symbol _ name => .ok name
  | .literal _ value => .ok value.keyText
  | _ => .error (key.unsupported "object keys must be names or literals")

/-- One more variable of a loop that takes its items apart. -/
def loopVariable (site : Site) (d : Destructure) (n : Node) : Compile Destructure :=
  match n with
  | .symbol pos name => do
    let id ← n.binding name
    if d.names.any (·.name == id.name) then
      throw (n.unsupported ("loop variable " ++ quoted name ++ " repeated"))
    let id ← Compile.locating (id.stamp site.file pos)
    pure (d.add name id)
  | _ => throw (n.unsupported "loop variables must be names")

/-- The parameter of a loop's body. -/
def loopParam (site : Site) (n : Node) : Compile Code :=
  match n with
  | .symbol pos name => do
    let id ← n.binding name
    site.locate pos (.identifier id)
  | .array _ names => do
    let d ← names.foldlM (loopVariable site) { names := [] }
    pure (.destructure d)
  | _ => throw (n.unsupported "loop variables must be names")

/-- The name of the counter of a loop: `index`, unless a variable of the loop
has that name. -/
def loopCounter (names : List Bytes) : Bytes := Script.fresh names "index"

/-- A loop: the items are mapped if they are a list; otherwise, or with an
alternative also if there are none, the alternative is taken. -/
def loop (items param body : Code) (alternate : Option Code) : Code :=
  let member (c : Code) (name : Bytes) : Code := .member none c (.ident name) false
  let array : Code := .identifier { name := "Array", builtin := true }
  let isArray : Code := .call none (member array "isArray") [items]
  let body : Code := .lambda none [param, .ident (loopCounter param.binders)] body []
  let mapped : Code := .call none (member items "map") [body]
  match alternate with
  | none => .conditional none isArray mapped (.str [])
  | some other =>
    .conditional none (.logical none "&&" isArray (member items "length")) mapped other

/-- Whether a node can be assigned to. -/
def isTarget : Node → Bool
  | .symbol .. | .lookup .. => true
  | _ => false

/-- One assignment for each target. The first target gets the value, and the
others get what the first one holds, so the value is computed once. -/
def assignments (site : Site) (pos : Position) (value : Compile Code)
    (targets : List (Compile Code)) : Compile (List Code) := do
  let v ← value
  match targets with
  | [] => pure []
  | first :: others => do
    let target ← first
    let assigned ← site.locate pos (.assign none target v)
    let copies ← others.mapM fun other => do
      let target ← other
      let copy ← first
      site.locate pos (.assign none target copy)
    pure (assigned :: copies)

/-- The value that a statement assigns: that of an expression or of a body. -/
def assignedValue (n value body : Node) (ofValue ofBody : Compile Code) : Compile Code :=
  match value, body with
  | .missing, .missing => throw (n.unsupported "set without a value")
  | .missing, _ => ofBody
  | _, _ => ofValue

mutual

def lower (site : Site) (n : Node) : Compile Code := do
  let code ← match n with
    | .list pos nodes => do
      let parts ← lowerBody site nodes
      BodyPart.assemble site pos parts
    | .output _ [.text _ content] | .text _ content => pure (.str content)
    | .output pos nodes => do
      let parts ← lowerParts site nodes
      BodyPart.assemble site pos parts
    | .ifElse pos test body alt | .choice pos test body alt => do
      let t ← test.lower site
      let b ← body.lower site
      let a ← match alt with
        | .missing => site.locate pos (.str [])
        | _ => alt.lower site
      pure (.conditional none t b a)
    | .forEach _ target items body alt => do
      let source ← items.lower site
      let param ← loopParam site target
      let inner ← body.lower site
      let alternate ← match alt with
        | .missing => pure none
        | _ => some <$> alt.lower site
      pure (loop source param inner alternate)
    | .assign pos targets value body => do
      let v := assignedValue n value body (value.lower site) (body.lower site)
      let block ← assignments site pos v (lowerTargets site targets)
      pure (.call none (.lambda none [] .missing block) [])
    | .embed pos target optional =>
      match target with
      | .literal _ (.string name) => site.expand ⟨pos, name, optional⟩
      | .literal place _ => throw (.dynamicInclude "non-string literal" place)
      | _ => throw (.dynamicInclude target.kind target.pos)
    | .lookup _ target key => do
      let object ← target.lower site
      match key.memberKey? with
      | some (property, computed) => do
        let property ← site.locate key.pos property
        pure (.member none object property computed)
      | none => do
        let property ← key.lower site
        pure (.member none object property true)
    | .symbol _ name | .named _ name => do
      let id ← n.binding name
      pure (.identifier id)
    | .call _ callee args => do
      let xs ← lowerAll site args
      let f ← match callee with
        | .symbol pos name => site.locate pos (filterPath name)
        | _ => callee.lower site
      pure (.call none f xs)
    | .literal _ value =>
      match Code.ofLiteral? value with
      | some code => pure code
      | none => throw (n.unsupported "unsupported literal value []string")
    | .compare _ left [(op, right)] => do
      let l ← left.lower site
      let r ← right.lower site
      pure (.binary none op l r)
    | .compare pos _ links => throw (.chainedComparison (links.map Prod.fst) pos)
    | .not _ target => do
      pure (.unary none "!" (← target.lower site))
    | .neg _ target => do
      pure (.unary none "-" (← target.lower site))
    | .binary _ op left right => do
      let l ← left.lower site
      let r ← right.lower site
      match op.combine? l r with
      | some code => pure code
      | none => throw (n.unsupported ("operator " ++ op.name))
    | .array _ elements => do
      pure (.array none (← lowerAll site elements))
    | .dict _ pairs => do
      pure (.object none (← lowerPairs site pairs))
    | .group _ [] => throw (n.unsupported "empty group")
    | .group _ [inner] => inner.lower site
    | .group _ nodes => do
      pure (.sequence none (← lowerAll site nodes))
    | .inherit .. | .block .. | .missing => throw (n.unsupported [])
  site.locate n.pos code

def lowerAll (site : Site) : List Node → Compile (List Code)
  | [] => pure []
  | n :: nodes => do
    let c ← n.lower site
    let cs ← lowerAll site nodes
    pure (c :: cs)

/-- The parts that the contents of an output give. -/
def lowerParts (site : Site) : List Node → Compile (List BodyPart)
  | [] => pure []
  | .text pos content :: nodes => do
    let parts ← lowerParts site nodes
    pure (.text pos content :: parts)
  | n :: nodes => do
    let c ← n.lower site
    let parts ← lowerParts site nodes
    pure (.hole c :: parts)

/-- The parts that the nodes of a body give. The contents of an output count
as nodes of the body itself. -/
def lowerBody (site : Site) : List Node → Compile (List BodyPart)
  | [] => pure []
  | .text pos content :: nodes => do
    let parts ← lowerBody site nodes
    pure (.text pos content :: parts)
  | .output _ inner :: nodes => do
    let front ← lowerParts site inner
    let parts ← lowerBody site nodes
    pure (front ++ parts)
  | n :: nodes => do
    let c ← n.lower site
    let parts ← lowerBody site nodes
    pure (.hole c :: parts)

/-- The targets of an assignment, each as the step that gives its code. -/
def lowerTargets (site : Site) : List Node → List (Compile Code)
  | [] => []
  | n :: nodes =>
    (if n.isTarget then n.lower site else throw (n.unsupported "invalid assignment target"))
      :: lowerTargets site nodes

/-- The entries of a dictionary. -/
def lowerPairs (site : Site) : List (Node × Node) → Compile (List (Bytes × Code))
  | [] => pure []
  | (key, value) :: pairs => do
    let k ← dictKey key
    let v ← value.lower site
    let props ← lowerPairs site pairs
    pure ((k, v) :: props)

end

end Node

end TemplateCompiler
